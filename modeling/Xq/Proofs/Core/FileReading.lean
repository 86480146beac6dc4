import Xq.Proofs.Core.FileDecoding
import Xq.Proofs.Core.ReaderProgress
import Xq.Proofs.Core.Verify

/-! The random-access reader on a finished file: it opens, every block decodes to its piece, and every
read returns its slice of what was written. -/

namespace Xq

open Lib

section Opening

variable {zstd : Option CodecVt} {c : Container} {codec : CodecVt} {GoodD : Dctx → Prop}
  {size : Nat} {xs : Bytes} {dict : Option XqDict} {ddict : Option Ddict}

/-- A file that a reader can open: it has an index, and a record can announce its size. -/
structure Container.Openable (c : Container) (xs : Bytes) : Prop where
  some_byte : xs ≠ []
  small : c.bytes.length < 2 ^ 63
  index : c.indexPayload.length ≤ 2 ^ 40
  hint : c.header.rawSize = sizeUnknown ∨ c.header.rawSize.toNat = xs.length

/-- A file that holds some bytes has a block. -/
theorem Container.Keeps.some_block (keeps : c.Keeps zstd codec GoodD size xs dict ddict)
    (some_byte : xs ≠ []) : c.blocks ≠ [] := by
  -- Without blocks there is nothing to make up the bytes.
  intro none
  have count := keeps.cuts.count
  have empty : allBlocks size xs = [] := by
    rw [← List.length_eq_zero_iff, ← count, none]
    rfl
  have whole := @allBlocks_flatten _ size xs
  rw [empty, List.flatten_nil] at whole
  exact some_byte whole.symm

/-- The sizes and places that the footer announces. -/
theorem Container.footer_places (some_block : c.blocks ≠ []) (small : c.bytes.length < 2 ^ 63) :
    c.footer.indexOffset.toNat = c.endPosition ∧
      c.footer.indexSize.toNat = recordHeaderSize + c.indexPayload.length ∧
      c.endPosition + recordHeaderSize + c.indexPayload.length + footerSize = c.bytes.length := by
  -- Nothing in a file this small is cut off at 64 bits.
  have length := c.length_bytes
  have record : c.indexRecord.length = recordHeaderSize := length_fmtRecordStore _ _
  have index : c.index.length = recordHeaderSize + c.indexPayload.length := by
    rw [Container.index, if_neg some_block, List.length_append, record]
  have offset : c.footer.indexOffset.toNat = c.endPosition := by
    rw [Container.footer, if_neg some_block]
    exact UInt64.toNat_ofNat_of_lt' (show _ < 2 ^ 64 by omega)
  have extent : c.footer.indexSize.toNat = c.index.length :=
    UInt64.toNat_ofNat_of_lt' (show _ < 2 ^ 64 by omega)
  exact ⟨offset, extent.trans index, by omega⟩

/-- The header is read. -/
theorem Container.Keeps.header_read (keeps : c.Keeps zstd codec GoodD size xs dict ddict) :
    fmtHeaderParse (c.bytes.take fileHeaderSize) = .ok c.header := by
  -- The file begins with the header as it was stored.
  have header : (fmtHeaderStore c.header).length = fileHeaderSize := length_fmtHeaderStore _
  have split : c.bytes = fmtHeaderStore c.header ++ c.bytes.drop fileHeaderSize := by
    rw [c.drop_header]
    simp only [Container.bytes, Container.body, Container.front, Container.blockBytes,
      List.append_assoc]
  have parsed := fmtHeaderParse_store keeps.header []
  rw [List.append_nil] at parsed
  rw [split, List.take_left' header]
  exact parsed

/-- The header and the footer are read. -/
theorem Container.Keeps.loadTail (keeps : c.Keeps zstd codec GoodD size xs dict ddict)
    (openable : c.Openable xs) : Xq.loadTail c.bytes = .ok (c.header, c.footer) := by
  have some_block := keeps.some_block openable.some_byte
  have small := openable.small
  obtain ⟨offset, extent, length⟩ := Container.footer_places some_block small
  have front := c.length_front
  have payload := c.length_indexPayload
  have least : fileHeaderSize ≤ c.endPosition := by
    rw [Container.endPosition, Container.position]
    omega
  have preamble : indexPreambleSize ≤ c.indexPayload.length := by omega
  have ends : c.bytes.drop (c.bytes.length - footerSize) = fmtFooterStore c.footer :=
    (keeps.cuts.wellFormed keeps.rawSize keeps.most keeps.short (by omega)).footer
  have read := keeps.header_read
  have present : c.footer.indexOffset ≠ 0 := by
    intro zero
    rw [zero] at offset
    have : (0 : UInt64).toNat = 0 := rfl
    have : fileHeaderSize = 32 := rfl
    omega
  -- The footer names an index that lies inside the file.
  have valid : c.footer.Valid :=
    ⟨fun zero => (present zero).elim, fun _ => by omega, fun _ => by omega⟩
  have footer : fmtFooterParse (c.bytes.drop (c.bytes.length - footerSize)) = .ok c.footer := by
    have := fmtFooterParse_store valid []
    rwa [List.append_nil, ← ends] at this
  -- The sum of offset and size stays in the word.
  have within : rangeOk c.footer.indexOffset c.footer.indexSize
      (UInt64.ofNat (c.bytes.length - footerSize)) := by
    have sum : (c.footer.indexOffset + c.footer.indexSize).toNat =
        c.endPosition + (recordHeaderSize + c.indexPayload.length) := by
      rw [UInt64.toNat_add, offset, extent, Nat.mod_eq_of_lt (by omega)]
    have limit : (UInt64.ofNat (c.bytes.length - footerSize)).toNat =
        c.bytes.length - footerSize :=
      UInt64.toNat_ofNat_of_lt' (show _ < 2 ^ 64 by omega)
    rw [rangeOk, addU64Ok, if_pos (by omega)]
    exact decide_eq_true (UInt64.le_iff_toNat_le.mpr (by omega))
  rw [Xq.loadTail, if_neg (by omega), read]
  dsimp only
  rw [footer]
  dsimp only
  rw [if_neg present, if_neg (not_not.mpr within)]

/-- The places of the index record and of its payload in the file. -/
theorem Container.drop_index (some_block : c.blocks ≠ []) :
    (c.bytes.drop c.endPosition).take recordHeaderSize = c.indexRecord ∧
      (c.bytes.drop (c.endPosition + recordHeaderSize)).take c.indexPayload.length =
        c.indexPayload := by
  -- The record stands at the end of the blocks, and its payload behind it.
  have record : c.indexRecord.length = recordHeaderSize := length_fmtRecordStore _ _
  have behind := Container.drop_endPosition (c := c)
  rw [Container.index, if_neg some_block, List.append_assoc] at behind
  constructor
  · rw [behind, List.take_left' record]
  · rw [← List.drop_drop, behind, List.drop_left' record, List.take_left]

/-- The index is read, and accepted. -/
theorem Container.Keeps.loadIndex (keeps : c.Keeps zstd codec GoodD size xs dict ddict)
    (openable : c.Openable xs) :
    Xq.loadIndex c.bytes c.header c.footer =
      .ok (c.preamble, c.entries.flatMap fmtIndexEntryStore) := by
  have some_block := keeps.some_block openable.some_byte
  have small := openable.small
  obtain ⟨offset, extent, length⟩ := Container.footer_places some_block small
  obtain ⟨record, payload⟩ := Container.drop_index some_block
  have indexed := keeps.cuts.indexes some_block keeps.rawSize keeps.most keeps.short (by omega)
  have entries : c.indexPayload.drop indexPreambleSize = c.entries.flatMap fmtIndexEntryStore := by
    rw [Container.indexPayload, ← length_fmtIndexPreambleStore c.preamble, List.drop_left]
  have lengths := c.length_indexPayload
  have entrySize : indexEntrySize = 16 := rfl
  have preambleSize : indexPreambleSize = 24 := rfl
  have few : c.blocks.length < 2 ^ 60 := by
    rw [entrySize] at lengths
    omega
  -- The record announces the size of the payload.
  have announced : (UInt64.ofNat c.indexPayload.length).toNat = c.indexPayload.length :=
    UInt64.toNat_ofNat_of_lt' (show _ < 2 ^ 64 by omega)
  have parsed : fmtRecordParse c.indexRecord = _ := fmtRecordParse_store
    { tag := recIndex, rflags := 0, size := UInt64.ofNat c.indexPayload.length, crc32c := 0 }
    c.indexPayload (announced.trans_le openable.index)
  have header : (UInt64.ofNat recordHeaderSize).toNat = recordHeaderSize := rfl
  have body : c.footer.indexSize - UInt64.ofNat recordHeaderSize =
      UInt64.ofNat c.indexPayload.length := by
    rw [← UInt64.toNat_inj, UInt64.toNat_sub_of_le _ _
      (UInt64.le_iff_toNat_le.mpr (by rw [header, extent]; omega)), extent, header, announced,
      Nat.add_sub_cancel_left]
  -- The preamble says how many entries there are.
  have fits := @fmtIndexPayloadSize_fits c.blocks.length (by rw [← lengths]; omega)
  have preamble : fmtIndexPreambleParse c.indexPayload = .ok c.preamble :=
    fmtIndexPreambleParse_store fits (c.entries.flatMap fmtIndexEntryStore)
  have wanted : fmtIndexPayloadSize c.preamble.blockCount =
      UInt64.ofNat c.indexPayload.length := by
    rw [← UInt64.toNat_inj, announced, lengths]
    exact fmtIndexPayloadSize_eq few fits
  -- The checksum of the record seals the payload, which lists the blocks as they lie.
  have sealed : ld32le c.indexRecord 10 =
      crc32cUpdate (crc32c (c.indexRecord.take 10)) c.indexPayload := by
    rw [(fmtRecordVerify_ok_iff.mp indexed.verified).2]
    exact crc32cUpdate_append 0 _ _
  have valid : fmtIndexValidate c.preamble (c.entries.flatMap fmtIndexEntryStore)
      c.bytes.length = .ok := by
    obtain ⟨ip, read, _, valid⟩ := indexed.valid
    obtain rfl := Except.ok.inj (preamble.symm.trans read)
    rwa [← entries]
  have rawSize : ¬ (c.header.rawSize ≠ sizeUnknown ∧ c.header.rawSize ≠ c.preamble.totalRaw) := by
    rintro ⟨known, other⟩
    rcases openable.hint with unknown | same
    · exact known unknown
    · refine other ?_
      rw [← UInt64.toNat_inj, same, Container.preamble, keeps.rawSize]
      exact (UInt64.toNat_ofNat_of_lt' keeps.short).symm
  have whole : ¬ c.indexRecord.length ≠ recordHeaderSize := not_not.mpr (length_fmtRecordStore _ _)
  rw [Xq.loadIndex, filePread, offset, if_neg (by rintro ⟨_, far⟩; omega), record]
  dsimp only
  rw [if_neg whole, parsed]
  dsimp only
  rw [if_neg (not_not.mpr rfl), if_neg (not_not.mpr body.symm), announced, if_neg (by omega),
    fileMap, if_neg (by omega), payload]
  dsimp only
  rw [preamble]
  dsimp only
  rw [wanted, if_neg (by rintro (zero | other); exacts [fits (wanted.trans zero), other rfl]),
    ← Container.indexRecord, if_neg (not_not.mpr sealed), entries, if_neg (not_not.mpr valid),
    if_neg rawSize]

end Opening

section Metadata

variable {zstd : Option CodecVt} {c : Container} {codec : CodecVt} {GoodD : Dctx → Prop}
  {size : Nat} {xs : Bytes} {dict : Option XqDict} {ddict : Option Ddict}

/-- Only the header of a record is parsed. -/
theorem fmtRecordParse_front {hdr : Bytes} (sized : hdr.length = recordHeaderSize) (rest : Bytes) :
    fmtRecordParse (hdr ++ rest) = fmtRecordParse hdr := by
  -- Every field lies in the header.
  have size : recordHeaderSize = 14 := rfl
  rw [fmtRecordParse, fmtRecordParse, fmtRecordFields, fmtRecordFields,
    ld8_append_left (by omega), ld8_append_left (by omega), ld64le_append_left (by omega),
    ld32le_append_left (by omega), List.length_append, if_neg (show ¬ _ < recordHeaderSize by omega),
    if_neg (show ¬ hdr.length < recordHeaderSize by omega)]

/-- Only the header of a record is verified with a payload. -/
theorem fmtRecordVerify_front {hdr payload : Bytes} (sized : hdr.length = recordHeaderSize)
    (rest : Bytes) : fmtRecordVerify (hdr ++ rest) payload = fmtRecordVerify hdr payload := by
  -- The size and the checksum lie in the header.
  have size : recordHeaderSize = 14 := rfl
  rw [fmtRecordVerify, fmtRecordVerify, ld64le_append_left (by omega),
    ld32le_append_left (by omega), List.take_append_of_le_length (by omega)]

/-- What a reader has loaded once it has been opened on a file. -/
structure Reader.Loaded (c : Container) (codec : CodecVt) (ddict : Option Ddict) (r : Reader) :
    Prop where
  file : r.file = c.bytes
  hdr : r.hdr = c.header
  entries : r.entries = c.entries.flatMap fmtIndexEntryStore
  blockCount : r.blockCount = c.blocks.length
  rawSize : r.rawSize = UInt64.ofNat c.rawSize
  coder : r.codec = codec
  footer : r.footer = c.footer
  ddict : r.ddict = ddict
  checksumLen : r.checksumLen = fmtChecksumSize c.header.checksumId

/-- The loop over the metadata reads the dictionary and comes to the end. -/
theorem Reader.metaLoop_dict {x : XqDict} {digest : Ddict} {record : FileDict} {r : Reader}
    (holds : record.Holds zstd codec GoodD x digest) (fresh : r.Loaded c codec none)
    (good : GoodD r.dctx) {memLimit : Nat} (limit : memLimit = 0 ∨ x.bytes.length ≤ memLimit) :
    ∃ loaded : Reader,
      Reader.metaLoop zstd memLimit record.bytes.length record.bytes r = (.ok, loaded) ∧
        loaded.Loaded c codec (some digest) := by
  obtain ⟨rh, parsed, tag, _, verified⟩ := holds.record
  obtain ⟨info, understood, rawSize, digested, decoded⟩ := holds.parses
  obtain ⟨raw, _⟩ := decoded r.dctx good
  have size : recordHeaderSize = 14 := rfl
  have sized := parsed.header
  have announced := parsed.sized
  have bytes : record.bytes =
      dictRecordHeader record.head record.stored ++ (record.head ++ record.stored) := by
    rw [FileDict.bytes, List.append_assoc]
  have payload : ((dictRecordHeader record.head record.stored ++
      (record.head ++ record.stored)).drop recordHeaderSize).take rh.size.toNat =
        record.head ++ record.stored := by
    rw [List.drop_left' sized, ← announced, List.take_length]
  have behind : (dictRecordHeader record.head record.stored ++
      (record.head ++ record.stored)).drop (recordHeaderSize + rh.size.toNat) = [] := by
    rw [← announced, ← sized, ← List.length_append, List.drop_length]
  generalize decode : dictDecode zstd r.dctx info record.stored = made at raw
  obtain ⟨⟨answer, dctx'⟩, call⟩ := made
  obtain rfl : answer = .ok x.bytes := raw
  rw [← fresh.coder] at digested
  let loaded : Reader :=
    { r with
      dctx := dctx', calls := r.calls ++ call.toList, ddict := some digest
      dictLen := info.rawSize.toNat }
  have within : ¬ (memLimit ≠ 0 ∧ info.rawSize.toNat > memLimit) := by
    rintro ⟨limited, less⟩
    rcases limit with none | limit
    · exact limited none
    · omega
  -- The record decodes to the dictionary, and its digest is kept.
  have load : Reader.loadDict zstd r memLimit (record.head ++ record.stored) = (.ok, loaded) := by
    rw [Reader.loadDict, understood]
    dsimp only
    rw [if_neg within, List.drop_left' holds.head, decode]
    dsimp only
    rw [digested]
  have ended (fuel : Nat) : Reader.metaLoop zstd memLimit fuel [] loaded = (.ok, loaded) := by
    cases fuel with
    | zero => rfl
    | succ fuel => exact if_pos (by decide)
  refine ⟨loaded, ?_, ?_⟩
  · -- One round reads the record, and the next finds nothing behind it.
    obtain ⟨fuel, length⟩ : ∃ fuel, record.bytes.length = fuel + 1 := by
      refine Nat.exists_eq_add_one.mpr ?_
      rw [bytes, List.length_append, sized]
      omega
    have room : ¬ rh.size.toNat > (dictRecordHeader record.head record.stored ++
        (record.head ++ record.stored)).length - recordHeaderSize := by
      rw [List.length_append, sized, announced]
      omega
    rw [length, bytes, Reader.metaLoop, if_neg (by rw [List.length_append]; omega),
      fmtRecordParse_front sized, parsed.parsed]
    dsimp only
    rw [if_neg room, payload, behind, fmtRecordVerify_front sized, if_neg (not_not.mpr verified),
      if_pos tag, load]
    exact ended fuel
  · exact { fresh with ddict := rfl }

/-- Where the first entry of the index says the first block is. -/
theorem Container.Keeps.first_entry (keeps : c.Keeps zstd codec GoodD size xs dict ddict)
    (openable : c.Openable xs) :
    (fmtIndexEntryLoad (c.entries.flatMap fmtIndexEntryStore) 0).fileOffset.toNat =
      c.front.length := by
  -- It is the position of the first block, which follows the front of the file.
  have small := openable.small
  have some_block := keeps.some_block openable.some_byte
  have indexed := keeps.cuts.indexes some_block keeps.rawSize keeps.most keeps.short (by omega)
  have entries : c.indexPayload.drop indexPreambleSize = c.entries.flatMap fmtIndexEntryStore := by
    rw [Container.indexPayload, ← length_fmtIndexPreambleStore c.preamble, List.drop_left]
  have first : 0 < c.blocks.length := List.length_pos_iff.mpr some_block
  obtain ⟨place, _⟩ := indexed.entry 0 c.blocks[0] (List.getElem?_eq_getElem first)
  rw [entries, c.position_zero] at place
  exact place

/-- The metadata of a file are loaded, where the memory limit of the reader leaves room for them. -/
theorem Container.Keeps.loadMeta (keeps : c.Keeps zstd codec GoodD size xs dict ddict)
    (openable : c.Openable xs) {r : Reader} (fresh : r.Loaded c codec none) (good : GoodD r.dctx)
    {memLimit : Nat} (limit : memLimit = 0 ∨
      ∀ x ∈ dict, recordHeaderSize + dictPayloadHeader + x.bytes.length ≤ memLimit) :
    ∃ loaded : Reader, Reader.loadMeta zstd r memLimit = (.ok, loaded) ∧
      loaded.Loaded c codec ddict := by
  have most : dictSizeMax = 2 ^ 28 := rfl
  have first := keeps.first_entry openable
  have front := c.length_front
  have sections := c.drop_header
  have recorded := keeps.dict
  rw [Reader.loadMeta, fresh.entries, first, fresh.hdr, keeps.headerSize]
  dsimp only
  rw [if_neg (by omega)]
  generalize c.dict = record at recorded front sections
  cases recorded with
  | none =>
    -- The first block follows the header.
    rw [Option.map_none, Option.getD_none, List.length_nil] at front
    rw [if_pos (by omega)]
    exact ⟨r, rfl, fresh⟩
  | @some x digest record given =>
    rw [Option.map_some, Option.getD_some] at front sections
    have shrinks := given.shrinks
    have bounded := given.bounded
    have length : record.bytes.length =
        recordHeaderSize + dictPayloadHeader + record.stored.length := by
      obtain ⟨_, parsed, _⟩ := given.record
      rw [FileDict.bytes, List.length_append, List.length_append, parsed.header, given.head]
    have size : recordHeaderSize = 14 := rfl
    have head : dictPayloadHeader = 30 := rfl
    have region : c.front.length - fileHeaderSize = record.bytes.length := by omega
    have enough : ¬ (memLimit ≠ 0 ∧ record.bytes.length > memLimit) := by
      rintro ⟨limited, less⟩
      rcases limit with none | limit
      · exact limited none
      · have := limit x rfl
        omega
    -- With a dictionary the region holds its record.
    obtain ⟨loaded, walked, done⟩ := Reader.metaLoop_dict given fresh good
      (limit.imp_right fun limit => by have := limit x rfl; omega)
    -- The region is mapped, and it is the record.
    have there : (c.bytes.drop fileHeaderSize).take record.bytes.length = record.bytes := by
      rw [sections, List.take_left]
    rw [region, if_neg (by omega), if_neg (by omega), if_neg enough, fileMap, if_neg (by omega),
      fresh.file, there]
    dsimp only
    rw [walked]
    dsimp only
    have present : ¬ (loaded.hdr.flags &&& flagDictPresent ≠ 0 ∧ loaded.ddict.isNone) := by
      rw [done.ddict]
      rintro ⟨_, none⟩
      cases none
    rw [if_neg present]
    exact ⟨loaded, rfl, done⟩

/-- The memory limit of a reader leaves room for blocks of that size and for that dictionary. -/
def ReaderAllows (opts : Option ReaderOpts) (codec : CodecVt) (size : Nat)
    (dict : Option XqDict) : Prop :=
  (opts.map ReaderOpts.memLimit).getD 0 = 0 ∨
    size + blockHeaderSize + codec.bound size + 8 ≤ (opts.map ReaderOpts.memLimit).getD 0 ∧
      ∀ x ∈ dict, recordHeaderSize + dictPayloadHeader + x.bytes.length ≤
        (opts.map ReaderOpts.memLimit).getD 0

/-- The buffers of a reader that has room for them. -/
theorem Reader.setupBuffers_allowed {r : Reader} {opts : Option ReaderOpts} (cpus : Nat)
    (limit : (opts.map ReaderOpts.memLimit).getD 0 = 0 ∨
      r.hdr.blockSize + blockHeaderSize + r.codec.bound r.hdr.blockSize + 8 ≤
        (opts.map ReaderOpts.memLimit).getD 0) :
    ∃ ready, r.setupBuffers opts cpus = (.ok, ready) := by
  -- The only failure is a limit that is too small.
  have enough : ¬ ((opts.map ReaderOpts.memLimit).getD 0 ≠ 0 ∧
      r.hdr.blockSize + blockHeaderSize + r.codec.bound r.hdr.blockSize + 8 >
        (opts.map ReaderOpts.memLimit).getD 0) := by
    rintro ⟨limited, less⟩
    rcases limit with none | limit
    · exact limited none
    · omega
  unfold Reader.setupBuffers
  dsimp only
  rw [if_neg enough]
  exact ⟨_, rfl⟩

/-- A reader opens a file that is not too large. -/
theorem Container.Keeps.readerOpen (keeps : c.Keeps zstd codec GoodD size xs dict ddict)
    (openable : c.Openable xs) {opts : Option ReaderOpts}
    (allows : ReaderAllows opts codec size dict) (cpus : Nat) :
    ∃ r, Xq.readerOpen zstd c.bytes opts cpus = .ok r ∧ r.Loaded c codec ddict := by
  have small := openable.small
  have length := c.length_bytes
  have lengths := c.length_indexPayload
  have entrySize : indexEntrySize = 16 := rfl
  obtain ⟨_, _, whole⟩ := Container.footer_places (keeps.some_block openable.some_byte) small
  have count : (UInt64.ofNat c.blocks.length).toNat = c.blocks.length := by
    refine UInt64.toNat_ofNat_of_lt' (show _ < 2 ^ 64 from ?_)
    rw [entrySize] at lengths
    omega
  have blank : (readerBlank c.bytes c.header c.footer codec c.preamble
      (c.entries.flatMap fmtIndexEntryStore)).Loaded c codec none :=
    { file := rfl, hdr := rfl, entries := rfl, blockCount := count, rawSize := rfl, coder := rfl
      footer := rfl, ddict := rfl, checksumLen := rfl }
  obtain ⟨loaded, metadata, done⟩ := keeps.loadMeta openable blank keeps.dctx
    (allows.imp_right And.right)
  have room : (opts.map ReaderOpts.memLimit).getD 0 = 0 ∨ loaded.hdr.blockSize + blockHeaderSize +
      loaded.codec.bound loaded.hdr.blockSize + 8 ≤ (opts.map ReaderOpts.memLimit).getD 0 := by
    rw [done.hdr, done.coder, keeps.blockSize]
    exact allows.imp_right And.left
  obtain ⟨r, buffers⟩ := Reader.setupBuffers_allowed cpus room
  refine ⟨r, ?_, ?_⟩
  · rw [Xq.readerOpen, keeps.loadTail openable]
    dsimp only
    rw [keeps.found]
    dsimp only
    rw [keeps.loadIndex openable]
    dsimp only
    rw [metadata]
    dsimp only
    rw [buffers]
  · -- The buffers change nothing of what has been loaded.
    obtain ⟨_, _, _, _, rfl⟩ := Reader.setupBuffers_ok buffers
    exact { done with }

end Metadata

section Blocks

variable {zstd : Option CodecVt} {c : Container} {codec : CodecVt} {GoodD : Dctx → Prop}
  {size : Nat} {xs file : Bytes} {dict : Option XqDict} {ddict : Option Ddict} {r : Reader}

/-- The block that holds a piece, and the entries of the index in front of it and behind it. -/
theorem Container.Keeps.block_at (keeps : c.Keeps zstd codec GoodD size xs dict ddict)
    (openable : c.Openable xs) (loaded : r.Loaded c codec ddict) {i : Nat} {raw : Bytes}
    (here : (allBlocks size xs)[i]? = some raw) : ∃ b : FileBlock,
      c.blocks[i]? = some b ∧ b.Keeps zstd c.header GoodD ddict raw ∧
        (r.entryAt i).fileOffset.toNat = c.position i ∧
        (r.entryAt i).rawOffset = b.header.rawOffset ∧
        (r.entryAt (i + 1)).fileOffset.toNat = c.position i + b.bytes.length := by
  have small := openable.small
  have some_block := keeps.some_block openable.some_byte
  have indexed := keeps.cuts.indexes some_block keeps.rawSize keeps.most keeps.short (by omega)
  have entries : c.indexPayload.drop indexPreambleSize = c.entries.flatMap fmtIndexEntryStore := by
    rw [Container.indexPayload, ← length_fmtIndexPreambleStore c.preamble, List.drop_left]
  obtain ⟨inside, rfl⟩ := List.getElem?_eq_some_iff.mp here
  have inside' : i < c.blocks.length := by rwa [keeps.cuts.count]
  have block : c.blocks[i]? = some c.blocks[i] := List.getElem?_eq_getElem inside'
  have each := (List.forall₂_iff_get.mp keeps.kept).2 i inside inside'
  obtain ⟨place, raw⟩ := indexed.entry i _ block
  have behind : indexFile (c.indexPayload.drop indexPreambleSize) (i + 1) = c.position (i + 1) := by
    -- Behind a block comes the next one, or the end.
    rcases Nat.lt_or_ge (i + 1) c.blocks.length with more | last
    · exact (indexed.entry (i + 1) _ (List.getElem?_eq_getElem more)).1
    · rw [show i + 1 = c.blocks.length by omega]
      exact indexed.sentinel.1
  rw [entries, ← loaded.entries] at place raw behind
  refine ⟨_, block, each, place, UInt64.toNat_inj.mp raw, ?_⟩
  rw [← Container.position_succ block]
  exact behind

/-- Where a block stands in the bytes of its file, and what stands there. -/
structure FileBlock.Stands (c : Container) (i : Nat) (b : FileBlock) : Prop where
  length : b.bytes.length = blockHeaderSize + b.payload.length + b.ck.length
  within : c.position i + b.bytes.length < c.bytes.length
  bytes : (c.bytes.drop (c.position i)).take b.bytes.length = b.bytes
  parsed : fmtBlockParse (b.bytes.take blockHeaderSize) = .ok b.header
  payload : (b.bytes.drop blockHeaderSize).take b.payload.length = b.payload
  ck : (b.bytes.drop blockHeaderSize).drop b.payload.length = b.ck

theorem FileBlock.Keeps.stands {raw : Bytes} {b : FileBlock} {i : Nat}
    (kept : b.Keeps zstd c.header GoodD ddict raw) (block : c.blocks[i]? = some b) :
    b.Stands c i := by
  -- Each part of the block lies behind the part in front of it.
  have header : (fmtBlockStore b.header).length = blockHeaderSize := length_fmtBlockStore _
  have whole := c.length_bytes
  have next := c.position_le_end (i + 1)
  have record : recordHeaderSize = 14 := rfl
  rw [Container.position_succ block] at next
  refine ⟨?_, by omega, ?_, ?_, ?_, ?_⟩
  · rw [FileBlock.bytes, List.length_append, List.length_append, header]
  · obtain ⟨inside, rfl⟩ := List.getElem?_eq_some_iff.mp block
    rw [Container.drop_position, List.drop_eq_getElem_cons inside, List.flatMap_cons,
      List.append_assoc, List.take_left]
  · have := fmtBlockParse_store kept.valid []
    rw [List.append_nil] at this
    rw [FileBlock.bytes, List.append_assoc, List.take_left' header, this]
  · rw [FileBlock.bytes, List.append_assoc, List.drop_left' header, List.take_left]
  · rw [FileBlock.bytes, List.append_assoc, List.drop_left' header, List.drop_left]

/-- A block of a file decodes to its piece of what the file is over, unless its checksum gives it
away. -/
theorem Container.Keeps.blockDecode (keeps : c.Keeps zstd codec GoodD size xs dict ddict)
    (openable : c.Openable xs) (loaded : r.Loaded c codec ddict) (maxRaw : r.maxRaw = size)
    (cbufCap : r.cbufCap = blockHeaderSize + codec.bound size + 8) {i : Nat} {raw : Bytes}
    {b : FileBlock} (here : (allBlocks size xs)[i]? = some raw) (block : c.blocks[i]? = some b) :
    r.blockDecode zstd i =
      if blockChecksumOk c.header b.payload b.ck then .ok raw else .error .corruptBlock := by
  obtain ⟨b', block', kept, place, rawOffset, behind⟩ := keeps.block_at openable loaded here
  obtain rfl := Option.some.inj (block.symm.trans block')
  have stands := kept.stands block
  have small := openable.small
  have within := stands.within
  have fits : raw.length ≤ size := (mem_allBlocks xs (List.mem_of_getElem? here) keeps.positive).2
  have bound := keeps.bound
  have shrinks := kept.shrinks
  have checksum := fmtChecksumSize_le c.header.checksumId
  have ck := kept.ck
  have length := stands.length
  have extent : ((r.entryAt (i + 1)).fileOffset - (r.entryAt i).fileOffset).toNat =
      b.bytes.length := by
    rw [UInt64.toNat_sub_of_le _ _ (UInt64.le_iff_toNat_le.mpr (by omega)), behind, place,
      Nat.add_sub_cancel_left]
  -- Every test in front of the checksum passes.
  have slot (dctx : Dctx) : Reader.decodeBlockSlot zstd r dctx i =
      if ¬ blockChecksumOk c.header b.payload b.ck then blockRefused .corruptBlock dctx
      else
        (blockFinish b.header (blockPayload zstd dctx ddict size b.header b.payload),
          blockPayload zstd dctx ddict size b.header b.payload) := by
    rw [Reader.decodeBlockSlot]
    dsimp only
    rw [extent, if_neg (by omega), if_neg (by omega), loaded.file, place, filePread,
      if_neg (by rintro ⟨_, far⟩; omega), stands.bytes]
    dsimp only
    rw [if_neg (not_not.mpr rfl), stands.parsed]
    dsimp only
    rw [if_neg (not_not.mpr rawOffset.symm), kept.rawSize, maxRaw, if_neg (by omega),
      kept.storedSize, loaded.checksumLen, if_neg (by omega), if_neg (by omega),
      stands.payload, stands.ck, loaded.hdr, loaded.ddict]
  rw [Reader.blockDecode, loaded.coder, slot]
  by_cases sealed : blockChecksumOk c.header b.payload b.ck
  · -- The checksum holds, and the payload decodes to the block.
    obtain ⟨status, written, _⟩ :=
      kept.decodes sealed (codec.dctxNew.getD .null) size keeps.dctx fits
    have finish : blockFinish b.header (blockPayload zstd (codec.dctxNew.getD .null) ddict size
        b.header b.payload) = .ok := by
      rw [blockFinish, if_neg (not_not.mpr status), written, kept.rawSize,
        if_neg (not_not.mpr rfl)]
    rw [if_neg (not_not.mpr sealed), finish, if_pos sealed]
    dsimp only
    rw [if_neg (not_not.mpr rfl), written]
  · -- The checksum gives the block away.
    rw [if_pos sealed, if_neg sealed, blockRefused]
    rfl

/-- The block that a position of the stream lies in passes its checksum. -/
def Container.soundAt (c : Container) (size p : Nat) : Bool :=
  (c.blocks[p / size]?).all fun b => blockChecksumOk c.header b.payload b.ck

/-- What a read of a file over `xs` is to return: its slice, unless some byte of the slice lies in a
block that does not pass its checksum. -/
def Container.sliceOf (c : Container) (size : Nat) (xs : Bytes) (n off : Nat) :
    Except XqStatus Bytes :=
  let n := min n (xs.length - off)
  if (List.range' off n).all (c.soundAt size) then .ok ((xs.drop off).take n)
  else .error .corruptBlock

/-- Where the blocks of a file lie that a reader has opened, and what they decode to. -/
structure Reader.Reads (zstd : Option CodecVt) (c : Container) (size : Nat) (xs : Bytes)
    (r : Reader) : Prop where
  positive : 0 < size
  rawSize : r.rawSize.toNat = xs.length
  count : r.blockCount = (allBlocks size xs).length
  place : ∀ i < r.blockCount, indexRaw r.entries i = i * size
  last : indexRaw r.entries r.blockCount = xs.length
  decode : ∀ i < r.blockCount, r.blockDecode zstd i =
    if c.soundAt size (i * size) then .ok ((xs.drop (i * size)).take size)
    else .error .corruptBlock

theorem Container.Keeps.reads (keeps : c.Keeps zstd codec GoodD size xs dict ddict)
    (openable : c.Openable xs) (loaded : r.Loaded c codec ddict) (ready : r.Ready zstd c.bytes) :
    r.Reads zstd c size xs := by
  have rawSize : r.rawSize.toNat = xs.length := by
    rw [loaded.rawSize, keeps.rawSize]
    exact UInt64.toNat_ofNat_of_lt' keeps.short
  have maxRaw : r.maxRaw = size := by rw [ready.maxRaw, loaded.hdr, keeps.blockSize]
  have cbufCap : r.cbufCap = blockHeaderSize + codec.bound size + 8 := by
    rw [ready.cbufCap, loaded.coder, loaded.hdr, keeps.blockSize]
  have count : r.blockCount = (allBlocks size xs).length := by
    rw [loaded.blockCount, keeps.cuts.count]
  refine ⟨keeps.positive, rawSize, count, fun i inside => ?_, ?_, fun i inside => ?_⟩
  · -- Each block begins at a multiple of the block size.
    rw [count] at inside
    obtain ⟨b, block, _, _, rawOffset, _⟩ :=
      keeps.block_at openable loaded (List.getElem?_eq_getElem inside)
    rw [← (keeps.cuts.raw i b block).1, ← rawOffset]
    rfl
  · -- The last entry of the index is the raw size.
    rw [ready.index.last_raw, rawSize]
  · rw [count] at inside
    have here := List.getElem?_eq_getElem inside
    obtain ⟨b, block, _⟩ := keeps.block_at openable loaded here
    rw [keeps.blockDecode openable loaded maxRaw cbufCap here block, Container.soundAt,
      Nat.mul_div_cancel _ keeps.positive, block, ← allBlocks_piece xs keeps.positive here]
    rfl

/-- The search finds the block of a position. -/
theorem Reader.Reads.find (reads : r.Reads zstd c size xs) (ready : r.Ready zstd file) {p : Nat}
    (inside : p < xs.length) : p / size < r.blockCount ∧
      fmtIndexFind r.entries r.nentries (UInt64.ofNat p) = some (p / size) := by
  have positive := reads.positive
  have most := length_le_allBlocks xs positive
  have within : p / size < r.blockCount := by
    rw [reads.count, Nat.div_lt_iff_lt_mul positive]
    omega
  refine ⟨within, ready.find_eq within ⟨?_, ?_⟩⟩
  · rw [reads.place _ within]
    exact Nat.div_mul_le_self p size
  · -- The next block lies behind the position, and so does the end.
    rcases Nat.lt_or_ge (p / size + 1) r.blockCount with more | all
    · rw [reads.place _ more]
      exact Nat.lt_mul_of_div_lt (Nat.lt_succ_self _) positive
    · rw [show p / size + 1 = r.blockCount by omega, reads.last]
      exact inside

/-- The positions of one block are all sound, or none of them is. -/
theorem Container.soundAt_block (c : Container) {size p q : Nat} (same : q / size = p / size) :
    c.soundAt size q = c.soundAt size p := by
  -- A position is looked up by its block.
  rw [Container.soundAt, Container.soundAt, same]

/-- A read returns its slice, up to the first block that does not pass its checksum. -/
theorem Reader.Reads.serveLoop (reads : r.Reads zstd c size xs) (ready : r.Ready zstd file)
    {off n fuel : Nat} {out : Bytes} (room : off + n ≤ xs.length) (enough : n ≤ out.length + fuel)
    (short : out.length ≤ n) :
    r.serveLoop zstd off n fuel out =
      if (List.range' (off + out.length) (n - out.length)).all (c.soundAt size) then
        .ok (out ++ (xs.drop (off + out.length)).take (n - out.length))
      else .error .corruptBlock := by
  -- The induction is on the rounds; each of them goes on to the next block.
  induction fuel generalizing out with
  | zero =>
    rw [Reader.serveLoop, show n - out.length = 0 by omega, List.range'_zero, List.all_nil,
      if_pos rfl, List.take_zero, List.append_nil]
  | succ fuel ih =>
    rw [Reader.serveLoop]
    by_cases more : out.length < n
    · obtain ⟨within, found⟩ := reads.find ready (p := off + out.length) (by omega)
      have bounds := Nat.div_mul_le_self (off + out.length) size
      have beyond := Nat.lt_mul_of_div_lt (Nat.lt_succ_self ((off + out.length) / size))
        reads.positive
      rw [if_pos more, found]
      generalize here : (off + out.length) / size = i at within found bounds beyond
      have entry : (r.entryAt i).rawOffset.toNat = i * size := reads.place i within
      have same (p : Nat) (lower : i * size ≤ p) (upper : p < (i + 1) * size) :
          c.soundAt size p = c.soundAt size (i * size) :=
        c.soundAt_block (by
          rw [Nat.mul_div_cancel _ reads.positive]
          exact Nat.div_eq_of_lt_le lower upper)
      dsimp only
      rw [reads.decode i within, entry]
      rw [Nat.succ_mul] at beyond same
      by_cases sound : c.soundAt size (i * size)
      · -- The round delivers the rest of the block, or as much of it as is wanted.
        have length : ((xs.drop (i * size)).take size).length = min size (xs.length - i * size) := by
          rw [List.length_take, List.length_drop]
        rw [if_pos sound]
        dsimp only
        rw [length, if_neg (by omega)]
        obtain ⟨k, least⟩ : ∃ k, k = min (n - out.length) (size - (off + out.length - i * size)) :=
          ⟨_, rfl⟩
        have piece : blockBytes ((xs.drop (i * size)).take size) (off + out.length - i * size)
            (n - out.length) = (xs.drop (off + out.length)).take k := by
          rw [blockBytes, List.drop_take, List.drop_drop, Nat.add_sub_cancel' bounds,
            List.take_take, least]
        have delivered : ((xs.drop (off + out.length)).take k).length = k := by
          rw [List.length_take, List.length_drop]
          omega
        have front : (List.range' (off + out.length) k).all (c.soundAt size) := by
          refine List.all_eq_true.mpr fun p member => ?_
          have := List.mem_range'_1.mp member
          rw [same p (by omega) (by omega), sound]
        have whole : n - out.length = k + (n - out.length - k) := by omega
        rw [piece, ih (by rw [List.length_append, delivered]; omega)
          (by rw [List.length_append, delivered]; omega), List.length_append, delivered, whole,
          ← List.range'_append_1, List.all_append, front, Bool.true_and, List.take_add,
          List.drop_drop, ← List.append_assoc, Nat.add_assoc, Nat.sub_add_eq]
      · -- The position itself lies in the block that is given away.
        have head : n - out.length = (n - out.length - 1) + 1 := by omega
        rw [if_neg sound, head, List.range'_succ, List.all_cons, same _ bounds beyond,
          Bool.eq_false_of_not_eq_true sound, Bool.false_and]
        rfl
    · rw [if_neg more, show n - out.length = 0 by omega, List.range'_zero, List.all_nil,
        if_pos rfl, List.take_zero, List.append_nil]

/-- A reader of a file serves the slices of what the file is over. -/
theorem Reader.Reads.serve (reads : r.Reads zstd c size xs) (ready : r.Ready zstd file)
    (n off : Nat) : r.serve zstd n off = c.sliceOf size xs n off := by
  rw [Reader.serve, Container.sliceOf, reads.rawSize]
  dsimp only
  -- An empty read and a read behind the end are served alike.
  by_cases none : n = 0
  · rw [if_pos none, none, Nat.zero_min, List.range'_zero, List.all_nil, if_pos rfl, List.take_zero]
  by_cases behind : off ≥ xs.length
  · rw [if_neg none, if_pos behind, Nat.sub_eq_zero_of_le behind, Nat.min_zero, List.range'_zero,
      List.all_nil, if_pos rfl, List.take_zero]
  · rw [if_neg none, if_neg behind, reads.serveLoop ready (by omega) (by simp) (Nat.zero_le _),
      List.length_nil, Nat.add_zero, Nat.sub_zero, List.nil_append]

/-- Where every block holds what it should, every position is sound. -/
theorem Container.Holds.soundAt (holds : c.Holds zstd codec GoodD size xs dict ddict) (p : Nat) :
    c.soundAt size p := by
  -- Behind the last block there is nothing that could be damaged.
  rw [Container.soundAt]
  cases here : c.blocks[p / size]? with
  | none => rfl
  | some b => exact holds.sealed b (List.mem_of_getElem? here)

/-- Where every position is sound, so is every slice. -/
theorem Container.Holds.sliceOf (holds : c.Holds zstd codec GoodD size xs dict ddict) (n off : Nat) :
    c.sliceOf size xs n off = .ok ((xs.drop off).take n) := by
  -- No position of the slice is refused.
  rw [Container.sliceOf, if_pos (List.all_eq_true.mpr fun p _ => holds.soundAt p),
    ← List.length_drop, ← List.take_take, List.take_length]

end Blocks

section Finished

variable {zstd : Option CodecVt} {sink : Nat → Bytes → Bytes → XqStatus} {p : XqParams}
  {rawSizeHint : UInt64} {m : Machine} {dict : Option XqDict} {e e' : Encoder}

/-- What a reader can make of a file over `xs` in blocks of `size` bytes: there is something in it,
its positions fit the calls of the system, and its index fits a record. -/
structure Indexable (size : Nat) (rawSizeHint : UInt64) (xs file : Bytes) : Prop where
  some_byte : xs ≠ []
  small : file.length < 2 ^ 63
  index : indexPreambleSize + indexEntrySize * ((allBlocks size xs).length + 1) ≤ 2 ^ 40
  hint : rawSizeHint = sizeUnknown ∨ rawSizeHint.toNat = xs.length

/-- What a run has emitted is a file that holds what was written, and a reader can open it. -/
theorem Encoder.Run.openable (created : encoderCreate zstd m sink p rawSizeHint dict = .ok e)
    (external : ∀ v ∈ zstd, ∃ GoodC GoodD, v.TakesBack GoodC GoodD)
    (readable : ∀ d ∈ e.dict, d.Readable) {issued : List EncCall} (no_free : .free ∉ issued)
    (finishes : .finish ∈ issued) {results : List XqStatus} {broken : Prop}
    (run : e.Run e.codec.Fresh issued results e' broken)
    (fine : results = List.replicate issued.length .ok)
    (indexable : Indexable e.blockSize rawSizeHint (writtenBy issued) e'.out) :
    ∃ (c : Container) (GoodD : Dctx → Prop), e'.out = c.bytes ∧
      c.Holds zstd e.codec GoodD e.blockSize (writtenBy issued) e.dict
        (e.codec.decodingDigest e.dict) ∧
      c.Openable (writtenBy issued) := by
  -- An index that fits a record leaves room for less than 2^64 bytes.
  have short : (writtenBy issued).length < 2 ^ 64 := by
    obtain ⟨_, fresh, _⟩ := encoderCreate_packed created
    have most : blockSizeMax = 2 ^ 28 := rfl
    have entry : indexEntrySize = 16 := rfl
    have bounds := fresh.blockSize_bounds
    have index := indexable.index
    rw [entry] at index
    calc (writtenBy issued).length
        ≤ (allBlocks e.blockSize (writtenBy issued)).length * e.blockSize :=
          length_le_allBlocks _ bounds.1
      _ ≤ (2 ^ 36 - 1) * 2 ^ 28 := Nat.mul_le_mul (by omega) (by omega)
      _ < 2 ^ 64 := by norm_num
  obtain ⟨c, GoodD, out, header, holds⟩ := Encoder.Run.holds created external readable no_free
    finishes run fine short
  rw [out] at indexable
  refine ⟨c, GoodD, out, holds, ?_⟩
  exact
    { some_byte := indexable.some_byte, small := indexable.small
      index := by
        rw [c.length_indexPayload, holds.cuts.count]
        exact indexable.index
      hint := by
        rw [header]
        exact indexable.hint }

/--
Random access: the reader opens a finished file, and every read returns its slice of what was
written, after any earlier reads; where threads share the handle, so do the reads of each of them, in
every interleaving, and all of them return.
-/
theorem finished_preads (created : encoderCreate zstd m sink p rawSizeHint dict = .ok e)
    (external : ∀ v ∈ zstd, v.Steady ∧ ∃ GoodC GoodD, v.TakesBack GoodC GoodD)
    (readable : ∀ d ∈ e.dict, d.Readable) {issued : List EncCall} (no_free : .free ∉ issued)
    (finishes : .finish ∈ issued) {results : List XqStatus} {broken : Prop}
    (run : e.Run e.codec.Fresh issued results e' broken)
    (fine : results = List.replicate issued.length .ok)
    (indexable : Indexable e.blockSize rawSizeHint (writtenBy issued) e'.out)
    {opts : Option ReaderOpts} (allows : ReaderAllows opts e.codec e.blockSize e.dict)
    (cpus : Nat) :
    ∃ r, readerOpen zstd e'.out opts cpus = .ok r ∧
      r.rawSize.toNat = (writtenBy issued).length ∧
      (∀ history n off, (Reader.pread zstd (Reader.preads zstd history r) n off).1 =
        .ok (((writtenBy issued).drop off).take n)) ∧
      ∀ (ι : Type) [DecidableEq ι] (calls : ι → List (Nat × Nat)) (s : ReaderMt ι),
        ReaderMt.Reachable zstd (ReaderMt.init r calls) s →
          s.Answers zstd calls fun call => .ok (((writtenBy issued).drop call.2).take call.1) := by
  obtain ⟨c, GoodD, out, holds, openable⟩ := Encoder.Run.openable created
    (fun v here => (external v here).2) readable no_free finishes run fine indexable
  rw [out]
  obtain ⟨r, opened, loaded⟩ := holds.readerOpen openable allows cpus
  have steady : ∀ v ∈ zstd, v.Steady := fun v here => (external v here).1
  have ready := readerOpen_ready steady opened
  have zero := ready.index.first_raw
  refine ⟨r, opened, ?_, fun history n off => ?_, fun ι _ calls s reached => ?_⟩
  · -- The size that the reader reports.
    rw [loaded.rawSize, holds.rawSize]
    exact UInt64.toNat_ofNat_of_lt' holds.short
  · -- A read after any others.
    rw [((ready.serves.preads steady ready.few zero history).pread steady ready.few zero n off).1]
    exact ((holds.reads openable loaded ready).serve ready n off).trans (holds.sliceOf n off)
  · -- The reads of threads.
    have answers := reached.answers steady ready
    simp only [(holds.reads openable loaded ready).serve ready, holds.sliceOf] at answers
    exact answers

/-- The file of the two blocks can be opened. -/
theorem twoBlocks_indexable {e : Encoder} (size : e.blockSize = 4096)
    (length : (e.answers [.write twoBlocks, .finish]).2.out.length = 4319) :
    Indexable e.blockSize 4099 (writtenBy [.write twoBlocks, .finish])
      (e.answers [.write twoBlocks, .finish]).2.out := by
  -- The index of two blocks is small, and the hint is the length.
  rw [twoBlocks_written]
  refine { some_byte := ?_, small := ?_, index := ?_, hint := .inr ?_ }
  · rw [Ne, ← List.length_eq_zero_iff, twoBlocks_length]
    decide
  · exact length.trans_lt (by norm_num)
  · rw [size]
    decide +kernel
  · rw [twoBlocks_length]
    decide

/-- Two blocks, read without a limit on memory. -/
theorem finished_preads_two : ∃ e,
    encoderCreate none openMachine (fun _ _ _ => .ok) smallParams 4099 none = .ok e ∧
      ∃ r, readerOpen none (e.answers [.write twoBlocks, .finish]).2.out none 1 = .ok r ∧
        r.rawSize.toNat = twoBlocks.length ∧
        (∀ history n off, (Reader.pread none (Reader.preads none history r) n off).1 =
          .ok ((twoBlocks.drop off).take n)) ∧
        ∀ (ι : Type) [DecidableEq ι] (calls : ι → List (Nat × Nat)) (s : ReaderMt ι),
          ReaderMt.Reachable none (ReaderMt.init r calls) s →
            s.Answers none calls fun call => .ok ((twoBlocks.drop call.2).take call.1) := by
  obtain ⟨e, created, no_dict, size, results, length⟩ := twoBlocks_run
  obtain ⟨no_free, finishes⟩ := twoBlocks_calls
  have unlimited : ReaderAllows none e.codec e.blockSize e.dict := .inl rfl
  have read := finished_preads created (by simp) (by simp [no_dict]) no_free finishes (.single 2)
    results (twoBlocks_indexable size length) unlimited 1
  rw [twoBlocks_written] at read
  exact ⟨e, created, read⟩

end Finished

end Xq
