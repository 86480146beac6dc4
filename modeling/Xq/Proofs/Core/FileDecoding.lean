import Xq.Proofs.Core.FileContents
import Xq.Proofs.Core.RecordInsertion

/-! The sequential decoder on a finished file, whole or cut off anywhere: it delivers the blocks that
are complete, and then either the end or the cut. -/

namespace Xq

open Lib

section Sections

variable {zstd : Option CodecVt} {d : Decoder} {p t : Bytes}

@[simp] theorem Decoder.over_io (d : Decoder) (bytes : Bytes) :
    (d.over bytes).io = Stream.whole bytes := rfl

/-- Too little is left for any section. -/
theorem Decoder.nextBlockRound_short (going : d.sawEob = false) (short : p.length < 2) :
    Decoder.nextBlockRound zstd (d.over p) = .done (.truncated, d.over p) := by
  -- Neither a type nor the end of the stream: the source reports the stream cut off.
  have window : rbufSize = 262144 := rfl
  have ended : (d.over p).sawEob = false := going
  rw [Decoder.nextBlockRound, if_neg (by rw [ended]; exact Bool.false_ne_true), Decoder.over_io,
    Stream.need_whole, if_neg (by omega), if_neg (by omega)]
  rfl

/-- Too little is left for the header of a record. -/
theorem Decoder.nextBlockRound_record_short (going : d.sawEob = false) (two : 2 ≤ p.length)
    (record : ld16le p 0 ≠ blockMagic) (short : p.length < recordHeaderSize) :
    Decoder.nextBlockRound zstd (d.over p) = .done (.truncated, d.over p) := by
  -- Two bytes tell a record, and the rest of its header does not come.
  have window : rbufSize = 262144 := rfl
  have size : recordHeaderSize = 14 := rfl
  have ended : (d.over p).sawEob = false := going
  rw [Decoder.nextBlockRound, if_neg (by rw [ended]; exact Bool.false_ne_true), Decoder.over_io,
    Stream.need_whole, if_neg (by omega), if_pos two]
  dsimp only
  rw [Stream.rbuf_whole, if_pos record, Stream.need_whole, if_neg (by omega), if_neg (by omega)]
  rfl

/-- Too little is left for the header of a block. -/
theorem Decoder.nextBlockRound_block_short (going : d.sawEob = false) (two : 2 ≤ p.length)
    (block : ld16le p 0 = blockMagic) (short : p.length < blockHeaderSize) :
    Decoder.nextBlockRound zstd (d.over p) = .done (.truncated, d.over p) := by
  -- Two bytes tell a block, and the rest of its header does not come.
  have window : rbufSize = 262144 := rfl
  have size : blockHeaderSize = 24 := rfl
  have ended : (d.over p).sawEob = false := going
  rw [Decoder.nextBlockRound, if_neg (by rw [ended]; exact Bool.false_ne_true), Decoder.over_io,
    Stream.need_whole, if_neg (by omega), if_pos two]
  dsimp only
  rw [Stream.rbuf_whole, if_neg (not_not.mpr block), Stream.need_whole, if_neg (by omega),
    if_neg (by omega)]
  rfl

/-- A round that ends with a failure ends the blocks. -/
theorem Decoder.blocks_truncated {e : Decoder} (going : d.sawEob = false)
    (round : Decoder.nextBlockRound zstd (d.over p) = .done (.truncated, e)) :
    Decoder.blocks zstd (d.over p) = ([], .truncated) :=
  Decoder.blocks_failed (show (d.over p).sawEob = false from going) (Decoder.nextBlock_done round)
    (by decide)

end Sections

section Blocks

variable {zstd : Option CodecVt} {c : Container} {codec : CodecVt} {GoodD : Dctx → Prop}
  {size n : Nat} {xs : Bytes} {ddict : Option Ddict} {d : Decoder}

/-- A decoder between two sections of a file, with `n` raw bytes behind it. -/
structure Decoder.Between (h : FileHeader) (codec : CodecVt) (GoodD : Dctx → Prop) (size : Nat)
    (ddict : Option Ddict) (n : Nat) (d : Decoder) : Prop where
  hdr : d.hdr = h
  coder : d.codec = codec
  dctx : GoodD d.dctx
  ddict : d.ddict = ddict
  checksumLen : d.checksumLen = fmtChecksumSize h.checksumId
  rawCap : d.rawCap = size
  cbufCap : d.cbufCap = codec.bound size
  rawOffset : d.rawOffset.toNat = n
  going : d.sawEob = false
  done : d.rawPos = d.rawLen

variable {h : FileHeader} {b : FileBlock} {raw : Bytes}

/-- What a block has to do with the place it is read at. -/
structure FileBlock.Next (h : FileHeader) (codec : CodecVt) (size n : Nat) (raw : Bytes)
    (b : FileBlock) : Prop where
  offset : b.header.rawOffset.toNat = n
  some_byte : 0 < raw.length
  fits : raw.length ≤ size
  room : size ≤ codec.bound size
  within : n + raw.length < 2 ^ 64

/-- The tests in front of a block's payload all pass. -/
theorem Decoder.Between.admits (between : d.Between h codec GoodD size ddict n)
    (keeps : b.Keeps zstd h GoodD ddict raw) (next : b.Next h codec size n raw) :
    b.header.rawOffset = d.rawOffset ∧ ¬ b.header.rawSize.toNat > d.rawCap ∧
      ¬ b.header.storedSize.toNat > d.cbufCap := by
  refine ⟨?_, ?_, ?_⟩
  · -- The block lies where the decoder stands.
    rw [← UInt64.toNat_inj, next.offset, between.rawOffset]
  · -- It is no larger than the block size.
    rw [keeps.rawSize, between.rawCap]
    exact Nat.not_lt.mpr next.fits
  · -- Nor is its payload larger than the codec's bound.
    rw [keeps.storedSize, between.cbufCap]
    exact Nat.not_lt.mpr (keeps.shrinks.trans (next.fits.trans next.room))

/-- Behind them, the payload is read. -/
theorem Decoder.Between.readBlock (between : d.Between h codec GoodD size ddict n)
    (keeps : b.Keeps zstd h GoodD ddict raw) (next : b.Next h codec size n raw) (rest : Bytes) :
    Decoder.readBlock zstd (d.over rest) b.header =
      match (Stream.whole rest).readExact b.payload.length with
      | (.ok, payload, io) =>
        match if d.checksumLen ≠ 0 then io.readExact d.checksumLen else (.ok, [], io) with
        | (.ok, ck, io) =>
          if ¬ blockChecksumOk d.hdr payload ck then (.corruptBlock, { d with io := io })
          else Decoder.decodePayload zstd { d with io := io } b.header payload
        | (st, _, io) => (st, { d with io := io })
      | (st, _, io) => (st, { d with io := io }) := by
  -- The block fits where the decoder stands, so no test in front of the payload stops it.
  obtain ⟨offset, raw_fits, stored_fits⟩ := between.admits keeps next
  have offset : ¬ b.header.rawOffset ≠ (d.over rest).rawOffset := not_not.mpr offset
  have raw_fits : ¬ b.header.rawSize.toNat > (d.over rest).rawCap := raw_fits
  have stored_fits : ¬ b.header.storedSize.toNat > (d.over rest).cbufCap := stored_fits
  rw [Decoder.readBlock, if_neg offset, if_neg raw_fits, if_neg stored_fits, keeps.storedSize]
  rfl

/-- A block whose payload or checksum is cut off. -/
theorem Decoder.Between.readBlock_short (between : d.Between h codec GoodD size ddict n)
    (keeps : b.Keeps zstd h GoodD ddict raw) (next : b.Next h codec size n raw) {rest : Bytes}
    (short : rest.length < b.payload.length + b.ck.length) :
    (Decoder.readBlock zstd (d.over rest) b.header).1 = .truncated := by
  have sealed : d.checksumLen = b.ck.length := between.checksumLen.trans keeps.ck.symm
  rw [between.readBlock keeps next, Stream.readExact_whole]
  by_cases payload : b.payload.length ≤ rest.length
  · -- The payload is there, so it is the checksum that is not.
    rw [if_pos payload]
    dsimp only
    rw [if_pos (by omega), Stream.readExact_whole, if_neg (by rw [List.length_drop]; omega)]
  · rw [if_neg payload]

/-- A block that is complete comes to its checksum. -/
theorem Decoder.Between.readBlock_complete (between : d.Between h codec GoodD size ddict n)
    (keeps : b.Keeps zstd h GoodD ddict raw) (next : b.Next h codec size n raw) (rest : Bytes) :
    Decoder.readBlock zstd (d.over (b.payload ++ (b.ck ++ rest))) b.header =
      if ¬ blockChecksumOk d.hdr b.payload b.ck then
        (.corruptBlock, { d with io := Stream.whole rest })
      else Decoder.decodePayload zstd { d with io := Stream.whole rest } b.header b.payload := by
  have sealed : d.checksumLen = b.ck.length := between.checksumLen.trans keeps.ck.symm
  -- Without checksums nothing is read for one.
  have read : (if d.checksumLen ≠ 0 then
      (Stream.whole (b.ck ++ rest)).readExact d.checksumLen
        else (.ok, [], Stream.whole (b.ck ++ rest))) = (.ok, b.ck, Stream.whole rest) := by
    by_cases some : d.checksumLen ≠ 0
    · rw [if_pos some, sealed, Stream.readExact_front]
    · have empty : b.ck = [] := List.length_eq_zero_iff.mp (sealed.symm.trans (not_not.mp some))
      rw [if_neg some, empty]
      rfl
  rw [between.readBlock keeps next, Stream.readExact_front]
  dsimp only
  rw [read]

/-- A block that is complete is decoded, and the decoder stands behind it. -/
theorem Decoder.Between.readBlock_whole (between : d.Between h codec GoodD size ddict n)
    (holds : b.Holds zstd h GoodD ddict raw) (next : b.Next h codec size n raw) :
    ∃ d' : Decoder, d'.Between h codec GoodD size ddict (n + raw.length) ∧ d'.raw = raw ∧
      ∀ rest, ∃ e : Decoder,
        Decoder.readBlock zstd (d.over (b.payload ++ (b.ck ++ rest))) b.header = (.ok, e) ∧
          e.raw = raw ∧ e.rawPos = 0 ∧ e.rawLen = raw.length ∧
          { e with rawPos := e.rawLen } = d'.over rest := by
  obtain ⟨status, written, context⟩ := holds.decodes holds.sealed d.dctx d.rawCap between.dctx
    (by rw [between.rawCap]; exact next.fits)
  have offset : (d.rawOffset + UInt64.ofNat raw.length).toNat = n + raw.length := by
    have within := next.within
    have small : (UInt64.ofNat raw.length).toNat = raw.length :=
      UInt64.toNat_ofNat_of_lt' (show _ < 2 ^ 64 by omega)
    rw [UInt64.toNat_add, between.rawOffset, small, Nat.mod_eq_of_lt within]
  rw [← between.ddict] at status written context
  refine ⟨{ d with
    raw := raw
    dctx := (blockPayload zstd d.dctx d.ddict d.rawCap b.header b.payload).dctx
    calls := d.calls ++
      (blockPayload zstd d.dctx d.ddict d.rawCap b.header b.payload).call.toList
    streamCk := if d.hdr.checksumId ≠ 0 then xxh64Update d.streamCk raw else d.streamCk
    rawLen := raw.length
    rawPos := raw.length
    rawOffset := d.rawOffset + UInt64.ofNat raw.length }, ?_, rfl, fun rest => ?_⟩
  · -- Behind the block the decoder stands between two blocks again.
    exact
      { hdr := between.hdr, coder := between.coder, dctx := context, ddict := between.ddict
        checksumLen := between.checksumLen, rawCap := between.rawCap
        cbufCap := between.cbufCap, rawOffset := offset, going := between.going, done := rfl }
  · -- Its checksum holds and its payload decodes, so it is put out whole.
    have verified : blockChecksumOk d.hdr b.payload b.ck := by
      rw [between.hdr]
      exact holds.sealed
    have finish : blockFinish b.header
        (blockPayload zstd d.dctx d.ddict d.rawCap b.header b.payload) = .ok := by
      rw [blockFinish, if_neg (not_not.mpr status), written, holds.rawSize,
        if_neg (not_not.mpr rfl)]
    rw [between.readBlock_complete holds.toKeeps next, if_neg (not_not.mpr verified),
      Decoder.decodePayload]
    dsimp only
    rw [if_neg (not_not.mpr finish), written]
    exact ⟨_, rfl, rfl, rfl, rfl, rfl⟩

/-- The first bytes of a front that is not complete. -/
theorem take_front {a rest : Bytes} {k : Nat} (cut : k ≤ a.length) : (a ++ rest).take k = a.take k :=
  List.take_append_of_le_length cut

/-- A block at the front of a stream that is cut off `k` bytes on: it is decoded when it is complete,
and otherwise the cut is what the decoder finds. -/
theorem Decoder.Between.block (between : d.Between h codec GoodD size ddict n)
    (holds : b.Holds zstd h GoodD ddict raw) (next : b.Next h codec size n raw) :
    ∃ d' : Decoder, d'.Between h codec GoodD size ddict (n + raw.length) ∧
      ∀ rest k, Decoder.blocks zstd (d.over ((b.bytes ++ rest).take k)) =
        if b.bytes.length ≤ k then
          (raw ++ (Decoder.blocks zstd (d'.over (rest.take (k - b.bytes.length)))).1,
            (Decoder.blocks zstd (d'.over (rest.take (k - b.bytes.length)))).2)
        else ([], .truncated) := by
  have header : (fmtBlockStore b.header).length = blockHeaderSize := length_fmtBlockStore _
  have size : blockHeaderSize = 24 := rfl
  have length : b.bytes.length = blockHeaderSize + b.payload.length + b.ck.length := by
    rw [FileBlock.bytes, List.length_append, List.length_append, header]
  have parsed : fmtBlockParse (fmtBlockStore b.header) = .ok b.header := by
    have := fmtBlockParse_store holds.valid []
    rwa [List.append_nil] at this
  have split (rest : Bytes) :
      b.bytes ++ rest = fmtBlockStore b.header ++ (b.payload ++ (b.ck ++ rest)) := by
    rw [FileBlock.bytes, List.append_assoc, List.append_assoc]
  obtain ⟨d', between', _, reads⟩ := between.readBlock_whole holds next
  refine ⟨d', between', fun rest k => ?_⟩
  by_cases complete : b.bytes.length ≤ k
  · -- The whole block is there, and what is cut off is behind it.
    have front : (b.bytes ++ rest).take k = fmtBlockStore b.header ++
        (b.payload ++ (b.ck ++ rest.take (k - b.bytes.length))) := by
      rw [← split, List.take_append, List.take_of_length_le complete]
    obtain ⟨e, read, contents, start, stop, behind⟩ := reads (rest.take (k - b.bytes.length))
    have some_byte := next.some_byte
    rw [if_pos complete, front]
    have came := Decoder.nextBlock_done
      ((Decoder.nextBlockRound_block (d := d) between.going header parsed).trans
        (congrArg Round.done read))
    rw [Decoder.blocks_next (d := d.over _) between.done between.going came
      (by rw [start, stop]; omega), behind, contents]
  · rw [if_neg complete]
    have short : ((b.bytes ++ rest).take k).length ≤ k := List.length_take_le _ _
    rcases Nat.lt_or_ge k 2 with none | two
    · exact Decoder.blocks_truncated between.going
        (Decoder.nextBlockRound_short between.going (by omega))
    rcases Nat.lt_or_ge k blockHeaderSize with cut | whole
    · -- The cut is in the header.
      have there : ((b.bytes ++ rest).take k).length = k := by
        rw [List.length_take, List.length_append]
        omega
      have magic : ld16le ((b.bytes ++ rest).take k) 0 = blockMagic := by
        have whole := (fmtBlockStore_sealed b.header (b.payload ++ (b.ck ++ rest))).1
        rw [← split, ← List.take_append_drop k (b.bytes ++ rest),
          ld16le_append_left (by omega)] at whole
        exact whole
      exact Decoder.blocks_truncated between.going
        (Decoder.nextBlockRound_block_short between.going (by omega) magic (by omega))
    · -- The cut is in the payload or in the checksum.
      have front : (b.bytes ++ rest).take k = fmtBlockStore b.header ++
          (b.payload ++ (b.ck ++ rest)).take (k - blockHeaderSize) := by
        rw [split, List.take_append, List.take_of_length_le (by omega), header]
      have left : ((b.payload ++ (b.ck ++ rest)).take (k - blockHeaderSize)).length <
          b.payload.length + b.ck.length := by
        rw [List.length_take]
        omega
      rw [front]
      have cut := between.readBlock_short holds.toKeeps next left
      have round := @Decoder.nextBlockRound_block zstd d (fmtBlockStore b.header)
        ((b.payload ++ (b.ck ++ rest)).take (k - blockHeaderSize)) b.header between.going header
        parsed
      generalize Decoder.readBlock zstd (d.over _) b.header = r at cut round
      obtain ⟨st, e⟩ := r
      obtain rfl : st = .truncated := cut
      exact Decoder.blocks_truncated between.going round

/-- A complete block that its checksum gives away ends the blocks. -/
theorem Decoder.Between.block_broken (between : d.Between h codec GoodD size ddict n)
    (keeps : b.Keeps zstd h GoodD ddict raw) (next : b.Next h codec size n raw)
    (broken : ¬ blockChecksumOk h b.payload b.ck) (rest : Bytes) :
    Decoder.blocks zstd (d.over (b.bytes ++ rest)) = ([], .corruptBlock) := by
  -- The header parses, and the checksum behind the payload does not hold.
  have header : (fmtBlockStore b.header).length = blockHeaderSize := length_fmtBlockStore _
  have parsed : fmtBlockParse (fmtBlockStore b.header) = .ok b.header := by
    have := fmtBlockParse_store keeps.valid []
    rwa [List.append_nil] at this
  have round := @Decoder.nextBlockRound_block zstd d (fmtBlockStore b.header)
    (b.payload ++ (b.ck ++ rest)) b.header between.going header parsed
  rw [between.readBlock_complete keeps next, between.hdr, if_pos broken] at round
  rw [FileBlock.bytes, List.append_assoc, List.append_assoc]
  exact Decoder.blocks_failed (show (d.over _).sawEob = false from between.going)
    (Decoder.nextBlock_done round) (by decide)

end Blocks

section Records

variable {zstd : Option CodecVt} {codec : CodecVt} {GoodD : Dctx → Prop} {size n : Nat}
  {h : FileHeader} {d : Decoder}

/-- A record header that is stored parses as what it was made of. -/
theorem fmtRecordParse_store (r : RecordHeader) (payload : Bytes) (small : r.size.toNat ≤ 2 ^ 40) :
    fmtRecordParse (fmtRecordStore r payload) =
      .ok { r with crc32c := ld32le (fmtRecordStore r payload) 10 } := by
  -- Each field is read from its place, and the size is one that is allowed.
  have length : (fmtRecordStore r payload).length = recordHeaderSize := rfl
  have tag : ld8 (fmtRecordStore r payload) 0 = r.tag := rfl
  have rflags : ld8 (fmtRecordStore r payload) 1 = r.rflags := rfl
  have announced : ld64le (fmtRecordStore r payload) 2 = r.size := by
    rw [fmtRecordStore, fmtRecordBody, List.append_assoc, List.append_assoc,
      ld64le_skip (length_st8 _) (by omega), ld64le_skip (length_st8 _) (by omega), ld64le_st64le]
  rw [fmtRecordParse, fmtRecordFields, tag, rflags, announced, if_neg (by rw [length]; omega),
    if_neg (Nat.not_lt.mpr small)]

/-- The header that the encoder writes in front of a dictionary seals what is behind it. -/
theorem dictRecordHeader_eq {head stored : Bytes} (sized : head.length = dictPayloadHeader)
    (small : stored.length ≤ dictSizeMax) :
    dictRecordHeader head stored = fmtRecordStore
      { tag := recDict, rflags := rflagCritical
        size := UInt64.ofNat (dictPayloadSize stored.length), crc32c := 0 } (head ++ stored) := by
  -- The checksum taken in two pieces is that of the whole payload.
  have header : dictPayloadHeader = 30 := rfl
  have most : dictSizeMax = 2 ^ 28 := rfl
  have length : (head ++ stored).length = dictPayloadSize stored.length := by
    rw [List.length_append, sized, dictPayloadSize]
  have value : (UInt64.ofNat (dictPayloadSize stored.length)).toNat =
      dictPayloadSize stored.length := by
    refine UInt64.toNat_ofNat_of_lt' (show _ < 2 ^ 64 from ?_)
    rw [← length, List.length_append]
    omega
  have positive : UInt64.ofNat (dictPayloadSize stored.length) ≠ 0 := by
    intro zero
    rw [zero, ← length, List.length_append, sized] at value
    have : (0 : UInt64).toNat = 0 := rfl
    omega
  rw [dictRecordHeader, fmtRecordStore]
  dsimp only
  rw [if_pos positive, value, ← length, List.take_length, crc32cUpdate_append]
  rfl

/-- A record whose header is cut off. -/
theorem Decoder.blocks_record_cut {hdr rest : Bytes} {k : Nat} (going : d.sawEob = false)
    (sized : hdr.length = recordHeaderSize) (record : ld16le hdr 0 ≠ blockMagic)
    (cut : k < recordHeaderSize) :
    Decoder.blocks zstd (d.over ((hdr ++ rest).take k)) = ([], .truncated) := by
  have size : recordHeaderSize = 14 := rfl
  rw [take_front (by omega)]
  have length : (hdr.take k).length = k := by
    rw [List.length_take]
    omega
  -- The cut comes inside the magic, or behind it.
  rcases Nat.lt_or_ge k 2 with none | two
  · exact Decoder.blocks_truncated going (Decoder.nextBlockRound_short going (by omega))
  have magic : ld16le (hdr.take k) 0 ≠ blockMagic := by
    rw [← List.take_append_drop k hdr, ld16le_append_left (by omega)] at record
    exact record
  exact Decoder.blocks_truncated going
    (Decoder.nextBlockRound_record_short going (by omega) magic (by omega))

/-- END_OF_BLOCKS at the front of a stream that is cut off `k` bytes on. -/
theorem Decoder.blocks_endOfBlocks (going : d.sawEob = false) (done : d.rawPos = d.rawLen)
    (rest : Bytes) (k : Nat) :
    Decoder.blocks zstd (d.over ((endOfBlocks ++ rest).take k)) =
      if recordHeaderSize ≤ k then ([], .ok) else ([], .truncated) := by
  have length : endOfBlocks.length = recordHeaderSize := rfl
  have magic : ld16le endOfBlocks 0 ≠ blockMagic := by decide
  by_cases complete : recordHeaderSize ≤ k
  · rw [if_pos complete, List.take_append, List.take_of_length_le (by omega)]
    generalize rest.take (k - endOfBlocks.length) = t
    -- The record is complete: it parses, verifies, and marks the end.
    have parsed := fmtRecordParse_store
      { tag := recEndOfBlocks, rflags := rflagCritical, size := 0, crc32c := 0 } [] (Nat.zero_le _)
    have verified : fmtRecordVerify endOfBlocks [] = .ok := fmtRecordVerify_store _ rfl
    have handled : Decoder.handleRecord zstd (d.over (endOfBlocks ++ t)) endOfBlocks =
        (.ok, { d.over t with sawEob := true }) := by
      rw [Decoder.handleRecord, endOfBlocks, parsed]
      dsimp only
      rw [if_pos rfl, if_neg (not_not.mpr rfl), ← endOfBlocks, if_neg (not_not.mpr verified)]
      rfl
    have round := @Decoder.nextBlockRound_record zstd d endOfBlocks t going (le_of_eq length.symm)
      magic
    rw [List.take_of_length_le (le_of_eq length), handled] at round
    refine (Decoder.blocks_again (d := d.over _) done going round).trans ?_
    exact Decoder.blocks_ended (d := { d with sawEob := true }) zstd rfl t
  · -- The record is cut off.
    rw [if_neg complete]
    exact Decoder.blocks_record_cut going length magic (by omega)

/-- The record of a dictionary, as a decode path meets it. -/
theorem FileDict.Holds.record {x : XqDict} {digest : Ddict} {r : FileDict}
    (holds : r.Holds zstd codec GoodD x digest) :
    ∃ rh, IsRecord (dictRecordHeader r.head r.stored) (r.head ++ r.stored) rh ∧
      rh.tag = recDict ∧ ld16le (dictRecordHeader r.head r.stored) 0 ≠ blockMagic ∧
      fmtRecordVerify (dictRecordHeader r.head r.stored) (r.head ++ r.stored) = .ok := by
  -- The header announces the size of what is behind it and seals it.
  have most : dictSizeMax = 2 ^ 28 := rfl
  have header : dictPayloadHeader = 30 := rfl
  have small := holds.shrinks.trans holds.bounded
  have sealed := dictRecordHeader_eq holds.head small
  have total : dictPayloadSize r.stored.length = dictPayloadHeader + r.stored.length := rfl
  have payload : (r.head ++ r.stored).length = dictPayloadSize r.stored.length := by
    rw [List.length_append, holds.head, dictPayloadSize]
  have value : (UInt64.ofNat (dictPayloadSize r.stored.length)).toNat =
      dictPayloadSize r.stored.length :=
    UInt64.toNat_ofNat_of_lt' (show _ < 2 ^ 64 by omega)
  have parsed := fmtRecordParse_store
    { tag := recDict, rflags := rflagCritical
      size := UInt64.ofNat (dictPayloadSize r.stored.length), crc32c := 0 } (r.head ++ r.stored)
    (by dsimp only; omega)
  rw [← sealed] at parsed
  refine ⟨_, ⟨rfl, parsed, payload.trans value.symm⟩, rfl, ?_, ?_⟩
  · have front : ld16le (dictRecordHeader r.head r.stored) 0 =
        ld16le [recDict, rflagCritical] 0 := rfl
    rw [front]
    decide
  · rw [sealed]
    exact fmtRecordVerify_store _ (value.trans payload.symm)

/-- A dictionary record that is not refused for its size is read. -/
theorem Decoder.handleRecord_dict {hdr payload : Bytes} {rh : RecordHeader}
    (record : IsRecord hdr payload rh) (tag : rh.tag = recDict) (fresh : d.ddict = none)
    (least : dictPayloadHeader ≤ payload.length)
    (most : payload.length ≤ dictSizeMax + dictPayloadHeader)
    (limit : ¬ (d.memLimit ≠ 0 ∧ payload.length > d.memLimit)) (t : Bytes) :
    Decoder.handleRecord zstd (d.over (hdr ++ t)) hdr =
      match (Stream.whole t).readExact payload.length with
      | (.ok, payload, io) =>
        let d := { d with io := io }
        let st := fmtRecordVerify hdr payload
        if st ≠ .ok then (st, d)
        else
          match dictPayloadParse payload with
          | .error st => (st, d)
          | .ok info =>
            if d.memLimit ≠ 0 ∧ info.rawSize.toNat > d.memLimit then (.memlimit, d)
            else Decoder.loadDict zstd d info (payload.drop dictPayloadHeader)
      | (st, _, io) => (st, { d with io := io }) := by
  -- The tests on the size of the record and on the memory limit all pass.
  have consumed : (d.over (hdr ++ t)).io.consume recordHeaderSize = Stream.whole t := by
    show Stream.whole ((hdr ++ t).drop recordHeaderSize) = _
    rw [List.drop_left' record.header]
  have fresh : ¬ ({ d.over (hdr ++ t) with io := Stream.whole t } : Decoder).ddict.isSome := by
    show ¬ d.ddict.isSome
    rw [fresh]
    exact Bool.false_ne_true
  rw [Decoder.handleRecord, record.parsed]
  dsimp only
  rw [tag, if_neg (by decide), if_pos rfl, consumed, Decoder.readDictRecord, if_neg fresh,
    ← record.sized, if_neg (Nat.not_lt.mpr least), if_neg (Nat.not_lt.mpr most)]
  exact if_neg limit

/-- The dictionary record at the front of a stream that is cut off `k` bytes on. -/
theorem Decoder.Between.dict {x : XqDict} {digest : Ddict} {r : FileDict}
    (between : d.Between h codec GoodD size none n) (holds : r.Holds zstd codec GoodD x digest)
    (limit : d.memLimit = 0 ∨ dictPayloadHeader + x.bytes.length ≤ d.memLimit) :
    ∃ d' : Decoder, d'.Between h codec GoodD size (some digest) n ∧
      ∀ rest k, Decoder.blocks zstd (d.over ((r.bytes ++ rest).take k)) =
        if r.bytes.length ≤ k then Decoder.blocks zstd (d'.over (rest.take (k - r.bytes.length)))
        else ([], .truncated) := by
  have shrinks := holds.shrinks
  have bounded := holds.bounded
  obtain ⟨rh, record, tag, magic, verified⟩ := holds.record
  obtain ⟨info, understood, rawSize, digested, decoded⟩ := holds.parses
  obtain ⟨raw, context⟩ := decoded d.dctx between.dctx
  generalize decode : dictDecode zstd d.dctx info r.stored = made at raw context
  obtain ⟨⟨answer, dctx'⟩, call⟩ := made
  obtain rfl : answer = .ok x.bytes := raw
  have payload : (r.head ++ r.stored).length = dictPayloadHeader + r.stored.length := by
    rw [List.length_append, holds.head]
  have within : ¬ (d.memLimit ≠ 0 ∧ (r.head ++ r.stored).length > d.memLimit) := by
    rintro ⟨limited, less⟩
    rcases limit with none | limit
    · exact limited none
    · omega
  have within' : ¬ (d.memLimit ≠ 0 ∧ info.rawSize.toNat > d.memLimit) := by
    rintro ⟨limited, less⟩
    rcases limit with none | limit
    · exact limited none
    · omega
  have handled (t : Bytes) := @Decoder.handleRecord_dict zstd d _ _ rh record tag between.ddict
    (by omega) (by omega) within t
  have bytes (rest : Bytes) : r.bytes ++ rest =
      dictRecordHeader r.head r.stored ++ ((r.head ++ r.stored) ++ rest) := by
    simp only [FileDict.bytes, List.append_assoc]
  have whole : r.bytes.length = recordHeaderSize + (r.head ++ r.stored).length := by
    rw [FileDict.bytes, List.append_assoc, List.length_append, record.header]
  have round (t : Bytes) := @Decoder.nextBlockRound_record zstd d _ t between.going
    (le_of_eq record.header.symm) magic
  rw [List.take_of_length_le (le_of_eq record.header)] at round
  let d' : Decoder :=
    { d with dctx := dctx', calls := d.calls ++ call.toList, ddict := some digest }
  refine ⟨d', ?_, fun rest k => ?_⟩
  · exact
      { hdr := between.hdr, coder := between.coder, dctx := context, ddict := rfl
        checksumLen := between.checksumLen, rawCap := between.rawCap
        cbufCap := between.cbufCap, rawOffset := between.rawOffset, going := between.going
        done := between.done }
  · -- The cut may come inside the header of the record.
    rcases Nat.lt_or_ge k recordHeaderSize with cut | header
    · rw [if_neg (by omega), bytes]
      exact Decoder.blocks_record_cut between.going record.header magic cut
    have front : (r.bytes ++ rest).take k = dictRecordHeader r.head r.stored ++
        ((r.head ++ r.stored) ++ rest).take (k - recordHeaderSize) := by
      rw [bytes, List.take_append, List.take_of_length_le (by rw [record.header]; exact header),
        record.header]
    rw [front]
    by_cases complete : r.bytes.length ≤ k
    · -- The dictionary is there, and is loaded.
      have behind : ((r.head ++ r.stored) ++ rest).take (k - recordHeaderSize) =
          (r.head ++ r.stored) ++ rest.take (k - r.bytes.length) := by
        rw [List.take_append, List.take_of_length_le (by omega), whole, Nat.sub_add_eq]
      have came := round ((r.head ++ r.stored) ++ rest.take (k - r.bytes.length))
      rw [handled, Stream.readExact_front] at came
      dsimp only at came
      rw [← between.coder] at digested
      have dctx (t : Bytes) : (d.over t).dctx = d.dctx := rfl
      have coder (t : Bytes) : (d.over t).codec = d.codec := rfl
      have loaded (t : Bytes) : Decoder.loadDict zstd (d.over t) info
          ((r.head ++ r.stored).drop dictPayloadHeader) = (.ok, d'.over t) := by
        rw [List.drop_left' holds.head, Decoder.loadDict, dctx, decode]
        dsimp only
        rw [coder, digested]
        rfl
      rw [if_neg (not_not.mpr verified), understood] at came
      dsimp only at came
      rw [if_neg within'] at came
      have loaded := loaded (rest.take (k - r.bytes.length))
      rw [Decoder.over] at loaded
      rw [loaded] at came
      rw [if_pos complete, behind]
      exact Decoder.blocks_again (d := d.over _) between.done between.going came
    · -- The payload of the record is cut off.
      rw [if_neg complete]
      have came := round (((r.head ++ r.stored) ++ rest).take (k - recordHeaderSize))
      rw [handled, Stream.readExact_whole, if_neg (by rw [List.length_take]; omega)] at came
      exact Decoder.blocks_truncated between.going came

end Records

section Files

variable {zstd : Option CodecVt} {c : Container} {codec : CodecVt} {GoodD : Dctx → Prop}
  {size n : Nat} {xs : Bytes} {h : FileHeader} {d : Decoder}

/-- The sections of a file behind its header. -/
theorem Container.drop_header (c : Container) : c.bytes.drop fileHeaderSize =
    (c.dict.map FileDict.bytes).getD [] ++
      (c.blocks.flatMap FileBlock.bytes ++ (endOfBlocks ++ (c.index ++ fmtFooterStore c.footer))) := by
  -- The header is the front of the file.
  have length : (fmtHeaderStore c.header).length = fileHeaderSize := length_fmtHeaderStore _
  simp only [Container.bytes, Container.body, Container.front, Container.blockBytes,
    List.append_assoc]
  exact List.drop_left' length

theorem Container.length_front (c : Container) :
    c.front.length = fileHeaderSize + ((c.dict.map FileDict.bytes).getD []).length := by
  -- The dictionary record stands behind the header.
  rw [Container.front, List.length_append]
  rfl

/-- How many of some blocks lie within the first `k` bytes of them. -/
def wholeBlocks : List FileBlock → Nat → Nat
  | [], _ => 0
  | b :: rest, k => if b.bytes.length ≤ k then wholeBlocks rest (k - b.bytes.length) + 1 else 0

/-- How many blocks of a file lie within its first `k` bytes. -/
def Container.complete (c : Container) (k : Nat) : Nat := wholeBlocks c.blocks (k - c.front.length)

theorem wholeBlocks_iff {blocks : List FileBlock} {k i : Nat} (inside : i ≤ blocks.length) :
    i ≤ wholeBlocks blocks k ↔ ((blocks.take i).flatMap FileBlock.bytes).length ≤ k := by
  -- The induction is on the blocks: one that does not fit ends the count.
  induction blocks generalizing k i with
  | nil =>
    obtain rfl : i = 0 := Nat.le_zero.mp inside
    simp [wholeBlocks]
  | cons b rest ih =>
    cases i with
    | zero => simp
    | succ i =>
      rw [wholeBlocks, List.take_succ_cons, List.flatMap_cons, List.length_append]
      by_cases fits : b.bytes.length ≤ k
      · rw [if_pos fits, Nat.add_le_add_iff_right, ih (Nat.le_of_succ_le_succ inside)]
        omega
      · rw [if_neg fits]
        omega

/-- A block is complete when the next section begins within the first `k` bytes. -/
theorem Container.complete_iff {k i : Nat} (inside : i ≤ c.blocks.length)
    (front : c.front.length ≤ k) : i ≤ c.complete k ↔ c.position i ≤ k := by
  -- Blocks that are whole are counted as far as the cut.
  rw [Container.complete, wholeBlocks_iff inside, Container.position]
  omega

/-- Where blocks stand that follow one another in the raw bytes. -/
structure BlocksPlaced (codec : CodecVt) (size n : Nat) (raws : List Bytes)
    (blocks : List FileBlock) : Prop where
  offset : ∀ (i : Nat) (b : FileBlock), blocks[i]? = some b →
    b.header.rawOffset.toNat = n + (raws.take i).flatten.length
  sized : ∀ raw ∈ raws, 0 < raw.length ∧ raw.length ≤ size
  room : size ≤ codec.bound size
  within : n + raws.flatten.length < 2 ^ 64

theorem BlocksPlaced.next {raw : Bytes} {raws : List Bytes} {b : FileBlock}
    {blocks : List FileBlock} (placed : BlocksPlaced codec size n (raw :: raws) (b :: blocks)) :
    b.Next h codec size n raw ∧ BlocksPlaced codec size (n + raw.length) raws blocks := by
  -- The first block is where the raw offset says, and the others follow it.
  obtain ⟨⟨some_byte, fits⟩, rest⟩ := List.forall_mem_cons.mp placed.sized
  have within := placed.within
  rw [List.flatten_cons, List.length_append] at within
  refine ⟨⟨placed.offset 0 b rfl, some_byte, fits, placed.room, by omega⟩,
    fun i b' here => ?_, rest, placed.room, by omega⟩
  rw [placed.offset (i + 1) b' here, List.take_succ_cons, List.flatten_cons, List.length_append]
  omega

/-- Blocks, END_OF_BLOCKS and anything behind it, cut off `k` bytes on: the decoder delivers the
blocks that are complete, and reports the cut if it comes before the end. -/
theorem Decoder.Between.blocks {ddict : Option Ddict} {raws : List Bytes} {bs : List FileBlock}
    (hold : List.Forall₂ (FileBlock.Holds zstd h GoodD ddict) raws bs)
    (between : d.Between h codec GoodD size ddict n) (placed : BlocksPlaced codec size n raws bs)
    (rest : Bytes) (k : Nat) :
    Decoder.blocks zstd (d.over ((bs.flatMap FileBlock.bytes ++ (endOfBlocks ++ rest)).take k)) =
      ((raws.take (wholeBlocks bs k)).flatten,
        if (bs.flatMap FileBlock.bytes).length + recordHeaderSize ≤ k then .ok else .truncated) := by
  induction hold generalizing d n k with
  | nil =>
    -- Behind the blocks there is the end of blocks, or what the cut has left of it.
    rw [List.flatMap_nil, List.nil_append, Decoder.blocks_endOfBlocks between.going between.done]
    simp only [wholeBlocks, List.take_nil, List.flatten_nil, List.length_nil, Nat.zero_add]
    split <;> rfl
  | @cons raw b raws bs holds _ ih =>
    obtain ⟨next, placed'⟩ := placed.next (h := h)
    obtain ⟨d', between', goes⟩ := between.block holds next
    rw [List.flatMap_cons, List.append_assoc, goes, List.length_append, wholeBlocks]
    -- The cut comes behind the first block or inside it.
    by_cases complete : b.bytes.length ≤ k
    · rw [if_pos complete, if_pos complete, ih between' placed', List.take_succ_cons,
        List.flatten_cons]
      dsimp only
      refine congrArg (Prod.mk _) (if_congr ?_ rfl rfl)
      omega
    · rw [if_neg complete, if_neg complete, if_neg (by omega)]
      rfl

/-- Blocks of which one is given away by its checksum, and all in front of it hold what they should:
the decoder delivers those in front, and reports the damage. -/
theorem Decoder.Between.blocks_broken {ddict : Option Ddict} {raws : List Bytes}
    {bs : List FileBlock} (kept : List.Forall₂ (FileBlock.Keeps zstd h GoodD ddict) raws bs)
    (between : d.Between h codec GoodD size ddict n) (placed : BlocksPlaced codec size n raws bs)
    {i : Nat} (sound : ∀ b ∈ bs.take i, blockChecksumOk h b.payload b.ck) {b : FileBlock}
    (here : bs[i]? = some b) (broken : ¬ blockChecksumOk h b.payload b.ck) (rest : Bytes) :
    Decoder.blocks zstd (d.over (bs.flatMap FileBlock.bytes ++ rest)) =
      ((raws.take i).flatten, .corruptBlock) := by
  induction kept generalizing d n i with
  | nil => cases here
  | @cons raw b' raws bs keeps _ ih =>
    obtain ⟨next, placed'⟩ := placed.next (h := h)
    rw [List.flatMap_cons, List.append_assoc]
    cases i with
    | zero =>
      -- The damaged block is the first one.
      obtain rfl : b' = b := Option.some.inj here
      exact between.block_broken keeps next broken _
    | succ i =>
      -- The first block is sound, and the damaged one is behind it.
      obtain ⟨first, others⟩ := List.forall_mem_cons.mp sound
      obtain ⟨d', between', goes⟩ := between.block ⟨keeps, first⟩ next
      have whole := goes (bs.flatMap FileBlock.bytes ++ rest)
        (b'.bytes ++ (bs.flatMap FileBlock.bytes ++ rest)).length
      rw [List.take_length, List.length_append, if_pos (Nat.le_add_right _ _),
        Nat.add_sub_cancel_left, List.take_length, ih between' placed' others here] at whole
      rw [whole, List.take_succ_cons, List.flatten_cons]

theorem Container.Keeps.placed {dict : Option XqDict} {ddict : Option Ddict}
    (keeps : c.Keeps zstd codec GoodD size xs dict ddict) :
    BlocksPlaced codec size 0 (allBlocks size xs) c.blocks where
  offset i b here := by
    -- The pieces of what was written lie where the blocks say.
    have inside : i < (allBlocks size xs).length := by
      rw [← keeps.cuts.count]
      exact (List.getElem?_eq_some_iff.mp here).1
    rw [(keeps.cuts.raw i b here).1, List.length_flatten, allBlocks_offset xs inside, Nat.zero_add]
  sized raw member := mem_allBlocks xs member keeps.positive
  room := keeps.bound
  within := by
    rw [allBlocks_flatten, Nat.zero_add]
    exact keeps.short

end Files

end Xq
