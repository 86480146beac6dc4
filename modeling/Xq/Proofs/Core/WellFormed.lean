import Xq.Proofs.Core.EncoderFailures
import Xq.Proofs.Core.Emission
import Xq.Proofs.Format.Bursts
import Xq.Proofs.Format.Index

/-! The shape of a finished file: where its sections stand, what its blocks announce, and what the
index and the footer say about them. -/

namespace Xq

open Lib

section Positions

variable {c : Container}

/-- The bytes of a file from a block on. -/
theorem Container.drop_position (i : Nat) :
    c.bytes.drop (c.position i) = (c.blocks.drop i).flatMap FileBlock.bytes ++ c.tail := by
  have split : c.bytes = (c.front ++ (c.blocks.take i).flatMap FileBlock.bytes) ++
      ((c.blocks.drop i).flatMap FileBlock.bytes ++ c.tail) := by
    rw [Container.bytes_eq, Container.blockBytes, List.append_assoc, List.append_assoc,
      ← List.append_assoc ((c.blocks.take i).flatMap FileBlock.bytes), ← List.flatMap_append,
      List.take_append_drop]
  -- What stands in front of the block is as long as its position.
  have length : (c.front ++ (c.blocks.take i).flatMap FileBlock.bytes).length = c.position i :=
    List.length_append
  rw [split, ← length, List.drop_left]

variable (c) in
/-- The first block follows the front matter. -/
theorem Container.position_zero : c.position 0 = c.front.length := by
  rw [Container.position, List.take_zero, List.flatMap_nil, List.length_nil, Nat.add_zero]

theorem Container.position_succ {i : Nat} {b : FileBlock} (here : c.blocks[i]? = some b) :
    c.position (i + 1) = c.position i + b.bytes.length := by
  -- One more block stands in front.
  obtain ⟨inside, rfl⟩ := List.getElem?_eq_some_iff.mp here
  rw [Container.position, Container.position, List.take_succ_eq_append_getElem inside,
    List.flatMap_append, List.length_append, List.flatMap_singleton, Nat.add_assoc]

/-- The entry of a block. -/
theorem blockEntries_getElem? (position : Nat) (blocks : List FileBlock) (i : Nat) :
    (blockEntries position blocks)[i]? = blocks[i]?.map fun b =>
      { fileOffset :=
          UInt64.ofNat (position + ((blocks.take i).flatMap FileBlock.bytes).length)
        rawOffset := b.header.rawOffset } := by
  -- The induction is on the blocks, with the position behind those before.
  induction blocks generalizing position i with
  | nil => rfl
  | cons first rest ih =>
    cases i with
    | zero => rfl
    | succ i =>
      rw [blockEntries, List.getElem?_cons_succ, ih, List.getElem?_cons_succ, List.take_succ_cons,
        List.flatMap_cons, List.length_append, Nat.add_assoc]

theorem Container.entries_block {i : Nat} {b : FileBlock} (here : c.blocks[i]? = some b) :
    c.entries[i]? = some
      { fileOffset := UInt64.ofNat (c.position i), rawOffset := b.header.rawOffset } := by
  -- The entries of the blocks come first.
  have inside := (List.getElem?_eq_some_iff.mp here).1
  rw [Container.entries, List.getElem?_append_left (by rwa [length_blockEntries]),
    blockEntries_getElem?, here]
  rfl

theorem Container.entries_sentinel :
    c.entries[c.blocks.length]? = some
      { fileOffset := UInt64.ofNat (c.position c.blocks.length),
        rawOffset := UInt64.ofNat c.rawSize } := by
  -- The sentinel comes behind all blocks.
  rw [Container.entries, List.getElem?_append_right (by rw [length_blockEntries]),
    length_blockEntries, Nat.sub_self]
  rfl

/-- Serialised entries read back one by one. -/
theorem indexEntry_store {entries : List IndexEntry} {i : Nat} {entry : IndexEntry}
    (here : entries[i]? = some entry) :
    indexEntry (entries.flatMap fmtIndexEntryStore) i = entry := by
  -- The induction is on the entries, which all have the same size.
  induction entries generalizing i with
  | nil => cases here
  | cons first rest ih =>
    rw [List.flatMap_cons]
    cases i with
    | zero =>
      obtain rfl := Option.some.inj here
      rw [indexEntry, fmtIndexEntryLoad, fmtIndexEntryStore, Nat.zero_mul, List.append_assoc,
        ld64le_st64le, ld64le_skip (length_st64le _) le_rfl, ld64le_st64le]
    | succ i =>
      rw [← ih here, indexEntry, indexEntry, fmtIndexEntryLoad, fmtIndexEntryLoad, Nat.add_mul,
        Nat.one_mul, ld64le_skip (length_fmtIndexEntryStore _) (Nat.le_add_left _ _),
        ld64le_skip (length_fmtIndexEntryStore _) (by omega), Nat.add_sub_cancel,
        Nat.add_right_comm, Nat.add_sub_cancel]

end Positions

section Jobs

variable {e : Encoder} {Good : Cctx → Prop} {block : Bytes} {cctx : Cctx}

theorem length_jobChecksum (checksum : XqChecksum) (payload : Bytes) :
    (jobChecksum checksum payload).length = fmtChecksumSize checksum.id := by
  -- Each kind of checksum has its size.
  cases checksum with
  | none => rfl
  | crc32c => exact length_st32le _
  | xxh64 => exact length_st64le _

/-- What a job is whose compression has not failed: its block as it is, or something shorter that the
codec made of it in a good context. -/
structure Encoder.JobOf (e : Encoder) (Good : Cctx → Prop) (block : Bytes) (j : EncJob) : Prop where
  raw : j.raw = block
  payload : j.stored = true ∨ j.stored = false ∧ j.cbuf.length < block.length ∧
    ∃ cctx, Good cctx ∧
      (e.codec.compress cctx e.cbufCap block e.p.level e.cdict).1 = (.ok, j.cbuf)
  ck : j.ck = jobChecksum e.p.checksum j.payload

theorem compressJob_made (good : Good cctx) (made : (compressJob e block cctx).1.st = .ok) :
    e.JobOf Good block (compressJob e block cctx).1 := by
  unfold compressJob at made ⊢
  rcases answer : e.codec.compress cctx e.cbufCap block e.p.level e.cdict with ⟨⟨st, out⟩, after⟩
  rw [answer] at made
  dsimp only at made ⊢
  by_cases stores : st = .dstTooSmall ∨ (st = .ok ∧ out.length ≥ block.length)
  · -- The block is stored, since compression did not make it smaller.
    rw [if_pos stores]
    dsimp only
    rw [if_pos rfl]
    exact ⟨rfl, .inl rfl, rfl⟩
  · -- Compression made it smaller, or failed.
    rw [if_neg stores] at made ⊢
    dsimp only at made ⊢
    by_cases fine : st = .ok
    · rw [if_pos fine]
      have shorter : out.length < block.length :=
        Nat.not_le.mp fun longer => stores (.inr ⟨fine, longer⟩)
      refine ⟨rfl, .inr ⟨rfl, shorter, cctx, good, ?_⟩, rfl⟩
      rw [answer, fine]
    · rw [if_neg fine] at made
      exact (fine made).elim

theorem Encoder.JobOf.payload_le {j : EncJob} (job : e.JobOf Good block j) :
    j.payload.length ≤ block.length := by
  -- A block is stored as it is, or compressed where that is shorter.
  rw [EncJob.payload]
  rcases job.payload with stored | ⟨packed, shorter, _⟩
  · rw [if_pos stored, job.raw]
  · rw [packed, if_neg (by simp)]
    exact shorter.le

theorem Encoder.fileBlocks_getElem? (e : Encoder) (rawOffset : Nat) (jobs : List EncJob) (i : Nat) :
    (e.fileBlocks rawOffset jobs)[i]? = jobs[i]?.map fun j =>
      e.fileBlock (rawOffset + ((jobs.take i).map fun j => j.raw.length).sum) j := by
  -- The induction is on the jobs, with the raw offset behind those before.
  induction jobs generalizing rawOffset i with
  | nil => rfl
  | cons first rest ih =>
    cases i with
    | zero => rfl
    | succ i =>
      rw [Encoder.fileBlocks, List.getElem?_cons_succ, ih, List.getElem?_cons_succ,
        List.take_succ_cons, List.map_cons, List.sum_cons, Nat.add_assoc]

@[simp] theorem Encoder.length_fileBlocks (e : Encoder) (rawOffset : Nat) (jobs : List EncJob) :
    (e.fileBlocks rawOffset jobs).length = jobs.length := by
  -- The induction is on the jobs.
  induction jobs generalizing rawOffset with
  | nil => rfl
  | cons first rest ih => rw [Encoder.fileBlocks, List.length_cons, List.length_cons, ih]

/-- The jobs of blocks carry them. -/
theorem Encoder.JobOf.raws {blocks : List Bytes} {jobs : List EncJob}
    (made : List.Forall₂ (e.JobOf Good) blocks jobs) : jobs.map EncJob.raw = blocks := by
  -- The induction is on the blocks.
  induction made with
  | nil => rfl
  | cons job _ ih => rw [List.map_cons, job.raw, ih]

end Jobs

section Records

/-- A record header that is stored with its payload verifies. -/
theorem fmtRecordVerify_store (r : RecordHeader) {payload : Bytes}
    (announced : r.size.toNat = payload.length) :
    fmtRecordVerify (fmtRecordStore r payload) payload = .ok := by
  have body : (fmtRecordBody r).length = 10 := rfl
  -- An empty payload adds nothing to the checksum.
  have whole : fmtRecordStore r payload =
      fmtRecordBody r ++ st32le (crc32c (fmtRecordBody r ++ payload)) := by
    rw [fmtRecordStore, announced, List.take_length]
    by_cases empty : r.size ≠ 0
    · rw [if_pos empty]
      exact congrArg (fun crc => fmtRecordBody r ++ st32le crc) (crc32cUpdate_append 0 _ _).symm
    · have nothing : payload = [] := by
        rw [← List.length_eq_zero_iff, ← announced, not_not.mp empty]
        rfl
      rw [if_neg empty, nothing, List.append_nil]
  have size : ld64le (fmtRecordStore r payload) 2 = r.size := by
    rw [whole, fmtRecordBody, List.append_assoc, List.append_assoc,
      ld64le_skip (length_st8 _) (by omega), ld64le_skip (length_st8 _) (by omega), ld64le_st64le]
  have crc : ld32le (fmtRecordStore r payload) 10 = crc32c (fmtRecordBody r ++ payload) := by
    rw [whole, ld32le_skip body le_rfl]
    exact ld32le_st32le_nil _
  rw [fmtRecordVerify_ok_iff, size, crc]
  refine ⟨announced, ?_⟩
  rw [whole, ← body, List.take_left]

theorem fmtIndexPreambleParse_store {ip : IndexPreamble}
    (fits : fmtIndexPayloadSize ip.blockCount ≠ 0) (rest : Bytes) :
    fmtIndexPreambleParse (fmtIndexPreambleStore ip ++ rest) = .ok ip := by
  -- Each field is read back from its place.
  have count : ld64le (fmtIndexPreambleStore ip ++ rest) 0 = ip.blockCount := by
    rw [fmtIndexPreambleStore, List.append_assoc, List.append_assoc, ld64le_st64le]
  have raw : ld64le (fmtIndexPreambleStore ip ++ rest) 8 = ip.totalRaw := by
    rw [fmtIndexPreambleStore, List.append_assoc, List.append_assoc,
      ld64le_skip (length_st64le _) le_rfl, ld64le_st64le]
  have stored : ld64le (fmtIndexPreambleStore ip ++ rest) 16 = ip.totalStored := by
    rw [fmtIndexPreambleStore, List.append_assoc, List.append_assoc,
      ld64le_skip (length_st64le _) (by omega), ld64le_skip (length_st64le _) le_rfl,
      ld64le_st64le]
  have long : ¬ (fmtIndexPreambleStore ip ++ rest).length < indexPreambleSize := by
    rw [List.length_append, length_fmtIndexPreambleStore]
    omega
  rw [fmtIndexPreambleParse, count, raw, stored, if_neg long]
  dsimp only
  rw [if_neg fits]

end Records

section Shape

variable {c : Container} {size : Nat} {xs : Bytes}

/-- What an index record of `header` and `payload` says about the blocks of a file over `xs`. -/
structure Container.Indexes (c : Container) (xs header payload : Bytes) : Prop where
  tag : ld8 header 0 = recIndex
  verified : fmtRecordVerify header payload = .ok
  valid : ∃ ip, fmtIndexPreambleParse payload = .ok ip ∧ ip.blockCount.toNat = c.blocks.length ∧
    fmtIndexValidate ip (payload.drop indexPreambleSize) c.bytes.length = .ok
  entry : ∀ (i : Nat) (b : FileBlock), c.blocks[i]? = some b →
    indexFile (payload.drop indexPreambleSize) i = c.position i ∧
      indexRaw (payload.drop indexPreambleSize) i = b.header.rawOffset.toNat
  sentinel :
    indexFile (payload.drop indexPreambleSize) c.blocks.length = c.position c.blocks.length ∧
      indexRaw (payload.drop indexPreambleSize) c.blocks.length = xs.length

/-- What the blocks of a file announce: `xs`, cut into pieces of `size` bytes. -/
structure Container.Cuts (c : Container) (size : Nat) (xs : Bytes) : Prop where
  count : c.blocks.length = (allBlocks size xs).length
  raw : ∀ (i : Nat) (b : FileBlock), c.blocks[i]? = some b →
    b.header.rawOffset.toNat = i * size ∧ 0 < b.header.rawSize.toNat ∧
      b.header.rawSize.toNat ≤ size ∧ (i + 1 < c.blocks.length → b.header.rawSize.toNat = size) ∧
      b.header.rawOffset.toNat + b.header.rawSize.toNat =
        if i + 1 < c.blocks.length then (i + 1) * size else xs.length
  stored : ∀ (i : Nat) (b : FileBlock), c.blocks[i]? = some b → b.bytes.length =
    blockHeaderSize + b.header.storedSize.toNat + fmtChecksumSize c.header.checksumId

/-- A well-formed file over `xs` in blocks of `size` bytes, by what its bytes say: the blocks follow
one another in the file and in `xs`, and the footer delimits an index record that is about them. -/
structure Container.WellFormed (c : Container) (size : Nat) (xs : Bytes) : Prop where
  cuts : c.Cuts size xs
  placed : ∀ (i : Nat) (b : FileBlock), c.blocks[i]? = some b →
    (c.bytes.drop (c.position i)).take blockHeaderSize = fmtBlockStore b.header ∧
      c.position (i + 1) = c.position i + (blockHeaderSize + b.header.storedSize.toNat +
        fmtChecksumSize c.header.checksumId)
  ended : (c.bytes.drop (c.position c.blocks.length)).take recordHeaderSize = endOfBlocks
  footer : c.bytes.drop (c.bytes.length - footerSize) = fmtFooterStore c.footer
  bare : c.blocks = [] → c.footer.indexOffset = 0 ∧ c.footer.indexSize = 0 ∧
    c.endPosition + footerSize = c.bytes.length
  index : c.blocks ≠ [] → c.footer.indexOffset.toNat = c.endPosition ∧
    c.endPosition + c.footer.indexSize.toNat + footerSize = c.bytes.length ∧
    c.Indexes xs ((c.bytes.drop c.endPosition).take recordHeaderSize)
      ((c.bytes.drop (c.endPosition + recordHeaderSize)).take
        (c.footer.indexSize.toNat - recordHeaderSize))

theorem Container.drop_endPosition :
    c.bytes.drop c.endPosition = c.index ++ fmtFooterStore c.footer := by
  -- The END_OF_BLOCKS record stands behind the last block.
  have rest := c.drop_position c.blocks.length
  rw [List.drop_length, List.flatMap_nil, List.nil_append, Container.tail] at rest
  rw [Container.endPosition, ← List.drop_drop, rest, ← length_endOfBlocks, List.drop_left]

theorem Container.length_bytes :
    c.endPosition + c.index.length + footerSize = c.bytes.length := by
  -- The sections follow each other without gaps.
  have all := c.drop_position 0
  have front := c.position_zero
  have whole : c.position c.blocks.length = c.front.length + c.blockBytes.length := by
    rw [Container.position, List.take_length]
    rfl
  rw [Container.endPosition, whole, Container.bytes_eq, Container.tail]
  simp only [List.length_append, length_endOfBlocks, length_fmtFooterStore]
  omega

theorem Container.position_le_end (i : Nat) : c.position i + recordHeaderSize ≤ c.endPosition := by
  -- The blocks in front of a position are some of all blocks.
  have less : ((c.blocks.take i).flatMap FileBlock.bytes).length ≤
      (c.blocks.flatMap FileBlock.bytes).length :=
    ((List.take_sublist i c.blocks).flatMap FileBlock.bytes).length_le
  rw [Container.endPosition, Container.position, Container.position, List.take_length]
  omega

/-- The index of a file that is not too long says where its blocks are. -/
theorem Container.Cuts.indexes (cuts : c.Cuts size xs) (some_block : c.blocks ≠ [])
    (rawSize : c.rawSize = xs.length) (most : size ≤ blockSizeMax)
    (short : xs.length < 2 ^ 64) (small : c.bytes.length < 2 ^ 64) :
    c.Indexes xs c.indexRecord c.indexPayload := by
  have length := c.length_bytes
  have entrySize : indexEntrySize = 16 := rfl
  have payload := c.length_indexPayload
  rw [entrySize] at payload
  have index : c.index = c.indexRecord ++ c.indexPayload := if_neg some_block
  have record : c.indexRecord.length = recordHeaderSize := length_fmtRecordStore _ _
  have room : c.index.length = recordHeaderSize + c.indexPayload.length := by
    rw [index, List.length_append, record]
  have count : (UInt64.ofNat c.blocks.length).toNat = c.blocks.length :=
    UInt64.toNat_ofNat_of_lt' (show _ < 2 ^ 64 by omega)
  have position (i : Nat) : (UInt64.ofNat (c.position i)).toNat = c.position i :=
    UInt64.toNat_ofNat_of_lt' (show _ < 2 ^ 64 by have := c.position_le_end i; omega)
  have entries : c.indexPayload.drop indexPreambleSize = c.entries.flatMap fmtIndexEntryStore := by
    rw [Container.indexPayload, ← length_fmtIndexPreambleStore c.preamble, List.drop_left]
  -- Every entry, and the sentinel, reads back.
  have entry (i : Nat) (b : FileBlock) (here : c.blocks[i]? = some b) :
      indexFile (c.indexPayload.drop indexPreambleSize) i = c.position i ∧
        indexRaw (c.indexPayload.drop indexPreambleSize) i = b.header.rawOffset.toNat := by
    rw [entries, indexFile, indexRaw, indexEntry_store (Container.entries_block here)]
    exact ⟨position i, rfl⟩
  have sentinel : indexFile (c.indexPayload.drop indexPreambleSize) c.blocks.length =
      c.position c.blocks.length ∧
        indexRaw (c.indexPayload.drop indexPreambleSize) c.blocks.length = xs.length := by
    rw [entries, indexFile, indexRaw, indexEntry_store Container.entries_sentinel, rawSize]
    exact ⟨position _, UInt64.toNat_ofNat_of_lt' short⟩
  -- Behind a block comes the next one, or the end.
  have next (i : Nat) (inside : i < c.blocks.length) : ∃ b, c.blocks[i]? = some b ∧
      indexFile (c.indexPayload.drop indexPreambleSize) (i + 1) = c.position (i + 1) ∧
      indexRaw (c.indexPayload.drop indexPreambleSize) (i + 1) =
        b.header.rawOffset.toNat + b.header.rawSize.toNat := by
    have here : c.blocks[i]? = some c.blocks[i] := List.getElem?_eq_getElem inside
    obtain ⟨_, _, _, _, ends⟩ := cuts.raw i _ here
    refine ⟨_, here, ?_⟩
    rw [ends]
    rcases Nat.lt_or_ge (i + 1) c.blocks.length with more | last
    · have there : c.blocks[i + 1]? = some c.blocks[i + 1] := List.getElem?_eq_getElem more
      rw [if_pos more, ← (cuts.raw _ _ there).1]
      exact entry _ _ there
    · rw [if_neg (Nat.not_lt.mpr last), show i + 1 = c.blocks.length by omega]
      exact sentinel
  refine ⟨rfl, ?_, ⟨c.preamble, ?_, count, ?_⟩, entry, sentinel⟩
  · exact fmtRecordVerify_store _ (UInt64.toNat_ofNat_of_lt' (show _ < 2 ^ 64 by omega))
  · exact fmtIndexPreambleParse_store (fmtIndexPayloadSize_fits (by rw [entrySize]; omega)) _
  · -- The entries pass each test of the index, since the blocks lie as it says.
    have first : 0 < c.blocks.length := List.length_pos_iff.mpr some_block
    refine fmtIndexValidate_of_valid ⟨?_, ?_, ?_, fun i inside => ?_, fun i inside => ?_,
      fun i inside => ?_, fun _ i inside => ?_, ?_⟩
    · exact count.symm ▸ first
    · rw [(entry 0 _ (List.getElem?_eq_getElem first)).1, Container.position, Container.front]
      simp only [List.length_append, length_fmtHeaderStore]
      omega
    · rw [(entry 0 _ (List.getElem?_eq_getElem first)).2,
        (cuts.raw 0 _ (List.getElem?_eq_getElem first)).1, Nat.zero_mul]
    · obtain ⟨b, here, _, ends⟩ := next i (count ▸ inside)
      obtain ⟨_, some_byte, _⟩ := cuts.raw i b here
      rw [ends, (entry i b here).2]
      omega
    · obtain ⟨b, here, _, ends⟩ := next i (count ▸ inside)
      obtain ⟨_, _, bounded, _⟩ := cuts.raw i b here
      rw [ends, (entry i b here).2]
      omega
    · obtain ⟨b, here, ends, _⟩ := next i (count ▸ inside)
      rw [ends, (entry i b here).1, Container.position_succ here, cuts.stored i b here]
      omega
    · obtain ⟨_, _, ends, _⟩ := next i (count ▸ inside)
      rw [ends]
      have := c.position_le_end (i + 1)
      omega
    · rw [show c.preamble.blockCount.toNat = c.blocks.length from count, sentinel.2, ← rawSize]
      exact (UInt64.toNat_ofNat_of_lt' (rawSize ▸ short)).symm

/-- A file whose blocks are pieces of `xs`, and that is not too long, is well formed. -/
theorem Container.Cuts.wellFormed (cuts : c.Cuts size xs) (rawSize : c.rawSize = xs.length)
    (most : size ≤ blockSizeMax) (short : xs.length < 2 ^ 64) (small : c.bytes.length < 2 ^ 64) :
    c.WellFormed size xs := by
  have length := c.length_bytes
  have behind := Container.drop_endPosition (c := c)
  have footer : c.bytes.drop (c.bytes.length - footerSize) = fmtFooterStore c.footer := by
    rw [show c.bytes.length - footerSize = c.endPosition + c.index.length by omega,
      ← List.drop_drop, behind, List.drop_left]
  refine ⟨cuts, fun i b here => ⟨?_, ?_⟩, ?_, footer, fun none => ?_, fun some_block => ?_⟩
  · obtain ⟨inside, rfl⟩ := List.getElem?_eq_some_iff.mp here
    rw [Container.drop_position, List.drop_eq_getElem_cons inside, List.flatMap_cons,
      FileBlock.bytes, List.append_assoc, List.append_assoc,
      ← length_fmtBlockStore c.blocks[i].header, List.append_assoc, List.take_left]
  · rw [Container.position_succ here, cuts.stored i b here]
  · rw [Container.drop_position, List.drop_length, List.flatMap_nil, List.nil_append,
      Container.tail, ← length_endOfBlocks, List.take_left]
  · -- Without blocks the footer follows at once.
    have empty : c.index = [] := if_pos none
    rw [empty, List.length_nil, Nat.add_zero] at length
    refine ⟨if_pos none, ?_, length⟩
    show UInt64.ofNat c.index.length = 0
    rw [empty]
    rfl
  · -- With blocks the index stands in between.
    have index : c.index = c.indexRecord ++ c.indexPayload := if_neg some_block
    have record : c.indexRecord.length = recordHeaderSize := length_fmtRecordStore _ _
    have offset : c.footer.indexOffset.toNat = c.endPosition := by
      rw [Container.footer, if_neg some_block]
      exact UInt64.toNat_ofNat_of_lt' (show _ < 2 ^ 64 by omega)
    have extent : c.footer.indexSize.toNat = c.index.length :=
      UInt64.toNat_ofNat_of_lt' (show _ < 2 ^ 64 by omega)
    have room : c.index.length - recordHeaderSize = c.indexPayload.length := by
      rw [index, List.length_append, record, Nat.add_sub_cancel_left]
    have payload : c.bytes.drop (c.endPosition + recordHeaderSize) =
        c.indexPayload ++ fmtFooterStore c.footer := by
      rw [← List.drop_drop, behind, index, List.append_assoc, ← record, List.drop_left]
    refine ⟨offset, by rw [extent, length], ?_⟩
    have header : (c.bytes.drop c.endPosition).take recordHeaderSize = c.indexRecord := by
      rw [behind, index, List.append_assoc, ← record, List.take_left]
    rw [header, payload, extent, room, List.take_left]
    exact cuts.indexes some_block rawSize most short small

end Shape

section Finished

variable {zstd : Option CodecVt} {sink : Nat → Bytes → Bytes → XqStatus} {p : XqParams}
  {rawSizeHint : UInt64} {e e' : Encoder} {record : Option FileDict} {Good : Cctx → Prop} {xs : Bytes}

/-- The blocks of accepted parameters are neither empty nor too large. -/
theorem Encoder.Created.blockSize_bounds (fresh : e.Created zstd sink p rawSizeHint record) :
    0 < e.blockSize ∧ e.blockSize ≤ blockSizeMax := by
  -- The size is a power of two within the limits of the parameters.
  obtain ⟨_, _, _, _, k, _, most, power⟩ := paramsCheck_ok fresh.accepted
  have bound : blockSizeMax = 2 ^ 28 := rfl
  rw [fresh.blockSize, power, bound]
  exact ⟨Nat.two_pow_pos k, Nat.pow_le_pow_right (by omega) most⟩

/-- The jobs of the blocks of `xs` make a container that cuts it. -/
theorem Encoder.Created.cuts (fresh : e.Created zstd sink p rawSizeHint record)
    {jobs : List EncJob} (made : List.Forall₂ (e.JobOf Good) (allBlocks e.blockSize xs) jobs)
    (short : xs.length < 2 ^ 64) :
    (e.container rawSizeHint record jobs).Cuts e.blockSize xs ∧
      (e.container rawSizeHint record jobs).rawSize = xs.length := by
  obtain ⟨positive, most⟩ := fresh.blockSize_bounds
  have bound : blockSizeMax = 2 ^ 28 := rfl
  have raws := Encoder.JobOf.raws made
  have lengths (js : List EncJob) :
      js.map (fun j => j.raw.length) = (js.map EncJob.raw).map List.length :=
    List.map_map.symm
  have count : (e.container rawSizeHint record jobs).blocks.length =
      (allBlocks e.blockSize xs).length :=
    (Encoder.length_fileBlocks e 0 jobs).trans made.length_eq.symm
  -- A block of the container is the job of a block of `xs`.
  have job (i : Nat) (b : FileBlock)
      (here : (e.container rawSizeHint record jobs).blocks[i]? = some b) :
      ∃ (inside : i < (allBlocks e.blockSize xs).length) (j : EncJob),
        e.JobOf Good (allBlocks e.blockSize xs)[i] j ∧ b = e.fileBlock (i * e.blockSize) j := by
    have there : (e.fileBlocks 0 jobs)[i]? = some b := here
    rw [Encoder.fileBlocks_getElem?] at there
    obtain ⟨j, at_i, rfl⟩ := Option.map_eq_some_iff.mp there
    obtain ⟨within, rfl⟩ := List.getElem?_eq_some_iff.mp at_i
    have inside : i < (allBlocks e.blockSize xs).length := by rwa [made.length_eq]
    refine ⟨inside, _, (List.forall₂_iff_get.mp made).2 i inside within, ?_⟩
    rw [lengths, List.map_take, raws, allBlocks_offset xs inside, Nat.zero_add]
    rfl
  refine ⟨⟨count, fun i b here => ?_, fun i b here => ?_⟩, ?_⟩
  · obtain ⟨inside, j, of, rfl⟩ := job i b here
    obtain ⟨some_byte, bounded⟩ :=
      mem_allBlocks xs (List.getElem_mem inside) positive
    have ends := allBlocks_ends xs inside
    have within := allBlocks_within xs inside
    have rawSize : (UInt32.ofNat j.raw.length).toNat = (allBlocks e.blockSize xs)[i].length := by
      rw [of.raw]
      exact UInt32.toNat_ofNat_of_lt' (show _ < 2 ^ 32 by omega)
    have rawOffset : (UInt64.ofNat (i * e.blockSize)).toNat = i * e.blockSize :=
      UInt64.toNat_ofNat_of_lt' (show _ < 2 ^ 64 by omega)
    show (UInt64.ofNat (i * e.blockSize)).toNat = _ ∧ 0 < (UInt32.ofNat j.raw.length).toNat ∧
      (UInt32.ofNat j.raw.length).toNat ≤ _ ∧ (_ → (UInt32.ofNat j.raw.length).toNat = _) ∧
        (UInt64.ofNat (i * e.blockSize)).toNat + (UInt32.ofNat j.raw.length).toNat = _
    rw [rawSize, rawOffset, ends, count]
    exact ⟨rfl, some_byte, bounded, fun more => allBlocks_getElem_length xs more, rfl⟩
  · obtain ⟨inside, j, of, rfl⟩ := job i b here
    have bounded := (mem_allBlocks xs (List.getElem_mem inside) positive).2
    have payload := of.payload_le
    have storedSize : (UInt32.ofNat j.payload.length).toNat = j.payload.length :=
      UInt32.toNat_ofNat_of_lt' (show _ < 2 ^ 32 by omega)
    have ck : (e.fileBlock (i * e.blockSize) j).ck.length = fmtChecksumSize e.p.checksum.id := by
      rw [Encoder.fileBlock, fresh.checksumLen, ← fresh.params]
      dsimp only
      split
      · rw [of.ck, length_jobChecksum]
      · rename_i none
        rw [not_not.mp none]
        rfl
    rw [FileBlock.bytes, List.length_append, List.length_append, length_fmtBlockStore, ck]
    show blockHeaderSize + j.payload.length + _ =
      blockHeaderSize + (UInt32.ofNat j.payload.length).toNat + _
    rw [storedSize]
    rfl
  · show (jobs.map fun j => j.raw.length).sum = xs.length
    rw [lengths, raws, ← List.length_flatten, allBlocks_flatten]

/-- A job is that of its block, unless its compression failed. -/
def Encoder.MadeOf (e : Encoder) (Good : Cctx → Prop) (block : Bytes) (j : EncJob) : Prop :=
  j.st = .ok → e.JobOf Good block j

theorem Encoder.compresses_madeOf
    (keeps : ∀ cctx block, Good cctx → Good (compressJob e block cctx).2) :
    e.Compresses Good (e.MadeOf Good) :=
  fun cctx block good => ⟨compressJob_made good, keeps cctx block good⟩

theorem Encoder.MadeOf.all {blocks : List Bytes} {jobs : List EncJob}
    (made : List.Forall₂ (e.MadeOf Good) blocks jobs) (fine : ∀ j ∈ jobs, j.st = .ok) :
    List.Forall₂ (e.JobOf Good) blocks jobs := by
  -- The induction is on the blocks.
  induction made with
  | nil => exact .nil
  | cons here _ ih =>
    obtain ⟨one, rest⟩ := List.forall_mem_cons.mp fine
    exact .cons (here one) (ih rest)

/-- A run that has ended with success has emitted a container of the jobs of its blocks. -/
theorem Encoder.Ended.container (fresh : e.Created zstd sink p rawSizeHint record)
    (ended : e.Ended (e.MadeOf Good) xs e') :
    ∃ jobs, List.Forall₂ (e.JobOf Good) (allBlocks e.blockSize xs) jobs ∧
      e'.out = (e.container rawSizeHint record jobs).bytes := by
  -- All jobs were fed, and each was made.
  obtain ⟨jobs, e₁, made, fed, tail⟩ := ended.ran
  have ran : andThen (Encoder.feed jobs e.settled) Encoder.finishTail = (.ok, e'.settled) := by
    rw [fed, andThen_ok, tail]
  obtain ⟨out, _, fine, _⟩ := fresh.settled.whole ran
  rw [Encoder.container_settled] at out
  exact ⟨jobs, Encoder.MadeOf.all made fine, out⟩

/-- Not all calls of a client that finishes succeed while a failure is reported. -/
theorem StickyReports.not_all_ok {issued : List EncCall} {results : List XqStatus}
    {sticky : XqStatus} (finishes : EncCall.finish ∈ issued)
    (fine : results = List.replicate issued.length .ok) :
    ¬ StickyReports issued results sticky := by
  rintro ⟨pieces, later, m, issues, told, broken⟩
  have length := congrArg List.length (told.symm.trans fine)
  rw [issues] at length
  simp only [List.length_append, List.length_replicate, List.length_map] at length
  rcases Nat.eq_zero_or_pos m with rfl | some_report
  · -- Then all the calls write.
    have nothing : later = [] := List.length_eq_zero_iff.mp (by omega)
    rw [issues, nothing, List.append_nil] at finishes
    obtain ⟨_, _, wrong⟩ := List.mem_map.mp finishes
    cases wrong
  · have member : sticky ∈ results := by
      rw [told]
      refine List.mem_append_right _ (List.mem_replicate.mpr ⟨?_, rfl⟩)
      omega
    rw [fine] at member
    exact broken some_report (List.eq_of_mem_replicate member)

/--
Whatever a client writes, in whichever pieces and with any number of threads: once all its calls have
succeeded, the last of them the one that finishes, a well-formed file has been emitted.

The offsets in a file have 64 bits, so neither the file nor what it holds may be longer.
-/
theorem finished_wellFormed {m : Machine} {dict : Option XqDict}
    (created : encoderCreate zstd m sink p rawSizeHint dict = .ok e) {issued : List EncCall}
    (no_free : .free ∉ issued) (finishes : .finish ∈ issued) {results : List XqStatus}
    {broken : Prop} (run : e.Run (fun _ => True) issued results e' broken)
    (fine : results = List.replicate issued.length .ok)
    (short : (writtenBy issued).length < 2 ^ 64) (small : e'.out.length < 2 ^ 64) :
    ∃ c : Container, e'.out = c.bytes ∧ c.header = e.fileHeader rawSizeHint ∧
      c.dict.isSome = e.dict.isSome ∧ c.WellFormed e.blockSize (writtenBy issued) := by
  obtain ⟨record, fresh⟩ := encoderCreate_ok created
  obtain ⟨_, reports | ⟨ended, _⟩⟩ := run.outcome fresh
    (Encoder.compresses_madeOf fun _ _ _ => trivial) trivial no_free
  · exact (StickyReports.not_all_ok finishes fine reports).elim
  obtain ⟨jobs, made, out⟩ := ended.container fresh
  obtain ⟨cuts, rawSize⟩ := fresh.cuts made short
  refine ⟨_, out, rfl, ?_, cuts.wellFormed rawSize fresh.blockSize_bounds.2 short (out ▸ small)⟩
  -- The file has a dictionary where the encoder has one.
  have dict := fresh.dict
  show record.isSome = e.dict.isSome
  generalize e.dict = d at dict
  cases dict with
  | none => rfl
  | some _ _ _ => rfl

/-- An encoder that has taken two blocks and finished. -/
theorem twoBlocks_run : ∃ e,
    encoderCreate none openMachine (fun _ _ _ => .ok) smallParams 4099 none = .ok e ∧
      e.dict = none ∧ e.blockSize = 4096 ∧
      (e.answers [.write twoBlocks, .finish]).1 = [.ok, .ok] ∧
      (e.answers [.write twoBlocks, .finish]).2.out.length = 4319 := by
  -- The run is evaluated as far as its results and the length of the file.
  have ran : (encoderCreate none openMachine (fun _ _ _ => .ok) smallParams 4099 none).toOption.map
      (fun e => (e.dict, e.blockSize, (e.answers [.write twoBlocks, .finish]).1,
        (e.answers [.write twoBlocks, .finish]).2.out.length)) =
      some (none, 4096, [.ok, .ok], 4319) := by
    decide +kernel
  cases created : encoderCreate none openMachine (fun _ _ _ => .ok) smallParams 4099 none with
  | error failed =>
    rw [created] at ran
    cases ran
  | ok e =>
    rw [created] at ran
    obtain ⟨no_dict, ran⟩ := Prod.mk.inj (Option.some.inj ran)
    obtain ⟨size, ran⟩ := Prod.mk.inj ran
    obtain ⟨results, length⟩ := Prod.mk.inj ran
    exact ⟨e, rfl, no_dict, size, results, length⟩

theorem twoBlocks_written : writtenBy [.write twoBlocks, .finish] = twoBlocks :=
  List.append_nil _

/-- The calls of such a client. -/
theorem twoBlocks_calls : EncCall.free ∉ [.write twoBlocks, .finish] ∧
    EncCall.finish ∈ [EncCall.write twoBlocks, .finish] := by simp

theorem twoBlocks_length : twoBlocks.length = 4099 := by decide +kernel

/-- Two blocks in one piece. -/
theorem finished_wellFormed_two : ∃ e,
    encoderCreate none openMachine (fun _ _ _ => .ok) smallParams 4099 none = .ok e ∧
      ∃ c : Container, (e.answers [.write twoBlocks, .finish]).2.out = c.bytes ∧
        c.header = e.fileHeader 4099 ∧ c.dict.isSome = e.dict.isSome ∧
        c.WellFormed e.blockSize twoBlocks := by
  -- The run of two blocks succeeds.
  obtain ⟨e, created, _, _, results, length⟩ := twoBlocks_run
  obtain ⟨no_free, finishes⟩ := twoBlocks_calls
  have formed := finished_wellFormed created no_free finishes (.single 2) results
    (by rw [twoBlocks_written, twoBlocks_length]; decide) (length.trans_lt (by decide))
  rw [twoBlocks_written] at formed
  exact ⟨e, created, formed⟩

end Finished

end Xq
