import Xq.Proofs.Core.FileReading
import Xq.Proofs.Core.RoundTrip
import Xq.Proofs.Format.Bursts

/-! Damage behind the headers of any blocks of a finished file, as far as the checksums show it: a
verify counts the damaged blocks, random access fails only on them, and the sequential decoder delivers
what lies in front of the first. -/

namespace Xq

open Lib

/-- A block before and after damage to its payload or to its checksum: nothing has changed, or the
checksum shows it. -/
structure FileBlock.Damaged (h : FileHeader) (b b' : FileBlock) : Prop where
  header : b'.header = b.header
  payload : b'.payload.length = b.payload.length
  ck : b'.ck.length = b.ck.length
  shows : b' = b ∨ ¬ blockChecksumOk h b'.payload b'.ck

/-- A file before and after damage to some of its blocks. -/
structure Container.Damaged (c c' : Container) : Prop where
  others : c' = { c with blocks := c'.blocks }
  blocks : List.Forall₂ (FileBlock.Damaged c.header) c.blocks c'.blocks

/-- Up to four bytes in a row under CRC-32C are damage that shows. -/
theorem FileBlock.damaged_of_burst {h : FileHeader} (crc : h.checksumId = 1) {b : FileBlock}
    (sealed : blockChecksumOk h b.payload b.ck) {payload : Bytes}
    (burst : Burst 4 b.payload payload) : b.Damaged h { b with payload := payload } := by
  -- The checksum is still the one of the payload that was there.
  have some_checksum : fmtChecksumSize h.checksumId ≠ 0 := by
    rw [crc]
    decide
  have ok (p : Bytes) : blockChecksumOk h p b.ck ↔ ld32le b.ck 0 = crc32c p := by
    rw [blockChecksumOk, payloadChecksumOk, if_pos crc, decide_eq_false some_checksum,
      Bool.false_or, decide_eq_true_iff]
  refine ⟨rfl, burst.length.symm, rfl, .inr fun sealed' => crc32c_burst burst ?_⟩
  rw [← (ok b.payload).mp sealed, ← (ok payload).mp sealed']

section Layout

variable {zstd : Option CodecVt} {c c' : Container} {codec : CodecVt} {GoodD : Dctx → Prop}
  {size : Nat} {xs : Bytes} {dict : Option XqDict} {ddict : Option Ddict} {h : FileHeader}
  {bs bs' : List FileBlock}

/-- Damage to one block of a file. -/
theorem Container.damaged_of_block {i : Nat} {b b' : FileBlock} (here : c.blocks[i]? = some b)
    (damaged : b.Damaged c.header b') : c.Damaged { c with blocks := c.blocks.set i b' } := by
  -- All the other blocks are damaged in the trivial way, by staying the same.
  obtain ⟨inside, rfl⟩ := List.getElem?_eq_some_iff.mp here
  refine ⟨rfl, List.forall₂_iff_get.mpr ⟨List.length_set.symm, fun j within within' => ?_⟩⟩
  rw [List.get_eq_getElem, List.get_eq_getElem, List.getElem_set]
  split
  · rename_i same
    subst same
    exact damaged
  · exact ⟨rfl, rfl, rfl, .inl rfl⟩

theorem Container.damaged_of_burst (crc : c.header.checksumId = 1)
    (sealed : ∀ b ∈ c.blocks, blockChecksumOk c.header b.payload b.ck) {i : Nat} {b : FileBlock}
    (here : c.blocks[i]? = some b) {payload : Bytes} (burst : Burst 4 b.payload payload) :
    c.Damaged { c with blocks := c.blocks.set i { b with payload := payload } } :=
  c.damaged_of_block here
    (FileBlock.damaged_of_burst crc (sealed b (List.mem_of_getElem? here)) burst)

theorem FileBlock.Damaged.length_bytes {b b' : FileBlock} (damaged : b.Damaged h b') :
    b'.bytes.length = b.bytes.length := by
  simp only [FileBlock.bytes, List.length_append, damaged.header, damaged.payload, damaged.ck]

/-- Damage moves nothing. -/
theorem blocks_damaged (damaged : List.Forall₂ (FileBlock.Damaged h) bs bs') (position : Nat) :
    (bs'.flatMap FileBlock.bytes).length = (bs.flatMap FileBlock.bytes).length ∧
      blockEntries position bs' = blockEntries position bs := by
  -- The induction is on the blocks: each keeps its header and its length.
  induction damaged generalizing position with
  | nil => exact ⟨rfl, rfl⟩
  | @cons b b' bs bs' here _ ih =>
    have length := here.length_bytes
    obtain ⟨lengths, entries⟩ := ih (position + b.bytes.length)
    refine ⟨?_, ?_⟩
    · rw [List.flatMap_cons, List.flatMap_cons, List.length_append, List.length_append, length,
        lengths]
    · rw [blockEntries, blockEntries, here.header, length, entries]

theorem Container.Damaged.block (damaged : c.Damaged c') {i : Nat} {b' : FileBlock}
    (here : c'.blocks[i]? = some b') :
    ∃ b, c.blocks[i]? = some b ∧ b.Damaged c.header b' := by
  -- Both lists have the same length.
  obtain ⟨inside, rfl⟩ := List.getElem?_eq_some_iff.mp here
  have inside' : i < c.blocks.length := by rwa [damaged.blocks.length_eq]
  exact ⟨_, List.getElem?_eq_getElem inside',
    (List.forall₂_iff_get.mp damaged.blocks).2 i inside' inside⟩

/-- Of blocks that were sound, the damaged ones are those that no longer are. -/
theorem Container.Damaged.soundAt (damaged : c.Damaged c') (size p : Nat)
    (sealed : ∀ b ∈ c.blocks, blockChecksumOk c.header b.payload b.ck) {b b' : FileBlock}
    (here : c.blocks[p / size]? = some b) (here' : c'.blocks[p / size]? = some b') :
    c'.soundAt size p ↔ b' = b := by
  obtain ⟨b₀, there, change⟩ := damaged.block here'
  obtain rfl := Option.some.inj (here.symm.trans there)
  have header : c'.header = c.header := by rw [damaged.others]
  rw [Container.soundAt, here', Option.all_some, header]
  refine ⟨fun sound => change.shows.resolve_right (not_not.mpr sound), fun same => ?_⟩
  rw [same]
  exact sealed b (List.mem_of_getElem? here)

/-- The sections around the blocks are what they were. -/
theorem Container.Damaged.same (damaged : c.Damaged c') :
    c'.header = c.header ∧ c'.indexPayload = c.indexPayload ∧ c'.footer = c.footer ∧
      c'.bytes.length = c.bytes.length := by
  obtain ⟨others, blocks⟩ := damaged
  obtain ⟨header, record, bs', rawSize, streamChecksum⟩ := c'
  cases others
  have count : bs'.length = c.blocks.length := blocks.length_eq.symm
  -- The number of blocks and their lengths are what they were.
  have none_iff : bs' = [] ↔ c.blocks = [] := by
    rw [← List.length_eq_zero_iff, ← List.length_eq_zero_iff, count]
  have lengths (position : Nat) := blocks_damaged blocks position
  have position : ({ c with blocks := bs' } : Container).position bs'.length =
      c.position c.blocks.length := by
    rw [Container.position, Container.position, List.take_length, List.take_length, (lengths 0).1]
    rfl
  have ended : ({ c with blocks := bs' } : Container).endPosition = c.endPosition :=
    congrArg (· + recordHeaderSize) position
  have entries : ({ c with blocks := bs' } : Container).entries = c.entries := by
    show blockEntries c.front.length bs' ++ _ = _
    rw [(lengths _).2]
    rw [position]
    rfl
  have payload : ({ c with blocks := bs' } : Container).indexPayload = c.indexPayload := by
    rw [Container.indexPayload, Container.indexPayload, entries, Container.preamble,
      Container.preamble, ended]
    dsimp only
    rw [count]
  -- So the index lists the same places, and the footer points at it.
  have index : ({ c with blocks := bs' } : Container).index = c.index := by
    simp only [Container.index, Container.indexRecord, payload, none_iff]
  have footer : ({ c with blocks := bs' } : Container).footer = c.footer := by
    simp only [Container.footer, ended, index, none_iff]
  refine ⟨rfl, payload, footer, ?_⟩
  rw [← Container.length_bytes, ← Container.length_bytes, ended, index]

theorem Container.Damaged.tail (damaged : c.Damaged c') : c'.tail = c.tail := by
  -- The tail depends on the blocks only through whether there are any.
  have none_iff : c'.blocks = [] ↔ c.blocks = [] := by
    rw [← List.length_eq_zero_iff, ← damaged.blocks.length_eq, List.length_eq_zero_iff]
  obtain ⟨_, payload, footer, _⟩ := damaged.same
  rw [Container.tail, Container.tail, footer]
  simp only [Container.index, Container.indexRecord, payload, none_iff]

/-- What stands in front of a block's payload and behind its checksum stays there, whatever damage is
done to these two. -/
theorem Container.bytes_around {i : Nat} {b : FileBlock} (here : c.blocks[i]? = some b) :
    ∃ before after : Bytes, before.length = c.position i + blockHeaderSize ∧
      c.bytes = before ++ (b.payload ++ b.ck ++ after) ∧
      ∀ b', b'.header = b.header → c.Damaged { c with blocks := c.blocks.set i b' } →
        ({ c with blocks := c.blocks.set i b' } : Container).bytes =
          before ++ (b'.payload ++ b'.ck ++ after) := by
  obtain ⟨inside, rfl⟩ := List.getElem?_eq_some_iff.mp here
  -- The blocks in front and the header of this one; the blocks behind it and the rest of the file.
  refine ⟨c.front ++ (c.blocks.take i).flatMap FileBlock.bytes ++ fmtBlockStore (c.blocks[i]).header,
    (c.blocks.drop (i + 1)).flatMap FileBlock.bytes ++ c.tail, ?_, ?_, ?_⟩
  · rw [List.length_append, List.length_append, length_fmtBlockStore]
    rfl
  · have split : c.blockBytes = (c.blocks.take i).flatMap FileBlock.bytes ++
        ((c.blocks[i]).bytes ++ (c.blocks.drop (i + 1)).flatMap FileBlock.bytes) := by
      rw [← List.flatMap_cons, List.cons_getElem_drop_succ, ← List.flatMap_append,
        List.take_append_drop]
      rfl
    rw [Container.bytes_eq, split, FileBlock.bytes]
    simp only [List.append_assoc]
  · intro b' same damaged
    rw [Container.bytes_eq, damaged.tail, Container.blockBytes, List.set_eq_take_append_cons_drop,
      if_pos inside, List.flatMap_append, List.flatMap_cons]
    simp only [FileBlock.bytes, Container.front, List.append_assoc, same]

/-- A damaged file is still one over the same bytes. -/
theorem Container.Damaged.keeps (damaged : c.Damaged c')
    (holds : c.Holds zstd codec GoodD size xs dict ddict) :
    c'.Keeps zstd codec GoodD size xs dict ddict := by
  have count : c'.blocks.length = c.blocks.length := damaged.blocks.length_eq.symm
  obtain ⟨header, _⟩ := damaged.same
  have rawSize : c'.rawSize = c.rawSize := by rw [damaged.others]
  have record : c'.dict = c.dict := by rw [damaged.others]
  have streamChecksum : c'.streamChecksum = c.streamChecksum := by rw [damaged.others]
  refine
    { header := by rw [header]; exact holds.header
      headerSize := by rw [header]; exact holds.headerSize
      found := by rw [header]; exact holds.found
      blockSize := by rw [header]; exact holds.blockSize
      positive := holds.positive, most := holds.most, bound := holds.bound, dctx := holds.dctx
      flagged := by rw [header]; exact holds.flagged
      dict := by rw [record]; exact holds.dict
      short := holds.short
      cuts := ⟨by rw [count, holds.cuts.count], fun i b' here => ?_, fun i b' here => ?_⟩
      rawSize := rawSize.trans holds.rawSize
      streamChecksum := by rw [streamChecksum, header, holds.streamChecksum]
      kept := ?_ }
  · obtain ⟨b, there, change⟩ := damaged.block here
    rw [count, change.header]
    exact holds.cuts.raw i b there
  · obtain ⟨b, there, change⟩ := damaged.block here
    rw [change.length_bytes, change.header, header]
    exact holds.cuts.stored i b there
  · -- A block that has changed does not pass its checksum.
    rw [header, List.forall₂_iff_get]
    refine ⟨by rw [count, holds.cuts.count], fun i inside inside' => ?_⟩
    obtain ⟨b, there, change⟩ := damaged.block (List.getElem?_eq_getElem inside')
    have kept : b.Keeps zstd c.header GoodD ddict (allBlocks size xs)[i] := by
      obtain ⟨within, rfl⟩ := List.getElem?_eq_some_iff.mp there
      exact (List.forall₂_iff_get.mp holds.kept).2 i inside within
    show (c'.blocks[i]).Keeps zstd c.header GoodD ddict _
    rcases change.shows with same | shows
    · rw [same]
      exact kept
    · exact
        { valid := by rw [change.header]; exact kept.valid
          rawSize := by rw [change.header]; exact kept.rawSize
          storedSize := by rw [change.header, change.payload]; exact kept.storedSize
          shrinks := by rw [change.payload]; exact kept.shrinks
          ck := by rw [change.ck]; exact kept.ck
          decodes := fun sealed => (shows sealed).elim }

theorem Container.Damaged.openable (damaged : c.Damaged c') (openable : c.Openable xs) :
    c'.Openable xs := by
  -- Each field speaks of a part that the damage leaves alone.
  obtain ⟨header, payload, _, length⟩ := damaged.same
  exact
    { some_byte := openable.some_byte
      small := by rw [length]; exact openable.small
      index := by rw [payload]; exact openable.index
      hint := by rw [header]; exact openable.hint }

end Layout

section Verify

variable {zstd : Option CodecVt} {c : Container} {size : Nat} {xs : Bytes} {r : Reader}

/-- How many bytes of the stream the sound ones of some blocks hold. -/
def Container.soundBytes (c : Container) (size : Nat) (xs : Bytes) (blocks : List Nat) : Nat :=
  ((blocks.filter fun i => c.soundAt size (i * size)).map fun i =>
    min size (xs.length - i * size)).sum

/-- The first of some blocks that its checksum gives away. -/
def Container.firstBad (c : Container) (size : Nat) (blocks : List Nat) : Option Nat :=
  blocks.find? fun i => !c.soundAt size (i * size)

/-- What a verify of a file over `xs` is to report. -/
def Container.verifyReport (c : Container) (size : Nat) (xs : Bytes) : VerifyReport :=
  let blocks := List.range c.blocks.length
  let bad := c.firstBad size blocks
  { blocksTotal := c.blocks.length
    blocksOk := blocks.countP fun i => c.soundAt size (i * size)
    blocksBad := blocks.countP fun i => !c.soundAt size (i * size)
    bytesVerified := UInt64.ofNat (c.soundBytes size xs blocks)
    rawSize := UInt64.ofNat xs.length
    storedSize := c.bytes.length
    firstBadRawOffset := (bad.map fun i => UInt64.ofNat (i * size)).getD 0xFFFFFFFFFFFFFFFF
    firstBadStatus := if bad.isSome then .corruptBlock else .ok
    indexOk := true
    footerOk := true
    streamChecksum :=
      if c.header.checksumId ≠ 0 ∧ xxh64 xs 0 ≠ 0 then if bad.isSome then .skip else .ok
      else .absent }

/-- Where a verify stands behind some blocks. -/
structure VerifyRun.Past (c : Container) (size : Nat) (xs : Bytes) (start : VerifyRun)
    (blocks : List Nat) (v : VerifyRun) : Prop where
  rep : v.rep = { start.rep with
    blocksOk := blocks.countP fun i => c.soundAt size (i * size)
    blocksBad := blocks.countP fun i => !c.soundAt size (i * size)
    bytesVerified := UInt64.ofNat (c.soundBytes size xs blocks)
    firstBadRawOffset :=
      ((c.firstBad size blocks).map fun i => UInt64.ofNat (i * size)).getD 0xFFFFFFFFFFFFFFFF
    firstBadStatus := if (c.firstBad size blocks).isSome then .corruptBlock else .ok }
  checksummable : v.checksummable = (start.checksummable && (c.firstBad size blocks).isNone)
  ck : v.checksummable → v.ck.Absorbed 0 (xs.take (blocks.length * size))

theorem Container.firstBad_succ (c : Container) (size i : Nat) :
    c.firstBad size (List.range (i + 1)) =
      (c.firstBad size (List.range i)).or (if c.soundAt size (i * size) then none else some i) := by
  rw [Container.firstBad, Container.firstBad, List.range_succ, List.find?_append]
  congr 1
  by_cases sound : c.soundAt size (i * size)
  · simp [sound]
  · simp [sound]

theorem Container.soundBytes_succ (c : Container) (size : Nat) (xs : Bytes) (i : Nat) :
    c.soundBytes size xs (List.range (i + 1)) = c.soundBytes size xs (List.range i) +
      if c.soundAt size (i * size) then min size (xs.length - i * size) else 0 := by
  rw [Container.soundBytes, Container.soundBytes, List.range_succ, List.filter_append,
    List.map_append, List.sum_append]
  by_cases sound : c.soundAt size (i * size)
  · simp [sound]
  · simp [sound]

/-- The raw offset of no block is the one that stands for none. -/
theorem rawOffset_ne_none {n : Nat} (less : n < 2 ^ 64 - 1) :
    UInt64.ofNat n ≠ 0xFFFFFFFFFFFFFFFF := by
  -- No raw offset reaches the largest number of 64 bits.
  intro same
  have value := congrArg UInt64.toNat same
  rw [UInt64.toNat_ofNat_of_lt' (show n < 2 ^ 64 by omega)] at value
  have all : (0xFFFFFFFFFFFFFFFF : UInt64).toNat = 2 ^ 64 - 1 := rfl
  omega

/-- One more block, whose status the report follows. -/
theorem VerifyRun.Past.next {start v : VerifyRun} {i : Nat}
    (past : VerifyRun.Past c size xs start (List.range i) v)
    (short : xs.length < 2 ^ 64) (inside : i * size < xs.length) :
    VerifyRun.Past c size xs start (List.range (i + 1))
      (if c.soundAt size (i * size) then v.good ((xs.drop (i * size)).take size)
      else v.bad (UInt64.ofNat (i * size)) .corruptBlock) := by
  obtain ⟨rep, checksummable, ck⟩ := past
  have bad := c.firstBad_succ size i
  by_cases sound : c.soundAt size (i * size)
  · -- The block is counted, and the checksum has seen it if it has seen all before it.
    rw [if_pos sound, Option.or_none] at bad
    rw [if_pos sound]
    refine ⟨?_, ?_, fun all => ?_⟩
    · rw [VerifyRun.good, rep, bad, c.soundBytes_succ, if_pos sound, UInt64.ofNat_add,
        List.range_succ, List.countP_append, List.countP_append, List.length_take,
        List.length_drop]
      simp [sound]
    · rw [bad]
      exact checksummable
    · have good : v.checksummable := all
      have seen := xxh64Update_absorbed (ck good) ((xs.drop (i * size)).take size)
      rw [List.length_range, ← List.take_add, ← Nat.succ_mul] at seen
      show (if v.checksummable then _ else v.ck).Absorbed 0 _
      rw [if_pos good, List.length_range]
      exact seen
  · -- The first bad block is the one that is remembered.
    rw [if_neg sound] at bad
    rw [if_neg sound]
    refine ⟨?_, ?_, fun wrong => (Bool.false_ne_true wrong).elim⟩
    · have first : v.rep.firstBadRawOffset = 0xFFFFFFFFFFFFFFFF ↔
          c.firstBad size (List.range i) = none := by
        rw [rep]
        dsimp only
        cases found : c.firstBad size (List.range i) with
        | none => exact iff_of_true rfl rfl
        | some k =>
          have before := List.mem_range.mp (List.mem_of_find?_eq_some found)
          have less : k * size ≤ i * size := Nat.mul_le_mul_right size before.le
          exact iff_of_false (rawOffset_ne_none (by omega)) (by simp)
      rw [VerifyRun.bad, bad, c.soundBytes_succ, if_neg sound, Nat.add_zero, List.range_succ,
        List.countP_append, List.countP_append]
      simp only [first]
      rw [rep]
      cases c.firstBad size (List.range i) with
      | none => simp [sound]
      | some k => simp [sound]
    · rw [bad]
      cases c.firstBad size (List.range i) with
      | none => simp [VerifyRun.bad]
      | some k => simp [VerifyRun.bad]

/-- The loop of a verify. -/
theorem Reader.Reads.verifyFresh (reads : r.Reads zstd c size xs) (short : xs.length < 2 ^ 64)
    {start : VerifyRun} (left i : Nat) (all : i + left = r.blockCount) {v : VerifyRun}
    (past : VerifyRun.Past c size xs start (List.range i) v) :
    VerifyRun.Past c size xs start (List.range r.blockCount) (r.verifyFresh zstd left i v) := by
  -- The induction is on the blocks still to come.
  induction left generalizing i v with
  | zero =>
    rw [← all]
    exact past
  | succ left ih =>
    have within : i < r.blockCount := by omega
    have inside : i * size < xs.length := by
      rw [reads.count] at within
      have extent := allBlocks_within xs within
      have some_byte := (mem_allBlocks xs (List.getElem_mem within) reads.positive).1
      omega
    have next := past.next short inside
    have entry : (r.entryAt i).rawOffset = UInt64.ofNat (i * size) := by
      rw [← UInt64.toNat_inj, UInt64.toNat_ofNat_of_lt' (show _ < 2 ^ 64 by omega)]
      exact reads.place i within
    rw [Reader.verifyFresh, reads.decode i within, entry]
    refine ih (i + 1) (by omega) ?_
    by_cases sound : c.soundAt size (i * size)
    · rw [if_pos sound] at next ⊢
      exact next
    · rw [if_neg sound] at next ⊢
      exact next

/-- A verify reports what the checksums of the blocks say, whatever was read before it. -/
theorem Reader.Reads.verify {codec : CodecVt} {GoodD : Dctx → Prop} {dict : Option XqDict}
    {ddict : Option Ddict} {r' : Reader} (external : ∀ v ∈ zstd, v.Steady)
    (keeps : c.Keeps zstd codec GoodD size xs dict ddict) (loaded : r.Loaded c codec ddict)
    (reads : r.Reads zstd c size xs) (serves : r.Serves zstd r') :
    (Reader.verify zstd r').1 =
        (if (c.firstBad size (List.range c.blocks.length)).isSome then .corruptBlock else .ok) ∧
      (Reader.verify zstd r').2.1 = c.verifyReport size xs := by
  have count : r'.blockCount = r.blockCount := serves.common Reader.blockCount
  have hdr : r'.hdr = c.header := (serves.common Reader.hdr).trans loaded.hdr
  have footer : r'.footer = c.footer := (serves.common Reader.footer).trans loaded.footer
  have file : r'.file = c.bytes := (serves.common Reader.file).trans loaded.file
  have rawSize : r'.rawSize = UInt64.ofNat xs.length := by
    rw [← keeps.rawSize, ← loaded.rawSize]
    exact serves.common Reader.rawSize
  unfold Reader.verify
  extract_lets wanted start
  obtain ⟨loop, after⟩ := serves.verifyLoop external r.blockCount 0 start
  have begun : VerifyRun.Past c size xs start (List.range 0) start := by
    refine ⟨rfl, (Bool.and_true _).symm, fun _ => ?_⟩
    rw [List.length_range, Nat.zero_mul, List.take_zero]
    exact xxh64Init_absorbed 0
  -- The loop has gone over the blocks in order.
  have past := reads.verifyFresh keeps.short r.blockCount 0 (Nat.zero_add _) begun
  have checksum : wanted ↔ c.header.checksumId ≠ 0 ∧ xxh64 xs 0 ≠ 0 := by
    show _ ∧ _ ↔ _
    have own : c.footer.streamChecksum = c.streamChecksum := rfl
    rw [hdr, footer, own, keeps.streamChecksum]
    refine and_congr_right fun some => ?_
    rw [if_pos some]
  rw [count]
  generalize Reader.verifyLoop zstd r.blockCount 0 start r' = run at loop after
  obtain ⟨v, r''⟩ := run
  have footer' : r''.footer = c.footer := (after.common Reader.footer).trans loaded.footer
  obtain rfl : v = r.verifyFresh zstd r.blockCount 0 start := loop
  generalize r.verifyFresh zstd r.blockCount 0 start = v at past
  obtain ⟨rep, checksummable, ck⟩ := past
  rw [loaded.blockCount] at rep checksummable ck
  have asked : start.checksummable = decide wanted := rfl
  rw [asked] at checksummable
  -- A block is counted as bad exactly where its checksum gives it away.
  have bad_iff : v.rep.blocksBad ≠ 0 ↔
      (c.firstBad size (List.range c.blocks.length)).isSome := by
    have counted : v.rep.blocksBad = (List.range c.blocks.length).countP
        fun i => !c.soundAt size (i * size) := by rw [rep]
    rw [counted, Container.firstBad, List.find?_isSome, ← Nat.pos_iff_ne_zero,
      List.countP_pos_iff]
  dsimp only
  refine ⟨if_congr bad_iff rfl rfl, ?_⟩
  -- The stream is checked when no block is bad, and then the checksum has seen all of it.
  have stream : (if v.checksummable then
      if xxh64Final v.ck = r''.footer.streamChecksum then StreamCk.ok else .bad
      else if wanted then .skip else .absent) = (c.verifyReport size xs).streamChecksum := by
    rw [Container.verifyReport, checksummable]
    dsimp only
    by_cases wants : wanted
    · rw [if_pos wants, if_pos (checksum.mp wants), decide_eq_true wants, Bool.true_and]
      rw [decide_eq_true wants, Bool.true_and] at checksummable
      cases found : c.firstBad size (List.range c.blocks.length) with
      | none =>
        -- No block is bad: the checksum has seen everything, and it is the announced one.
        rw [found] at checksummable
        have all : xs.take ((List.range c.blocks.length).length * size) = xs := by
          rw [List.length_range, keeps.cuts.count]
          exact List.take_of_length_le (length_le_allBlocks xs reads.positive)
        have seen := ck checksummable
        rw [all] at seen
        have announced : r''.footer.streamChecksum = xxh64 xs 0 := by
          rw [footer']
          show c.streamChecksum = _
          rw [keeps.streamChecksum, if_pos (checksum.mp wants).1]
        rw [seen.final keeps.short, announced, if_pos rfl]
        rfl
      | some i => rfl
    · rw [if_neg wants, if_neg (mt checksum.mpr wants), decide_eq_false wants, Bool.false_and]
      rfl
  rw [stream, rep]
  simp only [Container.verifyReport, start, count, loaded.blockCount, rawSize, file]

end Verify

section Decoding

variable {zstd : Option CodecVt} {c : Container} {codec : CodecVt} {GoodD : Dctx → Prop}
  {size : Nat} {xs : Bytes} {dict : Option XqDict} {ddict : Option Ddict}

/-- What the sequential decoder makes of a file over `xs`: a status, and the bytes in front of it. -/
def Container.delivers (c : Container) (size : Nat) (xs : Bytes) : XqStatus × Bytes :=
  match c.firstBad size (List.range c.blocks.length) with
  | none => (.ok, xs)
  | some i => (.corruptBlock, xs.take (i * size))

/-- The first bad block, by the block itself. -/
theorem Container.firstBad_eq_some {i : Nat} (positive : 0 < size)
    (found : c.firstBad size (List.range c.blocks.length) = some i) :
    ∃ b, c.blocks[i]? = some b ∧ ¬ blockChecksumOk c.header b.payload b.ck ∧
      ∀ b' ∈ c.blocks.take i, blockChecksumOk c.header b'.payload b'.ck := by
  -- A block is as sound as its first byte.
  obtain ⟨bad, inside, before⟩ := List.find?_range_eq_some.mp found
  have inside := List.mem_range.mp inside
  have own (j : Nat) (within : j < c.blocks.length) : c.soundAt size (j * size) =
      blockChecksumOk c.header c.blocks[j].payload c.blocks[j].ck := by
    rw [Container.soundAt, Nat.mul_div_cancel _ positive, List.getElem?_eq_getElem within]
    rfl
  refine ⟨_, List.getElem?_eq_getElem inside, ?_, fun b' member => ?_⟩
  · rw [own i inside] at bad
    simpa using bad
  · obtain ⟨j, less, rfl⟩ := List.getElem_of_mem member
    rw [List.length_take] at less
    have sound := before j (by omega)
    rw [own j (by omega)] at sound
    rw [List.getElem_take]
    simpa using sound

/-- Reads of a damaged file: the blocks in front of the first damaged one, and then its status. -/
theorem Container.Keeps.decodeReads_damaged (keeps : c.Keeps zstd codec GoodD size xs dict ddict)
    {memLimit : Nat} (limit : MemoryAllows memLimit size dict) {src : Source}
    (never : src.NeverFails) (whole : src.rest = c.bytes) (lens : List Nat) :
    decodeReads zstd src memLimit lens =
      .ok (readsOf (c.delivers size xs).1 lens (c.delivers size xs).2) := by
  rw [Container.delivers]
  have length := c.length_bytes
  have front := c.length_front
  have least := c.position_le_end 0
  rw [c.position_zero] at least
  have cut : src.rest = c.bytes.take c.bytes.length := by rw [List.take_length, whole]
  cases found : c.firstBad size (List.range c.blocks.length) with
  | none =>
    -- No block is bad, so the file still holds what it should.
    have sealed (b : FileBlock) (member : b ∈ c.blocks) :
        blockChecksumOk c.header b.payload b.ck := by
      obtain ⟨i, inside, rfl⟩ := List.getElem_of_mem member
      have sound := List.find?_range_eq_none.mp found i inside
      rw [Container.soundAt, Nat.mul_div_cancel _ keeps.positive,
        List.getElem?_eq_getElem inside] at sound
      simpa using sound
    have holds : c.Holds zstd codec GoodD size xs dict ddict := ⟨keeps, sealed⟩
    rw [holds.decodeReads limit never cut, if_pos (by omega), Container.cutStatus,
      if_pos (by omega), keeps.cuts.take_complete keeps.positive (by omega)]
  | some i =>
    obtain ⟨b, here, broken, sound⟩ := Container.firstBad_eq_some keeps.positive found
    refine keeps.reads_ahead limit never (by omega) cut (fun d between limit => ?_) lens
    obtain ⟨d', between', goes⟩ := keeps.behind_front between limit
    have all (bs rest : Bytes) (same : c.bytes.length = c.front.length + (bs ++ rest).length) :
        (bs ++ rest).take (c.bytes.length - c.front.length) = bs ++ rest := by
      rw [same, Nat.add_sub_cancel_left, List.take_length]
    rw [goes _ (by omega), if_pos (by omega), all _ _ ?_,
      Decoder.Between.blocks_broken keeps.kept between' keeps.placed sound here broken,
      allBlocks_take xs keeps.positive]
    simp only [Container.bytes, Container.body, Container.blockBytes, List.length_append]
    omega

end Decoding

section Finished

variable {zstd : Option CodecVt} {sink : Nat → Bytes → Bytes → XqStatus} {p : XqParams}
  {rawSizeHint : UInt64} {m : Machine} {dict : Option XqDict} {e e' : Encoder}

/--
Random access to a damaged file: it opens, and a read returns its slice of what was written unless
some byte of the slice lies in a damaged block, in which case it reports a corrupt block.

Neither earlier reads nor the reads of other threads matter, in any interleaving, and all reads
return.
-/
theorem damaged_preads (created : encoderCreate zstd m sink p rawSizeHint dict = .ok e)
    (external : ∀ v ∈ zstd, v.Steady ∧ ∃ GoodC GoodD, v.TakesBack GoodC GoodD)
    (readable : ∀ d ∈ e.dict, d.Readable) {issued : List EncCall} (no_free : .free ∉ issued)
    (finishes : .finish ∈ issued) {results : List XqStatus} {broken : Prop}
    (run : e.Run e.codec.Fresh issued results e' broken)
    (fine : results = List.replicate issued.length .ok)
    (indexable : Indexable e.blockSize rawSizeHint (writtenBy issued) e'.out)
    {opts : Option ReaderOpts} (allows : ReaderAllows opts e.codec e.blockSize e.dict)
    (cpus : Nat) :
    ∃ c : Container, e'.out = c.bytes ∧ c.Cuts e.blockSize (writtenBy issued) ∧
      ∀ c', c.Damaged c' → ∃ r, readerOpen zstd c'.bytes opts cpus = .ok r ∧
        (∀ history n off, (Reader.pread zstd (Reader.preads zstd history r) n off).1 =
          c'.sliceOf e.blockSize (writtenBy issued) n off) ∧
        ∀ (ι : Type) [DecidableEq ι] (calls : ι → List (Nat × Nat)) (s : ReaderMt ι),
          ReaderMt.Reachable zstd (ReaderMt.init r calls) s → s.Answers zstd calls fun call =>
            c'.sliceOf e.blockSize (writtenBy issued) call.1 call.2 := by
  obtain ⟨c, GoodD, out, holds, openable⟩ := Encoder.Run.openable created
    (fun v here => (external v here).2) readable no_free finishes run fine indexable
  refine ⟨c, out, holds.cuts, fun c' damaged => ?_⟩
  have keeps := damaged.keeps holds
  obtain ⟨r, opened, loaded⟩ := keeps.readerOpen (damaged.openable openable) allows cpus
  have steady : ∀ v ∈ zstd, v.Steady := fun v here => (external v here).1
  have ready := readerOpen_ready steady opened
  have zero := ready.index.first_raw
  have reads := keeps.reads (damaged.openable openable) loaded ready
  refine ⟨r, opened, fun history n off => ?_, fun ι _ calls s reached => ?_⟩
  · -- A read serves from the file as it stands, whatever has been read before.
    rw [((ready.serves.preads steady ready.few zero history).pread steady ready.few zero n off).1]
    exact reads.serve ready n off
  · -- So does every read of every thread.
    have answers := reached.answers steady ready
    simp only [reads.serve ready] at answers
    exact answers

/-- Two blocks, and any damage to them. -/
theorem damaged_preads_two : ∃ e,
    encoderCreate none openMachine (fun _ _ _ => .ok) smallParams 4099 none = .ok e ∧
      ∃ c : Container, (e.answers [.write twoBlocks, .finish]).2.out = c.bytes ∧
        c.Cuts e.blockSize twoBlocks ∧
        ∀ c', c.Damaged c' → ∃ r, readerOpen none c'.bytes none 1 = .ok r ∧
          (∀ history n off, (Reader.pread none (Reader.preads none history r) n off).1 =
            c'.sliceOf e.blockSize twoBlocks n off) ∧
          ∀ (ι : Type) [DecidableEq ι] (calls : ι → List (Nat × Nat)) (s : ReaderMt ι),
            ReaderMt.Reachable none (ReaderMt.init r calls) s → s.Answers none calls fun call =>
              c'.sliceOf e.blockSize twoBlocks call.1 call.2 := by
  -- What is written are two blocks, and their file can be opened.
  obtain ⟨e, created, no_dict, size, results, length⟩ := twoBlocks_run
  obtain ⟨no_free, finishes⟩ := twoBlocks_calls
  have unlimited : ReaderAllows none e.codec e.blockSize e.dict := .inl rfl
  have read := damaged_preads created (by simp) (by simp [no_dict]) no_free finishes (.single 2)
    results (twoBlocks_indexable size length) unlimited 1
  rw [twoBlocks_written] at read
  exact ⟨e, created, read⟩

/-- The blocks of a file without damage hold all of its bytes. -/
theorem Container.Holds.soundBytes {c : Container} {codec : CodecVt} {GoodD : Dctx → Prop}
    {size : Nat} {xs : Bytes} {ddict : Option Ddict}
    (holds : c.Holds zstd codec GoodD size xs dict ddict) :
    c.soundBytes size xs (List.range c.blocks.length) = xs.length := by
  -- Every block counts, and together they are the stream.
  have all : (List.range c.blocks.length).filter (fun i => c.soundAt size (i * size)) =
      List.range c.blocks.length := List.filter_eq_self.mpr fun i _ => holds.soundAt _
  rw [Container.soundBytes, all, holds.cuts.count, ← map_length_allBlocks xs holds.positive,
    ← List.length_flatten, allBlocks_flatten]

theorem Container.Holds.firstBad {c : Container} {codec : CodecVt} {GoodD : Dctx → Prop}
    {size : Nat} {xs : Bytes} {ddict : Option Ddict}
    (holds : c.Holds zstd codec GoodD size xs dict ddict) (blocks : List Nat) :
    c.firstBad size blocks = none := by
  rw [Container.firstBad, List.find?_eq_none]
  simp [holds.soundAt]

/-- A verify of a file without damage counts all its blocks and all its bytes, and finds nothing. -/
theorem Container.Holds.verifyReport {c : Container} {codec : CodecVt} {GoodD : Dctx → Prop}
    {size : Nat} {xs : Bytes} {ddict : Option Ddict}
    (holds : c.Holds zstd codec GoodD size xs dict ddict) :
    c.firstBad size (List.range c.blocks.length) = none ∧
      (c.verifyReport size xs).blocksOk = c.blocks.length ∧
      (c.verifyReport size xs).bytesVerified = UInt64.ofNat xs.length := by
  -- Every block is sound, so no filter leaves any out.
  refine ⟨holds.firstBad _, ?_, congrArg UInt64.ofNat holds.soundBytes⟩
  simp [Container.verifyReport, holds.soundAt]

/--
A verify of a damaged file, after any reads: it counts the blocks that are damaged and those that are
not, and the bytes of the latter, remembers where the first of the former begins, and checks the whole
stream when there is none.
-/
theorem damaged_verify (created : encoderCreate zstd m sink p rawSizeHint dict = .ok e)
    (external : ∀ v ∈ zstd, v.Steady ∧ ∃ GoodC GoodD, v.TakesBack GoodC GoodD)
    (readable : ∀ d ∈ e.dict, d.Readable) {issued : List EncCall} (no_free : .free ∉ issued)
    (finishes : .finish ∈ issued) {results : List XqStatus} {broken : Prop}
    (run : e.Run e.codec.Fresh issued results e' broken)
    (fine : results = List.replicate issued.length .ok)
    (indexable : Indexable e.blockSize rawSizeHint (writtenBy issued) e'.out)
    {opts : Option ReaderOpts} (allows : ReaderAllows opts e.codec e.blockSize e.dict)
    (cpus : Nat) :
    ∃ c : Container, e'.out = c.bytes ∧ c.Cuts e.blockSize (writtenBy issued) ∧
      (c.firstBad e.blockSize (List.range c.blocks.length) = none ∧
        (c.verifyReport e.blockSize (writtenBy issued)).blocksOk = c.blocks.length ∧
        (c.verifyReport e.blockSize (writtenBy issued)).bytesVerified =
          UInt64.ofNat (writtenBy issued).length) ∧
      ∀ c', c.Damaged c' → ∃ r, readerOpen zstd c'.bytes opts cpus = .ok r ∧
        ∀ history, (Reader.verify zstd (Reader.preads zstd history r)).1 =
            (if (c'.firstBad e.blockSize (List.range c'.blocks.length)).isSome then .corruptBlock
            else .ok) ∧
          (Reader.verify zstd (Reader.preads zstd history r)).2.1 =
            c'.verifyReport e.blockSize (writtenBy issued) := by
  -- A verify counts what the damage has left.
  obtain ⟨c, GoodD, out, holds, openable⟩ := Encoder.Run.openable created
    (fun v here => (external v here).2) readable no_free finishes run fine indexable
  refine ⟨c, out, holds.cuts, holds.verifyReport, fun c' damaged => ?_⟩
  have keeps := damaged.keeps holds
  obtain ⟨r, opened, loaded⟩ := keeps.readerOpen (damaged.openable openable) allows cpus
  have steady : ∀ v ∈ zstd, v.Steady := fun v here => (external v here).1
  have ready := readerOpen_ready steady opened
  have reads := keeps.reads (damaged.openable openable) loaded ready
  refine ⟨r, opened, fun history => ?_⟩
  exact reads.verify steady keeps loaded
    (ready.serves.preads steady ready.few ready.index.first_raw history)

/-- Two blocks, and any damage to them. -/
theorem damaged_verify_two : ∃ e,
    encoderCreate none openMachine (fun _ _ _ => .ok) smallParams 4099 none = .ok e ∧
      ∃ c : Container, (e.answers [.write twoBlocks, .finish]).2.out = c.bytes ∧
        c.Cuts e.blockSize twoBlocks ∧
        (c.firstBad e.blockSize (List.range c.blocks.length) = none ∧
          (c.verifyReport e.blockSize twoBlocks).blocksOk = c.blocks.length ∧
          (c.verifyReport e.blockSize twoBlocks).bytesVerified =
            UInt64.ofNat twoBlocks.length) ∧
        ∀ c', c.Damaged c' → ∃ r, readerOpen none c'.bytes none 1 = .ok r ∧
          ∀ history, (Reader.verify none (Reader.preads none history r)).1 =
              (if (c'.firstBad e.blockSize (List.range c'.blocks.length)).isSome then .corruptBlock
              else .ok) ∧
            (Reader.verify none (Reader.preads none history r)).2.1 =
              c'.verifyReport e.blockSize twoBlocks := by
  -- The file of the two blocks can be opened without a limit.
  obtain ⟨e, created, no_dict, size, results, length⟩ := twoBlocks_run
  obtain ⟨no_free, finishes⟩ := twoBlocks_calls
  have unlimited : ReaderAllows none e.codec e.blockSize e.dict := .inl rfl
  have verified := damaged_verify created (by simp) (by simp [no_dict]) no_free finishes
    (.single 2) results (twoBlocks_indexable size length) unlimited 1
  rw [twoBlocks_written] at verified
  exact ⟨e, created, verified⟩

/--
The sequential decoder on a damaged file, however it is delivered: a read returns its bytes while they
stand in the blocks in front of the first damaged one; the first read that asks for more than is left
of these reports a corrupt block instead, and so does every later one.

Under CRC-32C, up to four changed bytes in a row in any payload are such damage.
-/
theorem damaged_decodeReads (created : encoderCreate zstd m sink p rawSizeHint dict = .ok e)
    (external : ∀ v ∈ zstd, ∃ GoodC GoodD, v.TakesBack GoodC GoodD)
    (readable : ∀ d ∈ e.dict, d.Readable) {issued : List EncCall} (no_free : .free ∉ issued)
    (finishes : .finish ∈ issued) {results : List XqStatus} {broken : Prop}
    (run : e.Run e.codec.Fresh issued results e' broken)
    (fine : results = List.replicate issued.length .ok)
    (short : (writtenBy issued).length < 2 ^ 64) :
    ∃ c : Container, e'.out = c.bytes ∧ c.Cuts e.blockSize (writtenBy issued) ∧
      (c.header.checksumId = 1 → ∀ i b payload, c.blocks[i]? = some b →
        Burst 4 b.payload payload →
          c.Damaged { c with blocks := c.blocks.set i { b with payload := payload } }) ∧
      ∀ c', c.Damaged c' → ∀ (src : Source) (memLimit : Nat) (lens : List Nat), src.NeverFails →
        src.rest = c'.bytes → MemoryAllows memLimit e.blockSize e.dict →
          decodeReads zstd src memLimit lens =
            .ok (readsOf (c'.delivers e.blockSize (writtenBy issued)).1 lens
              (c'.delivers e.blockSize (writtenBy issued)).2) := by
  -- The decoder goes on until it meets the first damaged block.
  obtain ⟨c, GoodD, out, _, holds⟩ := Encoder.Run.holds created external readable no_free finishes
    run fine short
  refine ⟨c, out, holds.cuts, fun crc i b payload here burst => ?_, fun c' damaged => ?_⟩
  · exact Container.damaged_of_burst crc holds.sealed here burst
  · intro src memLimit lens never whole limit
    exact (damaged.keeps holds).decodeReads_damaged limit never whole lens

/-- Two blocks, and any damage to them. -/
theorem damaged_decodeReads_two : ∃ e,
    encoderCreate none openMachine (fun _ _ _ => .ok) smallParams 4099 none = .ok e ∧
      ∃ c : Container, (e.answers [.write twoBlocks, .finish]).2.out = c.bytes ∧
        c.Cuts e.blockSize twoBlocks ∧
        (c.header.checksumId = 1 → ∀ i b payload, c.blocks[i]? = some b →
          Burst 4 b.payload payload →
            c.Damaged { c with blocks := c.blocks.set i { b with payload := payload } }) ∧
        ∀ c', c.Damaged c' → ∀ (src : Source) (memLimit : Nat) (lens : List Nat), src.NeverFails →
          src.rest = c'.bytes → MemoryAllows memLimit e.blockSize e.dict →
            decodeReads none src memLimit lens =
              .ok (readsOf (c'.delivers e.blockSize twoBlocks).1 lens
                (c'.delivers e.blockSize twoBlocks).2) := by
  -- The two blocks are shorter than any limit on the length.
  obtain ⟨e, created, no_dict, _, results, _⟩ := twoBlocks_run
  obtain ⟨no_free, finishes⟩ := twoBlocks_calls
  have decoded := damaged_decodeReads created (by simp) (by simp [no_dict]) no_free finishes
    (.single 2) results (by rw [twoBlocks_written, twoBlocks_length]; decide)
  rw [twoBlocks_written] at decoded
  exact ⟨e, created, decoded⟩

end Finished

end Xq
