import Xq.Format.Layout
import Xq.Proofs.Format.Parsers

/-! The index: what its validation establishes, and what its binary search finds. -/

namespace Xq

/-- The entry at a position of a serialised index. -/
def indexEntry (entries : Bytes) (i : Nat) : IndexEntry :=
  fmtIndexEntryLoad entries (i * indexEntrySize)

/-- The raw offset at a position of a serialised index, as a number. -/
def indexRaw (entries : Bytes) (i : Nat) : Nat := (indexEntry entries i).rawOffset.toNat

/-- The file offset at a position of a serialised index, as a number. -/
def indexFile (entries : Bytes) (i : Nat) : Nat := (indexEntry entries i).fileOffset.toNat

/-- The search narrows an interval that holds the offset down to one block. -/
theorem fmtIndexFindLoop_spec {entries : Bytes} {rawOff : UInt64} (fuel lo hi : Nat)
    (enough : hi - lo ≤ fuel) (proper : lo < hi)
    (above : indexRaw entries lo ≤ rawOff.toNat) (below : rawOff.toNat < indexRaw entries hi) :
    let i := fmtIndexFindLoop entries rawOff fuel lo hi
    i < hi ∧ indexRaw entries i ≤ rawOff.toNat ∧ rawOff.toNat < indexRaw entries (i + 1) := by
  -- The interval shrinks in every round, and never loses the offset.
  induction fuel generalizing lo hi with
  | zero => omega
  | succ fuel ih =>
    rw [fmtIndexFindLoop]
    by_cases wide : hi - lo > 1
    · rw [if_pos wide]
      dsimp only
      by_cases left : ld64le entries ((lo + (hi - lo) / 2) * indexEntrySize + 8) ≤ rawOff
      · rw [if_pos left]
        exact ih _ _ (by omega) (by omega) (UInt64.le_iff_toNat_le.mp left) below
      · rw [if_neg left]
        have found := ih lo (lo + (hi - lo) / 2) (by omega) (by omega) above
          (UInt64.lt_iff_toNat_lt.mp (UInt64.not_le.mp left))
        exact ⟨by have := found.1; omega, found.2⟩
    · rw [if_neg wide]
      have last : hi = lo + 1 := by omega
      exact ⟨proper, above, last ▸ below⟩

/-- A block the search finds is one of the blocks, and holds the offset. -/
theorem fmtIndexFind_some {entries : Bytes} {n i : Nat} {rawOff : UInt64}
    (zero : indexRaw entries 0 = 0) (found : fmtIndexFind entries n rawOff = some i) :
    i + 1 < n ∧ indexRaw entries i ≤ rawOff.toNat ∧ rawOff.toNat < indexRaw entries (i + 1) := by
  -- The two tests in front of the loop put the offset inside the whole index.
  rw [fmtIndexFind] at found
  split at found; · cases found
  rename_i several
  split at found; · cases found
  rename_i inside
  cases found
  have below : rawOff.toNat < indexRaw entries (n - 1) :=
    UInt64.lt_iff_toNat_lt.mp (UInt64.not_le.mp inside)
  have spec := fmtIndexFindLoop_spec n 0 (n - 1) (by omega) (by omega)
    (by rw [zero]; exact Nat.zero_le _) below
  exact ⟨by have := spec.1; omega, spec.2⟩

/-- The search finds a block for every offset in front of the end. -/
theorem fmtIndexFind_isSome (entries : Bytes) (n : Nat) (rawOff : UInt64) (several : 2 ≤ n)
    (inside : rawOff.toNat < indexRaw entries (n - 1)) :
    (fmtIndexFind entries n rawOff).isSome := by
  -- Neither test in front of the search fires.
  have below : ¬ rawOff ≥ ld64le entries ((n - 1) * indexEntrySize + 8) :=
    UInt64.not_le.mpr (UInt64.lt_iff_toNat_lt.mpr inside)
  rw [fmtIndexFind, if_neg (by omega), if_neg below]
  rfl

/-- What the validation establishes about the entries of an index of `blocks` blocks. -/
structure IndexValid (entries : Bytes) (blocks : Nat) (totalRaw : UInt64) (fileSize : Nat) :
    Prop where
  some_block : 0 < blocks
  first_file : fileHeaderSize ≤ indexFile entries 0
  first_raw : indexRaw entries 0 = 0
  raw_lt : ∀ i < blocks, indexRaw entries i < indexRaw entries (i + 1)
  raw_room : ∀ i < blocks, indexRaw entries (i + 1) - indexRaw entries i ≤ blockSizeMax
  file_room : ∀ i < blocks, indexFile entries i + blockHeaderSize ≤ indexFile entries (i + 1)
  inside : fileSize ≠ 0 → ∀ i < blocks, indexFile entries (i + 1) ≤ fileSize
  last_raw : indexRaw entries blocks = totalRaw.toNat

/-- The validation loop accepts exactly a chain of entries, each behind the one before. -/
theorem fmtIndexValidateLoop_ok {entries : Bytes} {fileSize left i : Nat} {last : IndexEntry}
    (accepted : fmtIndexValidateLoop entries fileSize left (i + 1) (indexEntry entries i) =
      .ok last) :
    last = indexEntry entries (i + left) ∧ ∀ k, i ≤ k → k < i + left →
      indexRaw entries k < indexRaw entries (k + 1) ∧
      indexRaw entries (k + 1) - indexRaw entries k ≤ blockSizeMax ∧
      indexFile entries k + blockHeaderSize ≤ indexFile entries (k + 1) ∧
      (fileSize ≠ 0 → indexFile entries (k + 1) ≤ fileSize) := by
  -- The induction is on the entries still to come.
  induction left generalizing i with
  | zero =>
    cases accepted
    exact ⟨rfl, fun k after before => absurd after (by omega)⟩
  | succ left ih =>
    rw [fmtIndexValidateLoop] at accepted
    obtain ⟨file, accepted⟩ := guard_eq_ok.mp accepted
    obtain ⟨raw, accepted⟩ := guard_eq_ok.mp accepted
    obtain ⟨extent, accepted⟩ := guard_eq_ok.mp accepted
    obtain ⟨room, accepted⟩ := guard_eq_ok.mp accepted
    obtain ⟨bounded, accepted⟩ := guard_eq_ok.mp accepted
    obtain ⟨end_eq, rest⟩ := ih accepted
    refine ⟨by rw [end_eq, Nat.add_right_comm, Nat.add_assoc], fun k after before => ?_⟩
    rcases Nat.lt_or_ge i k with later | here
    · exact rest k later (by omega)
    · obtain rfl : k = i := by omega
      have raw_lt : indexRaw entries k < indexRaw entries (k + 1) :=
        UInt64.lt_iff_toNat_lt.mp (UInt64.not_le.mp raw)
      have file_lt : indexFile entries k < indexFile entries (k + 1) :=
        UInt64.lt_iff_toNat_lt.mp (UInt64.not_le.mp file)
      -- The two differences do not wrap.
      have raw_sub : ((indexEntry entries (k + 1)).rawOffset -
          (indexEntry entries k).rawOffset).toNat = indexRaw entries (k + 1) - indexRaw entries k :=
        UInt64.toNat_sub_of_le _ _ (UInt64.le_iff_toNat_le.mpr raw_lt.le)
      have file_sub : ((indexEntry entries (k + 1)).fileOffset -
          (indexEntry entries k).fileOffset).toNat =
            indexFile entries (k + 1) - indexFile entries k :=
        UInt64.toNat_sub_of_le _ _ (UInt64.le_iff_toNat_le.mpr file_lt.le)
      have room := Nat.not_lt.mp room
      have extent := Nat.not_lt.mp extent
      rw [← indexEntry, raw_sub] at room
      rw [← indexEntry, file_sub] at extent
      exact ⟨raw_lt, room, by omega, fun known => Nat.not_lt.mp fun far => bounded ⟨known, far⟩⟩

/-- A refusal of the loop is an error. -/
theorem fmtIndexValidateLoop_ne_ok (entries : Bytes) (fileSize left i : Nat) (prev : IndexEntry) :
    fmtIndexValidateLoop entries fileSize left i prev ≠ .error .ok := by
  -- The induction is on the entries left; every refusal has a status of its own.
  induction left generalizing i prev with
  | zero =>
    intro wrong
    cases wrong
  | succ left ih =>
    rw [fmtIndexValidateLoop]
    intro wrong
    split at wrong; · cases wrong
    split at wrong; · cases wrong
    split at wrong; · cases wrong
    split at wrong; · cases wrong
    split at wrong; · cases wrong
    exact ih _ _ wrong

/-- An accepted index is in order. -/
theorem fmtIndexValidate_ok {p : IndexPreamble} {entries : Bytes} {fileSize : Nat}
    (accepted : fmtIndexValidate p entries fileSize = .ok) :
    IndexValid entries p.blockCount.toNat p.totalRaw fileSize := by
  rw [fmtIndexValidate] at accepted
  split at accepted; · cases accepted
  rename_i some_block
  dsimp only at accepted
  split at accepted; · cases accepted
  rename_i first_file
  split at accepted; · cases accepted
  rename_i first_raw
  split at accepted
  · -- The loop only ever refuses with an error.
    rename_i refused
    subst accepted
    exact (fmtIndexValidateLoop_ne_ok _ _ _ _ _ refused).elim
  · rename_i last loop
    split at accepted; · cases accepted
    rename_i total
    obtain ⟨rfl, chain⟩ := fmtIndexValidateLoop_ok (i := 0) loop
    have chain (i : Nat) (within : i < p.blockCount.toNat) := chain i (Nat.zero_le i) (by omega)
    have count : p.blockCount.toNat ≠ 0 := fun none =>
      some_block (UInt64.toNat_inj.mp none)
    refine ⟨Nat.pos_of_ne_zero count, Nat.not_lt.mp first_file, ?_,
      fun i within => (chain i within).1, fun i within => (chain i within).2.1,
      fun i within => (chain i within).2.2.1, fun known i within => (chain i within).2.2.2 known,
      ?_⟩
    · rw [indexRaw, indexEntry, Nat.zero_mul, not_not.mp first_raw]
      rfl
    · rw [← not_not.mp total, Nat.zero_add]
      rfl

/-- The validation loop accepts every chain of entries. -/
theorem fmtIndexValidateLoop_of_chain {entries : Bytes} {fileSize left i : Nat}
    (chain : ∀ k, i ≤ k → k < i + left →
      indexRaw entries k < indexRaw entries (k + 1) ∧
      indexRaw entries (k + 1) - indexRaw entries k ≤ blockSizeMax ∧
      indexFile entries k + blockHeaderSize ≤ indexFile entries (k + 1) ∧
      (fileSize ≠ 0 → indexFile entries (k + 1) ≤ fileSize)) :
    fmtIndexValidateLoop entries fileSize left (i + 1) (indexEntry entries i) =
      .ok (indexEntry entries (i + left)) := by
  -- The induction is on the entries left; each of the five tests is one of the chain's
  -- inequalities.
  induction left generalizing i with
  | zero => rfl
  | succ left ih =>
    obtain ⟨raw_lt, room, extent, bounded⟩ := chain i le_rfl (by omega)
    have header : 0 < blockHeaderSize := by decide
    have rest := ih (i := i + 1) fun k after before => chain k (by omega) (by omega)
    have raw_le : (indexEntry entries i).rawOffset ≤ (indexEntry entries (i + 1)).rawOffset :=
      UInt64.le_iff_toNat_le.mpr raw_lt.le
    have file_le : (indexEntry entries i).fileOffset ≤ (indexEntry entries (i + 1)).fileOffset :=
      UInt64.le_iff_toNat_le.mpr (Nat.le_of_add_right_le extent)
    have last : i + 1 + left = i + (left + 1) := by omega
    rw [last] at rest
    rw [fmtIndexValidateLoop, ← indexEntry]
    refine guard_eq_ok.mpr ⟨?_, guard_eq_ok.mpr ⟨?_, guard_eq_ok.mpr ⟨?_, guard_eq_ok.mpr ⟨?_,
      guard_eq_ok.mpr ⟨fun far => Nat.not_lt.mpr (bounded far.1) far.2, rest⟩⟩⟩⟩⟩
    · refine UInt64.not_le.mpr (UInt64.lt_iff_toNat_lt.mpr ?_)
      exact Nat.lt_of_lt_of_le (Nat.lt_add_of_pos_right header) extent
    · exact UInt64.not_le.mpr (UInt64.lt_iff_toNat_lt.mpr raw_lt)
    · rw [UInt64.toNat_sub_of_le _ _ file_le]
      exact Nat.not_lt.mpr (Nat.le_sub_of_add_le' extent)
    · rw [UInt64.toNat_sub_of_le _ _ raw_le]
      exact Nat.not_lt.mpr room

/-- An index in order is accepted. -/
theorem fmtIndexValidate_of_valid {p : IndexPreamble} {entries : Bytes} {fileSize : Nat}
    (valid : IndexValid entries p.blockCount.toNat p.totalRaw fileSize) :
    fmtIndexValidate p entries fileSize = .ok := by
  -- In front of the loop come the count and the first entry, behind it the total.
  have count : p.blockCount ≠ 0 := by
    intro none
    have some_block := valid.some_block
    rw [none] at some_block
    exact Nat.lt_irrefl 0 some_block
  have loop : fmtIndexValidateLoop entries fileSize p.blockCount.toNat (0 + 1)
      (indexEntry entries 0) = .ok (indexEntry entries (0 + p.blockCount.toNat)) := by
    refine fmtIndexValidateLoop_of_chain fun k _ before => ?_
    have within : k < p.blockCount.toNat := by omega
    exact ⟨valid.raw_lt k within, valid.raw_room k within, valid.file_room k within,
      fun known => valid.inside known k within⟩
  rw [Nat.zero_add] at loop
  have first : fmtIndexEntryLoad entries 0 = indexEntry entries 0 := by
    rw [indexEntry, Nat.zero_mul]
  rw [fmtIndexValidate, if_neg count]
  dsimp only
  have header : ¬ (indexEntry entries 0).fileOffset.toNat < fileHeaderSize :=
    Nat.not_lt.mpr valid.first_file
  rw [first, if_neg header, if_neg, loop]
  · dsimp only
    rw [Nat.zero_add, if_neg]
    exact not_not.mpr (UInt64.toNat_inj.mp valid.last_raw)
  · exact not_not.mpr (UInt64.toNat_inj.mp valid.first_raw)

/-- The raw offsets of the index are in order. -/
theorem IndexValid.raw_le {entries : Bytes} {blocks fileSize : Nat} {totalRaw : UInt64}
    (valid : IndexValid entries blocks totalRaw fileSize) {i j : Nat} (before : i ≤ j)
    (inside : j ≤ blocks) : indexRaw entries i ≤ indexRaw entries j := by
  -- The induction is on the entries in between.
  induction before with
  | refl => exact Nat.le_refl _
  | step _ ih => exact Nat.le_trans (ih (by omega)) (valid.raw_lt _ (by omega)).le

/-- A position lies in one extent only. -/
theorem IndexValid.raw_unique {entries : Bytes} {blocks fileSize i j p : Nat} {totalRaw : UInt64}
    (valid : IndexValid entries blocks totalRaw fileSize) (within : i < blocks ∧ j < blocks)
    (left : indexRaw entries i ≤ p ∧ p < indexRaw entries (i + 1))
    (right : indexRaw entries j ≤ p ∧ p < indexRaw entries (j + 1)) : i = j := by
  -- An earlier extent ends before a later one begins.
  rcases Nat.lt_trichotomy i j with before | same | after
  · have := valid.raw_le (i := i + 1) before within.2.le
    omega
  · exact same
  · have := valid.raw_le (i := j + 1) after within.1.le
    omega

/-- The number of blocks an accepted preamble announces is far from wrapping. -/
theorem fmtIndexPreambleParse_blocks {buf : Bytes} {p : IndexPreamble}
    (parsed : fmtIndexPreambleParse buf = .ok p) : p.blockCount.toNat + 1 < 2 ^ 60 := by
  -- The payload size of a larger count would wrap, which the parser takes for zero.
  unfold fmtIndexPreambleParse at parsed
  dsimp only at parsed
  obtain ⟨_, parsed⟩ := guard_eq_ok.mp parsed
  obtain ⟨count, parsed⟩ := guard_eq_ok.mp parsed
  obtain rfl := Except.ok.inj parsed
  dsimp only
  generalize ld64le buf 0 = blocks at count ⊢
  have one : (1 : UInt64).toNat = 1 := rfl
  have sixteen : (16 : UInt64).toNat = 16 := rfl
  rw [fmtIndexPayloadSize, addU64Ok] at count
  by_cases sum : blocks.toNat + (1 : UInt64).toNat < 2 ^ 64
  · rw [if_pos sum] at count
    rw [one] at sum
    have entries : (blocks + 1).toNat = blocks.toNat + 1 := by
      rw [UInt64.toNat_add]
      exact Nat.mod_eq_of_lt sum
    dsimp only at count
    rw [mulU64Ok] at count
    by_cases product : (blocks + 1).toNat * (16 : UInt64).toNat < 2 ^ 64
    · rw [entries, sixteen] at product
      omega
    · rw [if_neg product] at count
      exact (count rfl).elim
  · rw [if_neg sum] at count
    exact (count rfl).elim

/--
The lookup in an accepted index is exact.

It finds nothing exactly from the end of the stream on, and otherwise the one block whose extent
holds the offset; that number is small enough for the signed result.
-/
theorem fmtIndexFind_exact {buf entries : Bytes} {p : IndexPreamble} {fileSize : Nat}
    (parsed : fmtIndexPreambleParse buf = .ok p)
    (accepted : fmtIndexValidate p entries fileSize = .ok) (rawOff : UInt64) :
    (fmtIndexFind entries (p.blockCount + 1).toNat rawOff = none ↔ rawOff ≥ p.totalRaw) ∧
      (rawOff < p.totalRaw → ∃ i, fmtIndexFind entries (p.blockCount + 1).toNat rawOff = some i ∧
        i < 2 ^ 63 ∧ ∀ j, j = i ↔ j < p.blockCount.toNat ∧
          (fmtIndexEntryLoad entries (j * indexEntrySize)).rawOffset ≤ rawOff ∧
          rawOff < (fmtIndexEntryLoad entries ((j + 1) * indexEntrySize)).rawOffset) := by
  have valid := fmtIndexValidate_ok accepted
  have some_block := valid.some_block
  have room := fmtIndexPreambleParse_blocks parsed
  have nentries : (p.blockCount + 1).toNat = p.blockCount.toNat + 1 := by
    rw [UInt64.toNat_add]
    exact Nat.mod_eq_of_lt (Nat.lt_trans room (by decide))
  rw [nentries]
  -- In front of the end the search succeeds.
  have found : rawOff < p.totalRaw →
      (fmtIndexFind entries (p.blockCount.toNat + 1) rawOff).isSome := fun inside => by
    refine fmtIndexFind_isSome entries _ rawOff (by omega) ?_
    rw [Nat.add_sub_cancel, valid.last_raw]
    exact UInt64.lt_iff_toNat_lt.mp inside
  constructor
  · constructor
    · intro none
      by_contra inside
      rw [Option.isSome_iff_ne_none] at found
      exact found (UInt64.not_le.mp inside) none
    · intro behind
      have end_ : rawOff ≥ ld64le entries ((p.blockCount.toNat + 1 - 1) * indexEntrySize + 8) := by
        have last := valid.last_raw
        rw [indexRaw, indexEntry, fmtIndexEntryLoad] at last
        rw [ge_iff_le, UInt64.le_iff_toNat_le, Nat.add_sub_cancel, last]
        exact UInt64.le_iff_toNat_le.mp behind
      rw [fmtIndexFind, if_neg (by omega), if_pos end_]
  · intro inside
    obtain ⟨i, search⟩ := Option.isSome_iff_exists.mp (found inside)
    obtain ⟨within, left, right⟩ := fmtIndexFind_some valid.first_raw search
    refine ⟨i, search, by omega, fun j => ⟨?_, fun extent => ?_⟩⟩
    · rintro rfl
      exact ⟨by omega, UInt64.le_iff_toNat_le.mpr left, UInt64.lt_iff_toNat_lt.mpr right⟩
    · -- Two extents that hold the offset are the same one.
      obtain ⟨block, above, below⟩ := extent
      exact valid.raw_unique ⟨block, by omega⟩
        ⟨UInt64.le_iff_toNat_le.mp above, UInt64.lt_iff_toNat_lt.mp below⟩ ⟨left, right⟩

/-- An index of three blocks behind a bare header, searched for a byte inside the second. -/
theorem fmtIndexFind_exact_inner :
    let p : IndexPreamble := { blockCount := 3, totalRaw := 16, totalStored := 88 }
    let entries : Bytes := [⟨32, 0⟩, ⟨61, 5⟩, ⟨92, 12⟩, ⟨120, 16⟩].flatMap fmtIndexEntryStore
    fmtIndexFind entries (p.blockCount + 1).toNat 7 = some 1 ∧
      (fmtIndexFind entries (p.blockCount + 1).toNat 7 = none ↔ (7 : UInt64) ≥ p.totalRaw) ∧
      ((7 : UInt64) < p.totalRaw → ∃ i, fmtIndexFind entries (p.blockCount + 1).toNat 7 = some i ∧
        i < 2 ^ 63 ∧ ∀ j, j = i ↔ j < p.blockCount.toNat ∧
          (fmtIndexEntryLoad entries (j * indexEntrySize)).rawOffset ≤ 7 ∧
          7 < (fmtIndexEntryLoad entries ((j + 1) * indexEntrySize)).rawOffset) :=
  ⟨by decide, @fmtIndexFind_exact
    (fmtIndexPreambleStore { blockCount := 3, totalRaw := 16, totalStored := 88 }) _ _ 200
    (by decide) (by decide) 7⟩

/-- The payload of an index record over the given entries, the last of them the sentinel. -/
def indexPayload (totalStored : UInt64) (entries : List IndexEntry) : Bytes :=
  fmtIndexPreambleStore
    { blockCount := UInt64.ofNat (entries.length - 1)
      totalRaw := (entries.getLastD ⟨0, 0⟩).rawOffset
      totalStored := totalStored } ++ entries.flatMap fmtIndexEntryStore

/-- An index record: its header in front of its payload. -/
def indexRecord (totalStored : UInt64) (entries : List IndexEntry) : Bytes :=
  let payload := indexPayload totalStored entries
  fmtRecordStore
    { tag := recIndex, rflags := 0, size := UInt64.ofNat payload.length, crc32c := 0 } payload ++
    payload

/-- A file that consists of a header, the bytes of its blocks, an index and a footer. -/
def indexedFile (h : FileHeader) (blocks : Bytes) (entries : List IndexEntry) : Bytes :=
  let front := fmtHeaderStore h ++ blocks
  let index := indexRecord 0 entries
  front ++ index ++ fmtFooterStore
    { indexOffset := UInt64.ofNat front.length, indexSize := UInt64.ofNat index.length,
      streamChecksum := 0 }

end Xq
