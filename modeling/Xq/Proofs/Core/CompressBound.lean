import Xq.Core.Api
import Xq.Proofs.Core.Emission

/-! The closed formula of `xq_compress_bound`: when its sums say what they mean. -/

namespace Xq

/-- A sum that goes through overflow-checked additions, one after another. -/
def sumU64 (total : UInt64) (parts : List UInt64) : Option UInt64 := parts.foldlM addU64Ok total

/-- Such a sum is exact, or there is none. -/
theorem sumU64_eq (total : UInt64) (parts : List UInt64) :
    sumU64 total parts =
      if total.toNat + (parts.map UInt64.toNat).sum < 2 ^ 64 then
        some (UInt64.ofNat (total.toNat + (parts.map UInt64.toNat).sum))
      else none := by
  -- The induction is on the parts; a partial sum that leaves the word has no way back.
  induction parts generalizing total with
  | nil =>
    have small := total.toNat_lt
    rw [sumU64, List.foldlM_nil, List.map_nil, List.sum_nil, Nat.add_zero, if_pos small,
      UInt64.ofNat_toNat]
    rfl
  | cons part parts ih =>
    rw [sumU64, List.foldlM_cons, List.map_cons, List.sum_cons, addU64Ok]
    by_cases fits : total.toNat + part.toNat < 2 ^ 64
    · have value : (total + part).toNat = total.toNat + part.toNat := by
        rw [UInt64.toNat_add]
        exact Nat.mod_eq_of_lt fits
      rw [if_pos fits]
      have rest := ih (total + part)
      rw [sumU64, value] at rest
      rw [← Nat.add_assoc]
      exact rest
    · have over_ : ¬ total.toNat + (part.toNat + (parts.map UInt64.toNat).sum) < 2 ^ 64 := by omega
      rw [if_neg fits, if_neg over_]
      rfl

/-- The number of blocks the formula counts; its rounding up is a sum of its own. -/
def boundBlocks (srcSize : UInt64) (p : XqParams) : UInt64 :=
  let bs := UInt64.ofNat p.effectiveBlockSize
  let nblocks := (srcSize + bs - 1) / bs
  if nblocks = 0 then 1 else nblocks

/-- What each block takes beside its payload. -/
def blockOverhead (p : XqParams) : Nat := blockHeaderSize + fmtChecksumSize p.checksum.id

/-- What the dictionary record of the one-shot call takes, when there is one. -/
def dictRecordSize (zstd : Option CodecVt) (srcSize : Nat) (p : XqParams) : Nat :=
  if dictSizeFor srcSize p.dictSize ≠ 0 ∧ codecIdHasDict zstd p.codec.id then
    recordHeaderSize + dictPayloadHeader + dictSizeFor srcSize p.dictSize
  else 0

/-- The sum the formula stands for, for a given number of blocks. -/
def boundTotal (zstd : Option CodecVt) (srcSize : Nat) (p : XqParams) (nblocks : Nat) : Nat :=
  fileHeaderSize + nblocks * blockOverhead p + srcSize + recordHeaderSize +
    (indexPreambleSize + indexEntrySize * (nblocks + 1) + recordHeaderSize) + footerSize +
    dictRecordSize zstd srcSize p

/-- The number of blocks, as the 64-bit arithmetic computes it. -/
theorem boundBlocks_toNat (srcSize : UInt64) {p : XqParams} {k : Nat} (least : 12 ≤ k)
    (most : k ≤ 28) (size : p.effectiveBlockSize = 2 ^ k) :
    (boundBlocks srcSize p).toNat =
      max ((srcSize.toNat + 2 ^ k - 1) % 2 ^ 64 / 2 ^ k) 1 := by
  -- The rounding up is done in the word, and a count of zero is made one.
  have small : 2 ^ k ≤ 2 ^ 28 := Nat.pow_le_pow_right (by decide) most
  have large : 2 ^ 12 ≤ 2 ^ k := Nat.pow_le_pow_right (by decide) least
  have value : (UInt64.ofNat (2 ^ k)).toNat = 2 ^ k := UInt64.toNat_ofNat_of_lt' (by
    have word : UInt64.size = 2 ^ 64 := rfl
    omega)
  have one : (1 : UInt64).toNat = 1 := rfl
  have range := srcSize.toNat_lt
  rw [boundBlocks, size]
  have rounded :
      (srcSize + UInt64.ofNat (2 ^ k) - 1).toNat = (srcSize.toNat + 2 ^ k - 1) % 2 ^ 64 := by
    rw [UInt64.toNat_sub, UInt64.toNat_add, value, one]
    generalize 2 ^ k = b at small large ⊢
    omega
  have quotient : ((srcSize + UInt64.ofNat (2 ^ k) - 1) / UInt64.ofNat (2 ^ k)).toNat =
      (srcSize.toNat + 2 ^ k - 1) % 2 ^ 64 / 2 ^ k := by
    rw [UInt64.toNat_div, rounded, value]
  rw [← quotient]
  generalize (srcSize + UInt64.ofNat (2 ^ k) - 1) / UInt64.ofNat (2 ^ k) = n
  by_cases none : n = 0
  · rw [if_pos none, none]
    rfl
  · have some_block : n.toNat ≠ 0 := fun zero => none (UInt64.toNat_inj.mp zero)
    rw [if_neg none, max_eq_left (Nat.one_le_iff_ne_zero.mpr some_block)]

theorem boundBlocks_le (srcSize : UInt64) {p : XqParams} {k : Nat} (least : 12 ≤ k)
    (most : k ≤ 28) (size : p.effectiveBlockSize = 2 ^ k) :
    (boundBlocks srcSize p).toNat ≤ 2 ^ 52 := by
  -- Blocks have at least 4 KiB.
  have large : 2 ^ 12 ≤ 2 ^ k := Nat.pow_le_pow_right (by decide) least
  have quotient : (srcSize.toNat + 2 ^ k - 1) % 2 ^ 64 / 2 ^ k ≤ 2 ^ 64 / 2 ^ 12 :=
    Nat.div_le_div (Nat.mod_lt _ (by decide)).le large (by decide)
  rw [boundBlocks_toNat srcSize least most size]
  exact max_le quotient (by decide)

theorem dictSizeFor_le (rawSize requested : Nat) : dictSizeFor rawSize requested ≤ dictSizeMax := by
  -- The last clamp is that of the format.
  rw [dictSizeFor]
  dsimp only
  split_ifs
  all_goals omega

/-- The sums of the formula behind the number of blocks. -/
def compressBoundFrom (zstd : Option CodecVt) (srcSize : UInt64) (p : XqParams)
    (nblocks : UInt64) : Option UInt64 := do
  let blocks ← mulU64Ok nblocks (UInt64.ofNat (blockOverhead p))
  let total ← addU64Ok (UInt64.ofNat fileHeaderSize) blocks
  let total ← addU64Ok total srcSize
  let total ← addU64Ok total (UInt64.ofNat recordHeaderSize)
  let idx := fmtIndexPayloadSize nblocks
  if idx = 0 then none
  let total ← addU64Ok total (idx + UInt64.ofNat recordHeaderSize)
  let total ← addU64Ok total (UInt64.ofNat footerSize)
  let dictLen := dictSizeFor srcSize.toNat p.dictSize
  if dictLen ≠ 0 ∧ codecIdHasDict zstd p.codec.id then
    addU64Ok total (UInt64.ofNat (recordHeaderSize + dictPayloadHeader + dictLen))
  else some total

theorem compressBoundSum_from (zstd : Option CodecVt) (srcSize : UInt64) (p : XqParams) :
    compressBoundSum zstd srcSize p =
      compressBoundFrom zstd srcSize p (boundBlocks srcSize p) := rfl

/-- The index of so few blocks has a size that does not wrap. -/
theorem fmtIndexPayloadSize_few {nblocks : UInt64} (few : nblocks.toNat ≤ 2 ^ 52) :
    (fmtIndexPayloadSize nblocks).toNat =
      indexPreambleSize + indexEntrySize * (nblocks.toNat + 1) := by
  -- Each of the source's checked additions and its multiplication stays in the word.
  have one : (1 : UInt64).toNat = 1 := rfl
  have sixteen : (16 : UInt64).toNat = 16 := rfl
  have head : (24 : UInt64).toNat = 24 := rfl
  have size : indexEntrySize = 16 := rfl
  have preamble : indexPreambleSize = 24 := rfl
  have next : (nblocks + 1).toNat = nblocks.toNat + 1 := by
    rw [UInt64.toNat_add, one]
    omega
  have bytes : ((nblocks + 1) * 16).toNat = (nblocks.toNat + 1) * 16 := by
    rw [UInt64.toNat_mul, next, sixteen]
    omega
  rw [fmtIndexPayloadSize, addU64Ok, if_pos (by rw [one]; omega)]
  dsimp only
  rw [mulU64Ok, if_pos (by rw [next, sixteen]; omega)]
  dsimp only
  rw [addU64Ok, if_pos (by rw [bytes, head]; omega)]
  dsimp only
  rw [UInt64.toNat_add, bytes, head, size, preamble]
  omega

/-- A bounded number is a 64-bit word. -/
theorem toNat_ofNat_small {n : Nat} (small : n < 2 ^ 64) : (UInt64.ofNat n).toNat = n :=
  UInt64.toNat_ofNat_of_lt' small

theorem sums_agree {a b : Nat} (same : a = b) :
    (if a < 2 ^ 64 then some (UInt64.ofNat a) else none) =
      if b < 2 ^ 64 then some (UInt64.ofNat b) else none := by
  -- The two sums are one number.
  rw [same]

/-- The formula is its sum, or zero when that does not fit. -/
theorem compressBoundFrom_eq (zstd : Option CodecVt) (srcSize : UInt64) (p : XqParams)
    {nblocks : UInt64} (few : nblocks.toNat ≤ 2 ^ 52) :
    compressBoundFrom zstd srcSize p nblocks =
      let total := boundTotal zstd srcSize.toNat p nblocks.toNat
      if total < 2 ^ 64 then some (UInt64.ofNat total) else none := by
  -- The product and the index size are small, so only the sum of the parts can leave the word.
  have checksum := fmtChecksumSize_le p.checksum.id
  have dict := dictSizeFor_le srcSize.toNat p.dictSize
  have header : blockHeaderSize = 24 := rfl
  have per_le : blockOverhead p ≤ 32 := by
    rw [blockOverhead, header]
    omega
  have per := toNat_ofNat_small (n := blockOverhead p) (by omega)
  have product : nblocks.toNat * blockOverhead p ≤ 2 ^ 52 * 32 := Nat.mul_le_mul few per_le
  have index := fmtIndexPayloadSize_few few
  have size : indexEntrySize = 16 := rfl
  have preamble : indexPreambleSize = 24 := rfl
  have indexed : fmtIndexPayloadSize nblocks ≠ 0 := fun none => by
    rw [none, preamble] at index
    have zero : (0 : UInt64).toNat = 0 := rfl
    omega
  rw [compressBoundFrom, mulU64Ok, per, if_pos (by omega)]
  simp only [Option.bind_eq_bind, Option.bind_some, indexed, if_false]
  -- The parts of the sum, as numbers.
  have blocks : (nblocks * UInt64.ofNat (blockOverhead p)).toNat =
      nblocks.toNat * blockOverhead p := by
    rw [UInt64.toNat_mul, per]
    omega
  have record : (fmtIndexPayloadSize nblocks + UInt64.ofNat recordHeaderSize).toNat =
      indexPreambleSize + indexEntrySize * (nblocks.toNat + 1) + recordHeaderSize := by
    have word : (UInt64.ofNat recordHeaderSize).toNat = recordHeaderSize := rfl
    have framing : recordHeaderSize = 14 := rfl
    rw [UInt64.toNat_add, index, word, framing, size, preamble]
    omega
  have front : (UInt64.ofNat fileHeaderSize).toNat = fileHeaderSize := rfl
  have ended : (UInt64.ofNat recordHeaderSize).toNat = recordHeaderSize := rfl
  have foot : (UInt64.ofNat footerSize).toNat = footerSize := rfl
  rw [boundTotal, dictRecordSize]
  by_cases used : dictSizeFor srcSize.toNat p.dictSize ≠ 0 ∧ codecIdHasDict zstd p.codec.id = true
  · have most : recordHeaderSize + dictPayloadHeader + dictSizeMax < 2 ^ 64 := by decide
    -- A dictionary adds its record to the sum.
    have dictionary := toNat_ofNat_small
      (n := recordHeaderSize + dictPayloadHeader + dictSizeFor srcSize.toNat p.dictSize) (by omega)
    have sum := sumU64_eq (UInt64.ofNat fileHeaderSize)
      [nblocks * UInt64.ofNat (blockOverhead p), srcSize, UInt64.ofNat recordHeaderSize,
        fmtIndexPayloadSize nblocks + UInt64.ofNat recordHeaderSize, UInt64.ofNat footerSize,
        UInt64.ofNat (recordHeaderSize + dictPayloadHeader +
          dictSizeFor srcSize.toNat p.dictSize)]
    simp only [sumU64, List.foldlM_cons, List.foldlM_nil, Option.bind_eq_bind, Option.pure_def,
      Option.bind_fun_some, List.map_cons, List.map_nil, List.sum_cons, List.sum_nil, front,
      blocks, ended, record, foot, dictionary] at sum
    simp only [if_pos used]
    rw [sum]
    exact sums_agree (by omega)
  · have sum := sumU64_eq (UInt64.ofNat fileHeaderSize)
      [nblocks * UInt64.ofNat (blockOverhead p), srcSize, UInt64.ofNat recordHeaderSize,
        fmtIndexPayloadSize nblocks + UInt64.ofNat recordHeaderSize, UInt64.ofNat footerSize]
    simp only [sumU64, List.foldlM_cons, List.foldlM_nil, Option.bind_eq_bind, Option.pure_def,
      List.map_cons, List.map_nil, List.sum_cons, List.sum_nil, front,
      blocks, ended, record, foot] at sum
    simp only [if_neg used]
    rw [sum]
    exact sums_agree (by omega)

/-- The worst size of a container, in unbounded arithmetic. -/
def worstCaseSize (zstd : Option CodecVt) (srcSize : Nat) (p : XqParams) : Nat :=
  boundTotal zstd srcSize p ((srcSize + p.effectiveBlockSize - 1) / p.effectiveBlockSize)

/-- More blocks take more, and a block some bytes at least. -/
theorem boundTotal_blocks (zstd : Option CodecVt) (srcSize : Nat) (p : XqParams) {m n : Nat}
    (fewer : m ≤ n) :
    boundTotal zstd srcSize p m + indexEntrySize * (n - m) ≤ boundTotal zstd srcSize p n := by
  -- Each block adds its overhead and its index entry.
  have blocks : m * blockOverhead p ≤ n * blockOverhead p := Nat.mul_le_mul_right _ fewer
  have size : indexEntrySize = 16 := rfl
  rw [boundTotal, boundTotal, size]
  omega

/-- The bound as a number: the sum, or zero. -/
theorem compressBound_toNat (zstd : Option CodecVt) (srcSize : UInt64) {p : XqParams} {k : Nat}
    (least : 12 ≤ k) (most : k ≤ 28) (size : p.effectiveBlockSize = 2 ^ k) :
    (compressBound zstd srcSize (some p)).toNat =
      let total := boundTotal zstd srcSize.toNat p (boundBlocks srcSize p).toNat
      if total < 2 ^ 64 then total else 0 := by
  -- The word computed is the formula over the rounded-up count.
  rw [compressBound, Option.getD_some, compressBoundSum_from,
    compressBoundFrom_eq zstd srcSize p (boundBlocks_le srcSize least most size)]
  dsimp only
  split
  · rename_i fits
    exact toNat_ofNat_small fits
  · rfl

/--
The bound covers the worst case, or is zero, exactly where the rounded-up block count does not wrap.

A source within one block of 2^64 makes that count wrap to a single block. The sum then still fits
unless the source is so near to 2^64 that even one block's overhead makes it wrap, which is caught.
-/
theorem compressBound_covers_iff {zstd : Option CodecVt} {p : XqParams}
    (accepted : paramsCheck (codecAvailable zstd) p = .ok) (srcSize : UInt64) :
    (compressBound zstd srcSize (some p) = 0 ∨
      worstCaseSize zstd srcSize.toNat p ≤ (compressBound zstd srcSize (some p)).toNat) ↔
      srcSize.toNat + p.effectiveBlockSize ≤ 2 ^ 64 ∨
        2 ^ 64 ≤ boundTotal zstd srcSize.toNat p 1 := by
  obtain ⟨_, _, _, _, k, least, most, size⟩ := paramsCheck_ok accepted
  have value := compressBound_toNat zstd srcSize least most size
  have blocks := boundBlocks_toNat srcSize least most size
  have small : 2 ^ k ≤ 2 ^ 28 := Nat.pow_le_pow_right (by decide) most
  have large : 2 ^ 12 ≤ 2 ^ k := Nat.pow_le_pow_right (by decide) least
  have range := srcSize.toNat_lt
  have zero : compressBound zstd srcSize (some p) = 0 ↔
      (compressBound zstd srcSize (some p)).toNat = 0 :=
    ⟨fun none => by rw [none]; rfl, fun none => UInt64.toNat_inj.mp none⟩
  have positive : ∀ n, 0 < boundTotal zstd srcSize.toNat p n := fun n => by
    have header : fileHeaderSize = 32 := rfl
    rw [boundTotal]
    omega
  dsimp only at value
  rw [zero, value, worstCaseSize, size, blocks]
  by_cases wraps : srcSize.toNat + 2 ^ k ≤ 2 ^ 64
  · -- Without a wrap the count is exact, but for the block an empty source still counts.
    have rounded : (srcSize.toNat + 2 ^ k - 1) % 2 ^ 64 = srcSize.toNat + 2 ^ k - 1 :=
      Nat.mod_eq_of_lt (by omega)
    rw [rounded]
    have covers := boundTotal_blocks zstd srcSize.toNat p
      (Nat.le_max_left ((srcSize.toNat + 2 ^ k - 1) / 2 ^ k) 1)
    refine iff_of_true ?_ (.inl wraps)
    split
    · right
      omega
    · left
      rfl
  · -- With a wrap the count comes to one.
    have rounded : (srcSize.toNat + 2 ^ k - 1) % 2 ^ 64 = srcSize.toNat + 2 ^ k - 1 - 2 ^ 64 := by
      omega
    have lone : (srcSize.toNat + 2 ^ k - 1 - 2 ^ 64) / 2 ^ k = 0 := Nat.div_eq_of_lt (by omega)
    rw [rounded, lone, max_eq_right (Nat.zero_le 1)]
    by_cases fits : boundTotal zstd srcSize.toNat p 1 < 2 ^ 64
    · -- The real count is far from one.
      have many : 2 ≤ (srcSize.toNat + 2 ^ k - 1) / 2 ^ k :=
        (Nat.le_div_iff_mul_le (by omega)).mpr (by omega)
      have more := boundTotal_blocks zstd srcSize.toNat p (Nat.le_of_succ_le many)
      have entry : indexEntrySize = 16 := rfl
      rw [if_pos fits]
      have some_size := positive 1
      rw [entry] at more
      refine iff_of_false ?_ ?_
      · omega
      · omega
    · -- The sum over one block leaves the word as well, and the bound is zero.
      rw [if_neg fits]
      exact iff_of_true (.inl rfl) (.inr (Nat.not_lt.mp fits))

/-- Stored blocks of 64 KiB, without checksums or dictionary. -/
def wrappingParams : XqParams :=
  { level := 6, blockSize := 65536, dictSize := 0, codec := .stored, checksum := .none,
    threads := 1, memLimit := 0 }

/-- At 65535 below 2^64 the count wraps, and the bound says nothing of 2^48 blocks. -/
theorem compressBound_wraps : ¬ ∀ (srcSize : UInt64) (p : XqParams),
    paramsCheck (codecAvailable none) p = .ok → compressBound none srcSize (some p) = 0 ∨
      worstCaseSize none srcSize.toNat p ≤ (compressBound none srcSize (some p)).toNat := by
  -- At this size both numbers are evaluated.
  intro covers
  have wrong := covers 18446744073709486081 wrappingParams (by decide +kernel)
  revert wrong
  decide +kernel

/-- The two sides of the equivalence, where neither holds. -/
theorem compressBound_covers_iff_wrapping :
    (compressBound none 18446744073709486081 (some wrappingParams) = 0 ∨
      worstCaseSize none (18446744073709486081 : UInt64).toNat wrappingParams ≤
        (compressBound none 18446744073709486081 (some wrappingParams)).toNat) ↔
      (18446744073709486081 : UInt64).toNat + wrappingParams.effectiveBlockSize ≤ 2 ^ 64 ∨
        2 ^ 64 ≤ boundTotal none (18446744073709486081 : UInt64).toNat wrappingParams 1 :=
  compressBound_covers_iff (by decide +kernel) 18446744073709486081

end Xq
