import Mathlib.Algebra.BigOperators.Field
import Mathlib.Algebra.BigOperators.Fin
import Mathlib.Data.Nat.Bitwise
import Mathlib.Data.Nat.ModEq
import Mathlib.Data.Rat.Defs
import Mathlib.Tactic.FieldSimp
import Mathlib.Tactic.Ring

/-! Canonical prefix codes: codes handed out by length and then by symbol, and read backwards. -/

namespace Xq.Lib

/-- How many of the first `n` symbols have codes of length `b`; length zero means no code. -/
def lengthCount (n : Nat) (len : Nat → Nat) (b : Nat) : Nat :=
  if b = 0 then 0 else ((List.range n).filter fun i => len i = b).length

theorem lengthCount_succ (n : Nat) (len : Nat → Nat) (b : Nat) :
    lengthCount (n + 1) len b = lengthCount n len b + if b ≠ 0 ∧ len n = b then 1 else 0 := by
  -- Only the last symbol is new, and it counts where it has the length.
  by_cases zero : b = 0
  · simp [lengthCount, zero]
  · by_cases same : len n = b <;> simp [lengthCount, zero, List.range_succ, same]

theorem lengthCount_mono {m n : Nat} (less : m ≤ n) (len : Nat → Nat) (b : Nat) :
    lengthCount m len b ≤ lengthCount n len b := by
  -- The induction is on the symbols in between.
  induction less with
  | refl => exact Nat.le_refl _
  | step _ ih => exact Nat.le_trans ih (by rw [lengthCount_succ]; exact Nat.le_add_right _ _)

/-- A symbol's rank among those of its length is below their number. -/
theorem rank_lt {n i : Nat} {len : Nat → Nat} (within : i < n) (used : len i ≠ 0) :
    lengthCount i len (len i) < lengthCount n len (len i) := by
  -- The symbol itself is counted behind those in front of it.
  refine Nat.lt_of_lt_of_le ?_ (lengthCount_mono within len (len i))
  rw [lengthCount_succ, if_pos ⟨used, rfl⟩]
  exact Nat.lt_succ_self _

/-- The first code of each length. -/
def firstCode (count : Nat → Nat) : Nat → Nat
  | 0 => 0
  | b + 1 => (firstCode count b + count b) * 2

/-- The canonical code of a symbol: the first of its length, plus its rank. -/
def canonicalCode (n : Nat) (len : Nat → Nat) (i : Nat) : Nat :=
  firstCode (lengthCount n len) (len i) + lengthCount i len (len i)

/-- The code space taken by codes shorter than `b`, counted in codes of length `m`. -/
def taken (n : Nat) (len : Nat → Nat) (m b : Nat) : Nat :=
  ∑ i ∈ Finset.range n, if len i ≠ 0 ∧ len i < b then 2 ^ (m - len i) else 0

theorem taken_succ (n : Nat) (len : Nat → Nat) (m b : Nat) :
    taken n len m (b + 1) = taken n len m b + lengthCount n len b * 2 ^ (m - b) := by
  induction n with
  | zero => simp [taken, lengthCount]
  | succ n ih =>
    rw [taken, Finset.sum_range_succ, ← taken, ih, lengthCount_succ]
    rw [taken, taken, Finset.sum_range_succ, ← taken]
    -- The next symbol is shorter, of this length, longer, or without a code.
    by_cases same : len n = b
    · by_cases zero : b = 0
      · simp [same, zero]
      · simp [same, zero]
        ring
    · have lower : len n < b + 1 ↔ len n < b := by omega
      simp [same, lower]
      ring

theorem taken_mono {b c : Nat} (less : b ≤ c) (n : Nat) (len : Nat → Nat) (m : Nat) :
    taken n len m b ≤ taken n len m c := by
  -- The induction is on the lengths in between.
  induction less with
  | refl => exact Nat.le_refl _
  | step _ ih => exact Nat.le_trans ih (by rw [taken_succ]; exact Nat.le_add_right _ _)

/-- The Kraft sum of the symbols with codes. -/
def kraftSum (n : Nat) (len : Nat → Nat) : ℚ :=
  ∑ i ∈ (Finset.range n).filter (fun i => len i ≠ 0), (1 / 2 : ℚ) ^ len i

/-- All the code space taken is the Kraft sum, counted in codes of a length that none exceeds. -/
theorem taken_kraftSum {n m : Nat} {len : Nat → Nat} (longest : ∀ i, len i ≤ m) :
    (taken n len m (m + 1) : ℚ) = 2 ^ m * kraftSum n len := by
  -- Term by term: a code of length `l` takes `2 ^ (m - l)` of the longest codes.
  rw [taken, kraftSum, Finset.mul_sum, Finset.sum_filter]
  push_cast
  refine Finset.sum_congr rfl fun i _ => ?_
  have short := longest i
  by_cases used : len i ≠ 0
  · rw [if_pos ⟨used, Nat.lt_succ_of_le short⟩, if_pos used, pow_sub₀ _ two_ne_zero short,
      one_div, inv_pow]
  · rw [if_neg fun both => used both.1, if_neg used]

/-- The first code of a length starts where the shorter codes end. -/
theorem firstCode_scaled (n : Nat) (len : Nat → Nat) {m b : Nat} (within : b ≤ m) :
    firstCode (lengthCount n len) b * 2 ^ (m - b) = taken n len m b := by
  -- Going on by a length doubles the code and halves the space of each.
  induction b with
  | zero => simp [firstCode, taken]
  | succ b ih =>
    have half : 2 ^ (m - b) = 2 * 2 ^ (m - (b + 1)) := by
      rw [← Nat.pow_succ', ← Nat.succ_sub within, Nat.succ_sub_succ]
    rw [firstCode, Nat.mul_assoc, ← half, Nat.add_mul, ih (by omega), taken_succ]

/-- A code's interval ends before the codes of the next length begin. -/
theorem canonicalCode_end {n i m : Nat} {len : Nat → Nat} (within : i < n) (used : len i ≠ 0)
    (short : len i ≤ m) :
    (canonicalCode n len i + 1) * 2 ^ (m - len i) ≤ taken n len m (len i + 1) := by
  -- The code is that of its rank, and its rank is below the number of codes of its length.
  have rank := rank_lt within used
  rw [taken_succ, ← firstCode_scaled n len short, ← Nat.add_mul, canonicalCode]
  exact Nat.mul_le_mul_right _ (by omega)

/-- Codes are handed out from left to right: by length, then by symbol. -/
theorem canonicalCode_order {n i j m : Nat} {len : Nat → Nat} (within : i < n)
    (used : len i ≠ 0) (short : len j ≤ m) (order : len i < len j ∨ len i = len j ∧ i < j) :
    (canonicalCode n len i + 1) * 2 ^ (m - len i) ≤ canonicalCode n len j * 2 ^ (m - len j) := by
  rcases order with shorter | ⟨same, before⟩
  · -- A shorter code's interval ends before any code of the longer length.
    calc (canonicalCode n len i + 1) * 2 ^ (m - len i)
        ≤ taken n len m (len i + 1) := canonicalCode_end within used (by omega)
      _ ≤ taken n len m (len j) := taken_mono shorter n len m
      _ = firstCode (lengthCount n len) (len j) * 2 ^ (m - len j) :=
        (firstCode_scaled n len short).symm
      _ ≤ canonicalCode n len j * 2 ^ (m - len j) :=
        Nat.mul_le_mul_right _ (Nat.le_add_right _ _)
  · -- Within a length, the rank decides.
    have rank := rank_lt before used
    rw [canonicalCode, canonicalCode, ← same]
    exact Nat.mul_le_mul_right _ (by omega)

/-- When the codes fit into the code space, a code has no more bits than its length. -/
theorem canonicalCode_lt {n i m : Nat} {len : Nat → Nat} (within : i < n) (used : len i ≠ 0)
    (short : len i ≤ m) (kraft : taken n len m (m + 1) ≤ 2 ^ m) :
    canonicalCode n len i < 2 ^ len i := by
  -- In the longest length, the code ends inside the space that its own length has.
  have scale : 2 ^ m = 2 ^ len i * 2 ^ (m - len i) := by
    rw [← Nat.pow_add, Nat.add_sub_cancel' short]
  have bound : (canonicalCode n len i + 1) * 2 ^ (m - len i) ≤ 2 ^ len i * 2 ^ (m - len i) :=
    calc (canonicalCode n len i + 1) * 2 ^ (m - len i)
        ≤ taken n len m (len i + 1) := canonicalCode_end within used short
      _ ≤ taken n len m (m + 1) := taken_mono (Nat.succ_le_succ short) n len m
      _ ≤ 2 ^ len i * 2 ^ (m - len i) := scale ▸ kraft
  exact Nat.le_of_mul_le_mul_right bound (Nat.two_pow_pos _)

/-- The low `l` bits of a code, most significant first. -/
def reverseBits (c : Nat) : Nat → Nat
  | 0 => 0
  | l + 1 => reverseBits c l * 2 + c / 2 ^ l % 2

theorem reverseBits_lt (c l : Nat) : reverseBits c l < 2 ^ l := by
  -- The induction is on the length, and each bit doubles the bound.
  induction l with
  | zero => exact Nat.one_pos
  | succ l ih =>
    rw [reverseBits, Nat.pow_succ]
    have := Nat.mod_lt (c / 2 ^ l) (by decide : 0 < 2)
    omega

/-- The first bit of a code is the last of its reversal. -/
theorem reverseBits_succ (c l : Nat) :
    reverseBits c (l + 1) = c % 2 * 2 ^ l + reverseBits (c / 2) l := by
  -- The induction is on the length behind the first bit.
  induction l with
  | zero => simp [reverseBits]
  | succ l ih =>
    rw [reverseBits, ih, reverseBits, Nat.div_div_eq_div_mul, ← Nat.pow_succ']
    ring

/-- Cutting a reversed code keeps the leading bits of the code. -/
theorem reverseBits_mod (c l d : Nat) :
    reverseBits c (l + d) % 2 ^ l = reverseBits (c / 2 ^ d) l := by
  -- The induction is on the number of bits that are cut off.
  induction d generalizing c with
  | zero => simp [Nat.mod_eq_of_lt (reverseBits_lt c l)]
  | succ d ih =>
    rw [← Nat.add_assoc, reverseBits_succ, Nat.pow_add, ← Nat.mul_assoc, Nat.mul_comm (c % 2),
      Nat.mul_assoc, Nat.mul_add_mod, ih, Nat.div_div_eq_div_mul, ← Nat.pow_succ']

/-- The bits of a reversed code are those of the code, from the other end. -/
theorem reverseBits_testBit (c : Nat) {l k : Nat} (within : k < l) :
    (reverseBits c l).testBit k = c.testBit (l - 1 - k) := by
  -- The induction is on the length, which moves every bit up by one.
  induction l generalizing k with
  | zero => exact absurd within (Nat.not_lt_zero k)
  | succ l ih =>
    rw [reverseBits, Nat.add_sub_cancel]
    cases k with
    | zero =>
      -- The last bit of the reversal is the first of the code.
      rw [Nat.testBit_zero, Nat.testBit_eq_decide_div_mod_eq, Nat.sub_zero]
      congr 1
      rw [Nat.add_comm, Nat.add_mul_mod_self_right, Nat.mod_mod]
    | succ k =>
      have half : (reverseBits c l * 2 + c / 2 ^ l % 2) / 2 = reverseBits c l := by omega
      rw [Nat.testBit_succ, half, ih (Nat.lt_of_succ_lt_succ within)]
      congr 1
      omega

/-- Reversal loses nothing of the bits it covers. -/
theorem mod_eq_of_reverseBits_eq {c c' l : Nat} (same : reverseBits c l = reverseBits c' l) :
    c % 2 ^ l = c' % 2 ^ l := by
  -- Each step of the reversal shows one more bit of the code in its lowest place.
  induction l with
  | zero => simp [Nat.mod_one]
  | succ l ih =>
    rw [reverseBits, reverseBits] at same
    have low := ih (by omega)
    have bit : c / 2 ^ l % 2 = c' / 2 ^ l % 2 := by omega
    rw [Nat.mod_pow_succ, Nat.mod_pow_succ, low, bit]

/-- A slot belongs to a symbol when its low bits are the symbol's reversed code. -/
def Owns (n : Nat) (len : Nat → Nat) (i f : Nat) : Prop :=
  f % 2 ^ len i = reverseBits (canonicalCode n len i) (len i)

/-- No slot belongs to a symbol and to a later one in the order of the codes. -/
theorem not_owns_both {n i j m f : Nat} {len : Nat → Nat} (kraft : taken n len m (m + 1) ≤ 2 ^ m)
    (within : i < n ∧ j < n) (used : len i ≠ 0 ∧ len j ≠ 0) (short : len j ≤ m)
    (order : len i < len j ∨ len i = len j ∧ i < j)
    (left : Owns n len i f) (right : Owns n len j f) : False := by
  obtain ⟨d, length⟩ : ∃ d, len j = len i + d := ⟨len j - len i, by omega⟩
  -- Cutting the longer code to the shorter length leaves the shorter code.
  have cut : reverseBits (canonicalCode n len i) (len i) =
      reverseBits (canonicalCode n len j / 2 ^ d) (len i) := by
    rw [← left, ← reverseBits_mod, ← length, ← right, length,
      Nat.mod_mod_of_dvd _ (Nat.pow_dvd_pow 2 (Nat.le_add_right _ d))]
  have apart := canonicalCode_order within.1 used.1 short order
  have scale : 2 ^ (m - len i) = 2 ^ d * 2 ^ (m - len j) := by
    rw [← Nat.pow_add]
    congr 1
    omega
  -- So the two codes agree on the shorter length, although the shorter one's interval is over.
  have above : canonicalCode n len i + 1 ≤ canonicalCode n len j / 2 ^ d := by
    rw [Nat.le_div_iff_mul_le (Nat.two_pow_pos d)]
    rw [scale, ← Nat.mul_assoc] at apart
    exact Nat.le_of_mul_le_mul_right apart (Nat.two_pow_pos _)
  have room : canonicalCode n len j / 2 ^ d < 2 ^ len i := by
    rw [Nat.div_lt_iff_lt_mul (Nat.two_pow_pos d), ← Nat.pow_add, ← length]
    exact canonicalCode_lt within.2 used.2 short kraft
  have agree := mod_eq_of_reverseBits_eq cut
  rw [Nat.mod_eq_of_lt (by omega), Nat.mod_eq_of_lt room] at agree
  omega

/-- A slot belongs to one symbol at most. -/
theorem owns_unique {n i j m f : Nat} {len : Nat → Nat} (kraft : taken n len m (m + 1) ≤ 2 ^ m)
    (within : i < n ∧ j < n) (used : len i ≠ 0 ∧ len j ≠ 0) (short : len i ≤ m ∧ len j ≤ m)
    (left : Owns n len i f) (right : Owns n len j f) : i = j := by
  -- Two codes are in the order of their lengths, or else of their symbols, and neither owns what
  -- the other does.
  rcases Nat.lt_trichotomy (len i) (len j) with shorter | same | longer
  · exact (not_owns_both kraft within used short.2 (.inl shorter) left right).elim
  · rcases Nat.lt_trichotomy i j with before | equal | after
    · exact (not_owns_both kraft within used short.2 (.inr ⟨same, before⟩) left right).elim
    · exact equal
    · exact (not_owns_both kraft within.symm used.symm short.1 (.inr ⟨same.symm, after⟩) right
        left).elim
  · exact (not_owns_both kraft within.symm used.symm short.1 (.inl longer) right left).elim

end Xq.Lib
