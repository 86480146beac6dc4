import Mathlib.Algebra.BigOperators.Field
import Mathlib.Algebra.Order.BigOperators.Group.Finset
import Mathlib.Algebra.Order.Field.Rat
import Mathlib.Logic.Equiv.Basic
import Mathlib.Tactic.Linarith
import Mathlib.Tactic.Positivity
import Mathlib.Tactic.Ring

/-! The least cost of a prefix code: the two lightest of its symbols may be siblings. -/

namespace Xq.Lib

variable {ι : Type}

/-- What a choice of code lengths costs under some weights. -/
def codeCost (s : Finset ι) (w len : ι → Nat) : Nat := ∑ i ∈ s, w i * len i

/-- The Kraft sum of a choice of code lengths. -/
def kraftOf (s : Finset ι) (len : ι → Nat) : ℚ := ∑ i ∈ s, (1 / 2 : ℚ) ^ len i

section Sums

variable {s : Finset ι}

/-- A Kraft sum is at most one when the codes, counted in the longest length, fit. -/
theorem kraftOf_le_one {len : ι → Nat} {m : Nat} (longest : ∀ i ∈ s, len i ≤ m) :
    kraftOf s len ≤ 1 ↔ ∑ i ∈ s, 2 ^ (m - len i) ≤ 2 ^ m := by
  -- Multiplied by the power of the longest length, every code becomes a whole number of leaves.
  have scaled : (2 : ℚ) ^ m * kraftOf s len = ((∑ i ∈ s, 2 ^ (m - len i) : Nat) : ℚ) := by
    rw [kraftOf, Finset.mul_sum]
    push_cast
    refine Finset.sum_congr rfl fun i member => ?_
    rw [pow_sub₀ _ two_ne_zero (longest i member), one_div, inv_pow]
  have positive : (0 : ℚ) < 2 ^ m := by positivity
  rw [← mul_le_mul_iff_right₀ positive, scaled, mul_one]
  exact_mod_cast Iff.rfl

variable [DecidableEq ι]

/-- Two terms of a sum, and the rest of it. -/
theorem sum_two_rest {M : Type} [AddCommMonoid M] {x y : ι} (left : x ∈ s) (right : y ∈ s)
    (apart : x ≠ y) (g : ι → M) :
    ∑ i ∈ s, g i = g x + (g y + ∑ i ∈ (s.erase x).erase y, g i) := by
  -- The terms are taken out of the sum one after the other.
  rw [← Finset.add_sum_erase s g left,
    ← Finset.add_sum_erase (s.erase x) g (Finset.mem_erase.mpr ⟨apart.symm, right⟩)]

/-- The longer of two lengths is better given to the lighter symbol. -/
theorem exchange_le {w len : ι → Nat} {x y : ι} (left : x ∈ s) (right : y ∈ s)
    (lighter : w x ≤ w y) (shorter : len x ≤ len y) :
    kraftOf s (fun i => len (Equiv.swap x y i)) = kraftOf s len ∧
      codeCost s w (fun i => len (Equiv.swap x y i)) ≤ codeCost s w len := by
  by_cases same : x = y
  · have unmoved : (fun i => len (Equiv.swap x y i)) = len := by
      rw [same, Equiv.swap_self]
      rfl
    rw [unmoved]
    exact ⟨rfl, Nat.le_refl _⟩
  -- All other symbols keep their lengths.
  have others (M : Type) [AddCommMonoid M] (g : ι → Nat → M) :
      ∑ i ∈ (s.erase x).erase y, g i (len (Equiv.swap x y i)) =
        ∑ i ∈ (s.erase x).erase y, g i (len i) := by
    refine Finset.sum_congr rfl fun i member => ?_
    obtain ⟨not_y, member⟩ := Finset.mem_erase.mp member
    rw [Equiv.swap_apply_of_ne_of_ne (Finset.mem_erase.mp member).1 not_y]
  constructor
  · -- The two lengths change places, and the sum does not see in which order they come.
    rw [kraftOf, kraftOf, sum_two_rest left right same, sum_two_rest left right same,
      Equiv.swap_apply_left, Equiv.swap_apply_right, others ℚ fun _ l => (1 / 2 : ℚ) ^ l]
    ring
  · rw [codeCost, codeCost, sum_two_rest left right same, sum_two_rest left right same,
      Equiv.swap_apply_left, Equiv.swap_apply_right, others ℕ fun i l => w i * l]
    -- The heavier symbol gains as many bits as the lighter one loses.
    obtain ⟨d, weight⟩ := Nat.exists_eq_add_of_le lighter
    obtain ⟨e, length⟩ := Nat.exists_eq_add_of_le shorter
    rw [weight, length]
    nlinarith [Nat.zero_le (d * e)]

/-- A length longer than all others can be cut by one. -/
theorem shorten_le {len : ι → Nat} {z : ι} (member : z ∈ s) (several : 1 < s.card)
    (longest : ∀ i ∈ s, i ≠ z → len i < len z) (kraft : kraftOf s len ≤ 1) :
    0 < len z ∧ kraftOf s (Function.update len z (len z - 1)) ≤ 1 := by
  -- There is another code, and the single longest one is longer than it.
  obtain ⟨j, there, other⟩ : ∃ j ∈ s, j ≠ z := Finset.exists_mem_ne several z
  obtain ⟨m, top⟩ : ∃ m, len z = m + 1 := ⟨len z - 1, by have := longest j there other; omega⟩
  have below : ∀ i ∈ s.erase z, len i ≤ m := fun i inside => by
    obtain ⟨apart, inside⟩ := Finset.mem_erase.mp inside
    have := longest i inside apart
    omega
  -- Counted in the longest length, all other codes come in pairs.
  have pairs : ∑ i ∈ s.erase z, 2 ^ (m + 1 - len i) = 2 * ∑ i ∈ s.erase z, 2 ^ (m - len i) := by
    rw [Finset.mul_sum]
    refine Finset.sum_congr rfl fun i inside => ?_
    rw [Nat.succ_sub (below i inside), Nat.pow_succ']
  have bound : ∀ i ∈ s, len i ≤ m + 1 := fun i inside => by
    by_cases apart : i = z
    · rw [apart, top]
    · exact Nat.le_succ_of_le (below i (Finset.mem_erase.mpr ⟨apart, inside⟩))
  have counted := (kraftOf_le_one bound).mp kraft
  rw [← Finset.add_sum_erase s _ member, top, Nat.sub_self, pairs, Nat.pow_succ] at counted
  -- After the cut, no length is above `m`, and the sum is counted in `m` bits.
  have shorter : ∀ i ∈ s, Function.update len z (len z - 1) i ≤ m := fun i inside => by
    by_cases apart : i = z
    · rw [apart, Function.update_self, top, Nat.add_sub_cancel]
    · rw [Function.update_of_ne apart]
      exact below i (Finset.mem_erase.mpr ⟨apart, inside⟩)
  refine ⟨by omega, (kraftOf_le_one shorter).mpr ?_⟩
  rw [← Finset.add_sum_erase s _ member, Function.update_self, top, Nat.add_sub_cancel,
    Nat.sub_self, Finset.sum_congr rfl fun i inside => by
      rw [Function.update_of_ne (Finset.mem_erase.mp inside).1]]
  omega

end Sums

section Lightest

variable [DecidableEq ι] {s : Finset ι} {w : ι → Nat} {a b : ι}

/-- Two codes without a bit do not fit together. -/
theorem kraftOf_length_pos {len : ι → Nat} (left : a ∈ s) (right : b ∈ s) (apart : a ≠ b)
    (same : len a = len b) (kraft : kraftOf s len ≤ 1) : 0 < len a := by
  by_contra none
  -- Two codes of no bits would already make two.
  have zero : len a = 0 := by omega
  rw [kraftOf, sum_two_rest left right apart, ← same, zero, pow_zero] at kraft
  have rest : (0 : ℚ) ≤ ∑ i ∈ (s.erase a).erase b, (1 / 2 : ℚ) ^ len i :=
    Finset.sum_nonneg fun _ _ => by positivity
  linarith

/-- Among the codes of least cost there is one in which the two lightest symbols have the same
length. -/
theorem exists_siblings (left : a ∈ s) (right : b ∈ s) (apart : a ≠ b)
    (lightest : ∀ x ∈ s, w a ≤ w x) (second : ∀ x ∈ s, x ≠ a → w b ≤ w x) (len : ι → Nat)
    (kraft : kraftOf s len ≤ 1) :
    ∃ len', kraftOf s len' ≤ 1 ∧ codeCost s w len' ≤ codeCost s w len ∧ len' a = len' b := by
  have several : 1 < s.card := Finset.one_lt_card.mpr ⟨a, left, b, right, apart⟩
  -- The induction is on all bits together.
  induction total : ∑ i ∈ s, len i using Nat.strong_induction_on generalizing len with
  | _ total ih =>
    obtain ⟨z, member, longest⟩ := Finset.exists_max_image s len ⟨a, left⟩
    by_cases twin : ∃ y ∈ s, y ≠ z ∧ len y = len z
    · -- With two longest codes, the two lightest symbols take them.
      obtain ⟨y, there, other, same⟩ := twin
      obtain ⟨kept, cheaper⟩ := exchange_le left member (lightest z member) (longest a left)
      have inside : ∀ i ∈ s, Equiv.swap a z i ∈ s := fun i there => by
        rw [Equiv.swap_apply_def]
        split_ifs
        · exact member
        · exact left
        · exact there
      have moved : Equiv.swap a z y ≠ a := fun here => other (by
        have := congrArg (Equiv.swap a z) here
        rwa [Equiv.swap_apply_self, Equiv.swap_apply_left] at this)
      have top : len (Equiv.swap a z (Equiv.swap a z y)) = len z := by
        rw [Equiv.swap_apply_self, same]
      have shorter : len (Equiv.swap a z b) ≤ len (Equiv.swap a z (Equiv.swap a z y)) := by
        rw [top]
        exact longest _ (inside b right)
      obtain ⟨kept', cheaper'⟩ := @exchange_le _ s _ w (fun i => len (Equiv.swap a z i)) _ _
        right (inside y there) (second _ (inside y there) moved) shorter
      refine ⟨_, by rwa [kept', kept], cheaper'.trans cheaper, ?_⟩
      rw [Equiv.swap_apply_of_ne_of_ne apart moved.symm, Equiv.swap_apply_left,
        Equiv.swap_apply_left, top]
    · -- A single longest code is cut by one bit.
      have single : ∀ i ∈ s, i ≠ z → len i < len z := fun i there other =>
        Nat.lt_of_le_of_ne (longest i there) fun same => twin ⟨i, there, other, same⟩
      obtain ⟨positive, shorter⟩ := shorten_le member several single kraft
      -- Any weighted sum of the lengths falls by the weight of that symbol.
      have fewer (c : ι → Nat) : ∑ i ∈ s, c i * Function.update len z (len z - 1) i + c z =
          ∑ i ∈ s, c i * len i := by
        rw [← Finset.add_sum_erase s _ member, ← Finset.add_sum_erase s (fun i => c i * len i) member,
          Function.update_self, Finset.sum_congr rfl fun i inside => by
            rw [Function.update_of_ne (Finset.mem_erase.mp inside).1]]
        obtain ⟨d, top⟩ : ∃ d, len z = d + 1 := ⟨len z - 1, by omega⟩
        rw [top, Nat.add_sub_cancel, Nat.mul_succ]
        omega
      have bits := fewer fun _ => 1
      simp only [Nat.one_mul] at bits
      obtain ⟨len', kraft', cheaper, siblings⟩ := ih _ (by omega) _ shorter rfl
      have cost := fewer w
      refine ⟨len', kraft', cheaper.trans ?_, siblings⟩
      rw [codeCost, codeCost]
      omega

/-- Joining the two lightest symbols into one of their weight costs the bit that tells them apart,
and nothing more. -/
theorem join_le (left : a ∈ s) (right : b ∈ s) (apart : a ≠ b)
    (lightest : ∀ x ∈ s, w a ≤ w x) (second : ∀ x ∈ s, x ≠ a → w b ≤ w x) {p : ι}
    (fresh : p ∉ s) {len : ι → Nat} (kraft : kraftOf s len ≤ 1) :
    ∃ len', kraftOf (insert p ((s.erase a).erase b)) len' ≤ 1 ∧
      codeCost (insert p ((s.erase a).erase b)) (Function.update w p (w a + w b)) len' +
        (w a + w b) ≤ codeCost s w len := by
  obtain ⟨len', kraft', cheaper, siblings⟩ :=
    exists_siblings left right apart lightest second len kraft
  -- The two siblings have at least one bit, so one can be taken off both.
  have positive := kraftOf_length_pos left right apart siblings kraft'
  obtain ⟨d, length⟩ : ∃ d, len' a = d + 1 := ⟨len' a - 1, by omega⟩
  have outside : p ∉ (s.erase a).erase b := fun member =>
    fresh (Finset.mem_of_mem_erase (Finset.mem_of_mem_erase member))
  have other : ∀ i ∈ (s.erase a).erase b, i ≠ p := fun i member same => outside (same ▸ member)
  refine ⟨Function.update len' p d, ?_, ?_⟩
  · -- A code of one bit less takes the space of two.
    rw [kraftOf, sum_two_rest left right apart, ← siblings, length] at kraft'
    rw [kraftOf, Finset.sum_insert outside, Function.update_self, Finset.sum_congr rfl
      fun i member => by rw [Function.update_of_ne (other i member)]]
    rw [pow_succ] at kraft'
    linarith
  · -- The bit taken off was paid for by the weight of both.
    refine Nat.le_trans (Nat.le_of_eq ?_) cheaper
    rw [codeCost, codeCost, sum_two_rest left right apart, ← siblings, length,
      Finset.sum_insert outside, Function.update_self, Function.update_self,
      Finset.sum_congr rfl fun i member => by
        rw [Function.update_of_ne (other i member), Function.update_of_ne (other i member)]]
    ring

end Lightest

end Xq.Lib
