import Mathlib.Algebra.BigOperators.Fin
import Mathlib.Algebra.Order.BigOperators.Group.Finset
import Mathlib.Algebra.Order.Field.Rat
import Mathlib.Data.List.GetD
import Mathlib.Data.List.Perm.Basic
import Mathlib.Tactic.Linarith
import Mathlib.Tactic.Positivity
import Mathlib.Tactic.Ring

/-! Forests grown by joining two roots under a new one, and the Kraft sum of their leaves. -/

namespace Xq.Lib

/-- Following parents from a node for a number of steps ends at another node. -/
inductive Climbs (parent : Nat → Option Nat) : Nat → Nat → Nat → Prop
  | here (i : Nat) : Climbs parent i 0 i
  | up {i p k r : Nat} (edge : parent i = some p) (rest : Climbs parent p k r) :
      Climbs parent i (k + 1) r

/-- A climb goes one step further when its end has a parent. -/
theorem Climbs.snoc {parent : Nat → Option Nat} {i k q r : Nat} (climb : Climbs parent i k q)
    (edge : parent q = some r) : Climbs parent i (k + 1) r := by
  -- The induction is on the climb, which is cut off at its beginning.
  induction climb with
  | here i => exact .up edge (.here r)
  | up first _ ih => exact .up first (ih edge)

/-- A climb uses edges only, so it survives where all edges do. -/
theorem Climbs.mono {parent parent' : Nat → Option Nat}
    (keep : ∀ i p, parent i = some p → parent' i = some p) {i k r : Nat}
    (climb : Climbs parent i k r) : Climbs parent' i k r := by
  -- The induction is on the climb, and each of its edges is kept.
  induction climb with
  | here i => exact .here i
  | up edge _ ih => exact .up (keep _ _ edge) ih

/-- Where every parent is younger than its child, a climb is no longer than the distance. -/
theorem Climbs.le {parent : Nat → Option Nat} (younger : ∀ i p, parent i = some p → i < p)
    {i k r : Nat} (climb : Climbs parent i k r) : i + k ≤ r := by
  -- The induction is on the climb, and each edge goes up by one at least.
  induction climb with
  | here i => exact Nat.le_refl _
  | up edge _ ih =>
    have := younger _ _ edge
    omega

/-- Moving the last element over a removed one leaves the others. -/
theorem swapRemove_perm {α : Type*} (xs : List α) (i : Nat) (within : i < xs.length) (d : α) :
    ((xs.set i (xs.getD (xs.length - 1) d)).take (xs.length - 1)).Perm (xs.eraseIdx i) := by
  -- The list is its last element behind the others.
  obtain ⟨front, last, rfl⟩ : ∃ front last, xs = front ++ [last] :=
    ⟨xs.dropLast, xs.getLast (List.ne_nil_of_length_pos (by omega)),
      (List.dropLast_append_getLast _).symm⟩
  have end_last : (front ++ [last]).getD ((front ++ [last]).length - 1) d = last := by simp
  have size : (front ++ [last]).length - 1 = front.length := by simp
  rw [end_last, size]
  rw [List.length_append, List.length_singleton] at within
  rcases Nat.lt_or_ge i front.length with inner | outer
  · -- The last element takes the removed one's place.
    rw [List.set_append_left _ _ inner, List.take_left' (by simp),
      List.eraseIdx_append_of_lt_length inner]
    exact (List.set_perm_cons_eraseIdx inner last).trans (List.perm_append_singleton _ _).symm
  · -- The last element is the removed one.
    obtain rfl : i = front.length := by omega
    rw [List.eraseIdx_append_of_length_le (Nat.le_refl _)]
    simp

/-- Writing a new element over one of two and closing the gap of the other exchanges them. -/
theorem replaceTwo_perm {α : Type*} (xs : List α) (x d : α) {lo hi : Nat} (order : lo < hi)
    (within : hi < xs.length) :
    (xs.getD lo d :: xs.getD hi d :: ((xs.set lo x).set hi
      ((xs.set lo x).getD (xs.length - 1) d)).take (xs.length - 1)).Perm (x :: xs) := by
  have inside : hi < (xs.set lo x).length := by simpa using within
  have removed := swapRemove_perm (xs.set lo x) hi inside d
  rw [List.length_set] at removed
  have high : xs.getD hi d = (xs.set lo x)[hi] := by
    rw [List.getElem_set_of_ne (by omega), List.getD_eq_getElem _ _ within]
  rw [high, List.getD_eq_getElem _ _ (order.trans within)]
  -- Put the higher one back, then trade the new element for the lower one.
  refine ((removed.cons _).cons _).trans ?_
  refine ((List.getElem_cons_eraseIdx_perm _).cons _).trans ?_
  refine ((List.set_perm_cons_eraseIdx (order.trans within) x).cons _).trans ?_
  exact (List.Perm.swap _ _ _).trans ((List.getElem_cons_eraseIdx_perm _).cons _)

/-- The two elements replaced may be named in either order. -/
theorem replaceTwo_perm_of_ne {α : Type*} (xs : List α) (x d : α) {a b : Nat} (apart : a ≠ b)
    (left : a < xs.length) (right : b < xs.length) :
    (xs.getD a d :: xs.getD b d :: ((xs.set (min a b) x).set (max a b)
      ((xs.set (min a b) x).getD (xs.length - 1) d)).take (xs.length - 1)).Perm (x :: xs) := by
  -- The lower of the two is the one the new element goes to.
  rcases Nat.lt_or_gt_of_ne apart with less | more
  · rw [Nat.min_eq_left less.le, Nat.max_eq_right less.le]
    exact replaceTwo_perm xs x d less right
  · rw [Nat.min_eq_right more.le, Nat.max_eq_left more.le]
    exact (List.Perm.swap _ _ _).trans (replaceTwo_perm xs x d more left)

/--
A forest of `n` leaves in which the live nodes are the roots.

Each leaf climbs to a root, and below every root the leaves' depths satisfy Kraft's equality.
-/
structure Forest (n : Nat) (parent : Nat → Option Nat) (live : List Nat) (total : Nat)
    (depth root : Nat → Nat) : Prop where
  nodup : live.Nodup
  below : ∀ r ∈ live, r < total
  rootless : ∀ r ∈ live, parent r = none
  younger : ∀ i p, parent i = some p → i < p ∧ i < total ∧ p < total
  climbs : ∀ i < n, Climbs parent i (depth i) (root i)
  rooted : ∀ i < n, root i ∈ live
  full : ∀ r ∈ live,
    ∑ i ∈ (Finset.range n).filter (fun i => root i = r), (1 / 2 : ℚ) ^ depth i = 1

/-- Before any join, every leaf is a root of its own. -/
theorem Forest.leaves (n : Nat) :
    Forest n (fun _ => none) (List.range n) n (fun _ => 0) (fun i => i) where
  nodup := List.nodup_range
  below _ member := List.mem_range.mp member
  rootless _ _ := rfl
  younger _ _ edge := by cases edge
  climbs i _ := .here i
  rooted _ within := List.mem_range.mpr within
  full r member := by
    -- Nothing has a parent yet, so every walk upwards stops where it starts.
    rw [Finset.filter_eq' (Finset.range n) r,
      if_pos (Finset.mem_range.mpr (List.mem_range.mp member))]
    simp

/-- A root that takes no part in a join keeps its leaves. -/
theorem Forest.filter_kept {n : Nat} {root : Nat → Nat} {a b total r : Nat} (ne_a : r ≠ a)
    (ne_b : r ≠ b) (ne_total : r ≠ total) :
    (Finset.range n).filter (fun i => (if root i = a ∨ root i = b then total else root i) = r) =
      (Finset.range n).filter fun i => root i = r := by
  -- A leaf below one of the joined roots was not below this one, and is not now.
  refine Finset.filter_congr fun i _ => ?_
  by_cases joined : root i = a ∨ root i = b
  · rw [if_pos joined]
    refine ⟨fun same => absurd same.symm ne_total, fun same => ?_⟩
    rcases joined with joined | joined
    · exact absurd (same.symm.trans joined) ne_a
    · exact absurd (same.symm.trans joined) ne_b
  · rw [if_neg joined]

/-- The leaves below a root, before and after a join that renames some roots. -/
theorem Forest.filter_root {n : Nat} {depth root : Nat → Nat} {a b total r : Nat}
    (ne_a : r ≠ a) (ne_b : r ≠ b) (ne_total : r ≠ total) :
    ∑ i ∈ (Finset.range n).filter
        (fun i => (if root i = a ∨ root i = b then total else root i) = r),
      (1 / 2 : ℚ) ^ (if root i = a ∨ root i = b then depth i + 1 else depth i) =
    ∑ i ∈ (Finset.range n).filter (fun i => root i = r), (1 / 2 : ℚ) ^ depth i := by
  rw [Forest.filter_kept ne_a ne_b ne_total]
  -- Its leaves keep their depths as well.
  refine Finset.sum_congr rfl fun i member => ?_
  have same : root i = r := (Finset.mem_filter.mp member).2
  rw [if_neg (by rw [same]; exact fun joined => joined.elim ne_a ne_b)]

/-- The leaves below the new root are those of the two roots it joins. -/
theorem Forest.sum_filter_joined {M : Type} [AddCommMonoid M] {n : Nat} {root : Nat → Nat}
    {a b total : Nat} (apart : a ≠ b) (fresh : ∀ i < n, root i ≠ total) (g : Nat → M) :
    ∑ i ∈ (Finset.range n).filter
        (fun i => (if root i = a ∨ root i = b then total else root i) = total), g i =
      ∑ i ∈ (Finset.range n).filter (fun i => root i = a), g i +
        ∑ i ∈ (Finset.range n).filter (fun i => root i = b), g i := by
  -- The two sets of leaves are disjoint, since a leaf has one root.
  have split : (Finset.range n).filter
        (fun i => (if root i = a ∨ root i = b then total else root i) = total) =
      (Finset.range n).filter (fun i => root i = a) ∪
        (Finset.range n).filter (fun i => root i = b) := by
    rw [← Finset.filter_or]
    refine Finset.filter_congr fun i member => ?_
    by_cases joined : root i = a ∨ root i = b
    · simp [joined]
    · simp [joined, fresh i (Finset.mem_range.mp member)]
  have disjoint : Disjoint ((Finset.range n).filter (fun i => root i = a))
      ((Finset.range n).filter (fun i => root i = b)) :=
    Finset.disjoint_filter.mpr fun i _ left right => apart (left.symm.trans right)
  rw [split, Finset.sum_union disjoint]

/-- Below the new root they are one step further down. -/
theorem Forest.sum_joined {n : Nat} {depth root : Nat → Nat} {a b total : Nat} (apart : a ≠ b)
    (fresh : ∀ i < n, root i ≠ total) :
    ∑ i ∈ (Finset.range n).filter
        (fun i => (if root i = a ∨ root i = b then total else root i) = total),
      (1 / 2 : ℚ) ^ (if root i = a ∨ root i = b then depth i + 1 else depth i) =
    1 / 2 * ∑ i ∈ (Finset.range n).filter (fun i => root i = a), (1 / 2 : ℚ) ^ depth i +
      1 / 2 * ∑ i ∈ (Finset.range n).filter (fun i => root i = b), (1 / 2 : ℚ) ^ depth i := by
  rw [Forest.sum_filter_joined apart fresh, Finset.mul_sum, Finset.mul_sum]
  -- On either side, the extra step contributes one factor of a half.
  congr 1
  · refine Finset.sum_congr rfl fun i member => ?_
    rw [if_pos (.inl (Finset.mem_filter.mp member).2), pow_succ']
  · refine Finset.sum_congr rfl fun i member => ?_
    rw [if_pos (.inr (Finset.mem_filter.mp member).2), pow_succ']

/--
Joining two roots under a new node keeps the forest.

The leaves below the two move one step down, which halves both sums; together they are whole again.
-/
theorem Forest.join {n : Nat} {parent : Nat → Option Nat} {live live' : List Nat}
    {total a b : Nat} {depth root : Nat → Nat} (forest : Forest n parent live total depth root)
    (left : a ∈ live) (right : b ∈ live)
    (swap : (a :: b :: live').Perm (total :: live)) :
    Forest n
      (Function.update (Function.update (Function.update parent total none) a (some total)) b
        (some total)) live' (total + 1)
      (fun i => if root i = a ∨ root i = b then depth i + 1 else depth i)
      (fun i => if root i = a ∨ root i = b then total else root i) := by
  -- The new node is none of the old ones, so the whole list is free of repetitions.
  have fresh : total ∉ live := fun member => Nat.lt_irrefl _ (forest.below _ member)
  have distinct : (a :: b :: live').Nodup := swap.nodup_iff.mpr (List.nodup_cons.mpr ⟨fresh,
    forest.nodup⟩)
  have apart : a ≠ b := fun same => (List.nodup_cons.mp distinct).1 (same ▸ List.mem_cons_self)
  have absent_a : a ∉ live' := fun member =>
    (List.nodup_cons.mp distinct).1 (List.mem_cons_of_mem _ member)
  have absent_b : b ∉ live' := (List.nodup_cons.mp (List.nodup_cons.mp distinct).2).1
  have ne_a : total ≠ a := fun same => fresh (same ▸ left)
  have ne_b : total ≠ b := fun same => fresh (same ▸ right)
  have old : ∀ r ∈ live, r ≠ a → r ≠ b → r ∈ live' := fun r member ne_a ne_b => by
    have := swap.mem_iff.mpr (List.mem_cons_of_mem total member)
    simpa [ne_a, ne_b] using this
  have back : ∀ r ∈ live', r = total ∨ r ∈ live := fun r member => by
    simpa using swap.mem_iff.mp (show r ∈ a :: b :: live' by simp [member])
  have added : total ∈ live' := by
    have := swap.mem_iff.mpr (List.mem_cons_self (a := total) (l := live))
    simpa [ne_a, ne_b] using this
  -- Only the two roots receive a parent, and neither had one.
  have keep : ∀ i p, parent i = some p →
      Function.update (Function.update (Function.update parent total none) a (some total)) b
        (some total) i = some p := fun i p edge => by
    have not_a : i ≠ a := fun same => by simp [same, forest.rootless a left] at edge
    have not_b : i ≠ b := fun same => by simp [same, forest.rootless b right] at edge
    have not_total : i ≠ total := fun same => by
      have := (forest.younger i p edge).2.1
      omega
    simp [Function.update_of_ne, not_a, not_b, not_total, edge]
  refine ⟨(List.nodup_cons.mp (List.nodup_cons.mp distinct).2).2, fun r member => ?_,
    fun r member => ?_, fun i p edge => ?_, fun i within => ?_, fun i within => ?_,
    fun r member => ?_⟩
  · -- The new node is the youngest.
    rcases back r member with new | earlier
    · omega
    · exact Nat.lt_succ_of_lt (forest.below r earlier)
  · -- A live root has no parent after the join either.
    have not_a : r ≠ a := fun same => absent_a (same ▸ member)
    have not_b : r ≠ b := fun same => absent_b (same ▸ member)
    rcases back r member with rfl | earlier
    · simp [Function.update_of_ne, not_a, not_b]
    · have not_total : r ≠ total := fun same => fresh (same ▸ earlier)
      simp [Function.update_of_ne, not_a, not_b, not_total, forest.rootless r earlier]
  · -- An edge is one of the two new ones or an old one.
    by_cases is_b : i = b
    · have := forest.below b right
      simp only [is_b, Function.update_self, Option.some.injEq] at edge
      omega
    by_cases is_a : i = a
    · have := forest.below a left
      rw [Function.update_of_ne is_b, is_a] at edge
      simp only [Function.update_self, Option.some.injEq] at edge
      omega
    by_cases new : i = total
    · rw [Function.update_of_ne is_b, Function.update_of_ne is_a, new] at edge
      simp at edge
    · rw [Function.update_of_ne is_b, Function.update_of_ne is_a, Function.update_of_ne new] at edge
      have := forest.younger i p edge
      omega
  · -- A leaf below a joined root climbs one step more, onto the new root.
    have climb := (forest.climbs i within).mono keep
    by_cases joined : root i = a ∨ root i = b
    · rw [if_pos joined, if_pos joined]
      refine climb.snoc ?_
      rcases joined with joined | joined
      · simp [joined, Function.update_of_ne apart]
      · simp [joined]
    · rw [if_neg joined, if_neg joined]
      exact climb
  · -- Every leaf's root is live: the new one or one kept.
    by_cases joined : root i = a ∨ root i = b
    · rw [if_pos joined]
      exact added
    · rw [if_neg joined]
      exact old _ (forest.rooted i within) (fun is_a => joined (.inl is_a))
        fun is_b => joined (.inr is_b)
  · -- The halves below the two joined roots add up to one.
    rcases back r member with rfl | earlier
    · have unused : ∀ i < n, root i ≠ r := fun i within same =>
        fresh (same ▸ forest.rooted i within)
      rw [Forest.sum_joined apart unused, forest.full a left, forest.full b right]
      norm_num
    · have not_a : r ≠ a := fun same => absent_a (same ▸ member)
      have not_b : r ≠ b := fun same => absent_b (same ▸ member)
      have not_total : r ≠ total := fun same => fresh (same ▸ earlier)
      rw [Forest.filter_root not_a not_b not_total]
      exact forest.full r earlier

/-- A forest with a single root is a tree: the depths of its leaves satisfy Kraft's equality. -/
theorem Forest.kraft {n : Nat} {parent : Nat → Option Nat} {r total : Nat}
    {depth root : Nat → Nat} (forest : Forest n parent [r] total depth root) :
    ∑ i ∈ Finset.range n, (1 / 2 : ℚ) ^ depth i = 1 := by
  -- Every leaf is below the only root, so the sum below it is the sum over all.
  have whole := forest.full r List.mem_cons_self
  rw [Finset.filter_true_of_mem] at whole
  · exact whole
  · intro i within
    exact List.mem_singleton.mp (forest.rooted i (Finset.mem_range.mp within))

/-- Kraft's equality, counted in codes of a length that no leaf exceeds. -/
theorem kraft_scaled {n m : Nat} {depth : Nat → Nat}
    (kraft : ∑ i ∈ Finset.range n, (1 / 2 : ℚ) ^ depth i = 1)
    (short : ∀ i < n, depth i ≤ m) : ∑ i ∈ Finset.range n, 2 ^ (m - depth i) = 2 ^ m := by
  -- Stated over the rationals, the sum is Kraft's, scaled.
  have scaled : ∑ i ∈ Finset.range n, (2 : ℚ) ^ (m - depth i) = 2 ^ m := by
    calc ∑ i ∈ Finset.range n, (2 : ℚ) ^ (m - depth i)
        = ∑ i ∈ Finset.range n, 2 ^ m * (1 / 2 : ℚ) ^ depth i := by
          refine Finset.sum_congr rfl fun i member => ?_
          have := short i (Finset.mem_range.mp member)
          rw [pow_sub₀ _ two_ne_zero this, one_div, inv_pow]
      _ = 2 ^ m := by rw [← Finset.mul_sum, kraft, mul_one]
  exact_mod_cast scaled

/-- In a tree of two leaves or more, no leaf is the root. -/
theorem kraft_depth_ne_zero {n i : Nat} {depth : Nat → Nat} (several : 2 ≤ n) (within : i < n)
    (kraft : ∑ i ∈ Finset.range n, (1 / 2 : ℚ) ^ depth i = 1) : depth i ≠ 0 := by
  intro zero
  -- Such a leaf takes the whole sum, and any other one is too much.
  obtain ⟨j, below, other⟩ : ∃ j < n, j ≠ i := by
    by_cases first : i = 0
    · exact ⟨1, by omega, by omega⟩
    · exact ⟨0, by omega, by omega⟩
  have more : ∑ k ∈ {i, j}, (1 / 2 : ℚ) ^ depth k ≤ ∑ k ∈ Finset.range n, (1 / 2 : ℚ) ^ depth k := by
    refine Finset.sum_le_sum_of_subset_of_nonneg (fun k member => ?_) fun k _ _ => by positivity
    rcases Finset.mem_insert.mp member with rfl | member
    · exact Finset.mem_range.mpr within
    · exact Finset.mem_range.mpr (Finset.mem_singleton.mp member ▸ below)
  rw [kraft, Finset.sum_pair other.symm, zero, pow_zero] at more
  have positive : (0 : ℚ) < (1 / 2) ^ depth j := by positivity
  linarith

end Xq.Lib
