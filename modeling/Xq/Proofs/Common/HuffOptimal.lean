import Xq.Lib.LeastCost
import Xq.Proofs.Common.HuffCodes

/-! The codes of a first attempt are optimal: no prefix code costs less. -/

namespace Xq

open Lib

section Rounds

variable {n : Nat} {W : Nat → Nat} {t t' : HuffNodes} {depth root : Nat → Nat} {a b : Nat}

/-- A root weighs what its leaves weigh, and any code of the leaves leaves a code of the roots that
is no better than the depths so far. -/
structure Cheapest (n : Nat) (W : Nat → Nat) (t : HuffNodes) (depth root : Nat → Nat) : Prop where
  weight : ∀ r ∈ t.live, t.weight r =
    ∑ i ∈ (Finset.range n).filter (fun i => root i = r), W i
  bound : ∀ len, kraftOf (Finset.range n) len ≤ 1 → ∃ len', kraftOf t.live.toFinset len' ≤ 1 ∧
    codeCost (Finset.range n) W depth + codeCost t.live.toFinset t.weight len' ≤
      codeCost (Finset.range n) W len

/-- The roots after a round. -/
theorem HuffJoin.roots (join : HuffJoin t t' a b)
    (forest : Forest n t.parent t.live t.total depth root) :
    a ≠ b ∧ t.total ∉ t.live ∧
      t'.live.toFinset = insert t.total ((t.live.toFinset.erase a).erase b) := by
  obtain ⟨fresh, distinct⟩ := join.distinct forest
  obtain ⟨front, rest⟩ := List.nodup_cons.mp distinct
  have apart : a ≠ b := fun same => front (same ▸ List.mem_cons_self)
  refine ⟨apart, fresh, ?_⟩
  ext r
  have swap := join.swap.mem_iff (a := r)
  simp only [List.mem_cons] at swap
  simp only [List.mem_toFinset, Finset.mem_insert, Finset.mem_erase]
  constructor
  · -- The two joined are not left, and the new root is none of the old ones.
    intro member
    have not_a : r ≠ a := fun same => front (same ▸ List.mem_cons_of_mem _ member)
    have not_b : r ≠ b := fun same => (List.nodup_cons.mp rest).1 (same ▸ member)
    exact (swap.mp (.inr (.inr member))).imp_right fun old => ⟨not_b, not_a, old⟩
  · rintro (rfl | ⟨not_b, not_a, old⟩)
    · exact ((swap.mpr (.inl rfl)).resolve_left fun same => fresh (same ▸ join.left)).resolve_left
        fun same => fresh (same ▸ join.right)
    · exact ((swap.mpr (.inr old)).resolve_left not_a).resolve_left not_b

/-- A round costs the weight of the two roots it joins. -/
theorem codeCost_joined (apart : a ≠ b) :
    codeCost (Finset.range n) W
        (fun i => if root i = a ∨ root i = b then depth i + 1 else depth i) =
      codeCost (Finset.range n) W depth +
        (∑ i ∈ (Finset.range n).filter (fun i => root i = a), W i +
          ∑ i ∈ (Finset.range n).filter (fun i => root i = b), W i) := by
  rw [codeCost, codeCost, Finset.sum_filter, Finset.sum_filter, ← Finset.sum_add_distrib,
    ← Finset.sum_add_distrib]
  refine Finset.sum_congr rfl fun i _ => ?_
  -- Each leaf under one of the two goes one bit deeper, and is counted in one of the two sums.
  by_cases left : root i = a
  · have not_b : root i ≠ b := fun right => apart (left.symm.trans right)
    rw [if_pos (.inl left), if_pos left, if_neg not_b, Nat.mul_succ, Nat.add_zero]
  · by_cases right : root i = b
    · rw [if_pos (.inr right), if_neg left, if_pos right, Nat.mul_succ, Nat.zero_add]
    · rw [if_neg (fun joined => joined.elim left right), if_neg left, if_neg right]
      rfl

theorem Cheapest.join (cheapest : Cheapest n W t depth root)
    (forest : Forest n t.parent t.live t.total depth root) (join : HuffJoin t t' a b) :
    Cheapest n W t' (fun i => if root i = a ∨ root i = b then depth i + 1 else depth i)
      (fun i => if root i = a ∨ root i = b then t.total else root i) := by
  obtain ⟨apart, fresh, roots⟩ := join.roots forest
  -- No leaf was under the new root before.
  have unused : ∀ i < n, root i ≠ t.total := fun i within same =>
    fresh (same ▸ forest.rooted i within)
  refine ⟨fun r member => ?_, fun len kraft => ?_⟩
  · rw [← List.mem_toFinset, roots, Finset.mem_insert] at member
    rw [join.weight]
    rcases member with rfl | old
    · rw [Function.update_self, Forest.sum_filter_joined apart unused, cheapest.weight a join.left,
        cheapest.weight b join.right]
    · obtain ⟨not_b, old⟩ := Finset.mem_erase.mp old
      obtain ⟨not_a, old⟩ := Finset.mem_erase.mp old
      have there := List.mem_toFinset.mp old
      have not_total : r ≠ t.total := fun same => fresh (same ▸ there)
      rw [Function.update_of_ne not_total, Forest.filter_kept not_a not_b not_total,
        cheapest.weight r there]
  · -- A code of the roots so far gives one of the roots after the round, a bit of both cheaper.
    obtain ⟨before, fits, cost⟩ := cheapest.bound len kraft
    obtain ⟨after, fits', cost'⟩ := join_le (List.mem_toFinset.mpr join.left)
      (List.mem_toFinset.mpr join.right) apart
      (fun x member => join.lightest x (List.mem_toFinset.mp member))
      (fun x member => join.second x (List.mem_toFinset.mp member))
      (fun member => fresh (List.mem_toFinset.mp member)) fits
    refine ⟨after, by rwa [roots], ?_⟩
    rw [codeCost_joined apart, ← cheapest.weight a join.left,
      ← cheapest.weight b join.right, roots, join.weight]
    omega

/-- Before the first round every leaf is a root. -/
theorem Cheapest.leaves (f : Nat → Nat) :
    Cheapest (huffUsed f).length (fun i => f ((huffUsed f).getD i 0)) (huffLeaves f)
      (fun _ => 0) fun i => i := by
  have live : (huffLeaves f).live.toFinset = Finset.range (huffUsed f).length := by
    ext i
    simp [huffLeaves]
  refine ⟨fun r member => ?_, fun len kraft => ⟨len, by rwa [live], ?_⟩⟩
  · -- A leaf is the only one under itself.
    have within : r ∈ Finset.range (huffUsed f).length := by
      rwa [← live, List.mem_toFinset]
    rw [Finset.filter_eq' _ r, if_pos within, Finset.sum_singleton]
    rfl
  · -- No bit has been spent so far.
    have nothing : codeCost (Finset.range (huffUsed f).length)
        (fun i => f ((huffUsed f).getD i 0)) (fun _ => 0) = 0 := by
      simp [codeCost]
    rw [nothing, Nat.zero_add, live]
    exact Nat.le_refl _

end Rounds

/-- The symbols a table uses. -/
def usedSymbols (f : Nat → Nat) : Finset Nat :=
  (Finset.range huffSymbols).filter fun s => f s ≠ 0

/-- The lengths of some prefix code for the used symbols: positive, and fitting together. -/
def CodeLengths (f len : Nat → Nat) : Prop :=
  (∀ s ∈ usedSymbols f, 0 < len s) ∧ kraftOf (usedSymbols f) len ≤ 1

/-- What the tree costs is no more than any code of the used symbols. -/
theorem huffAttempt_cost {f len : Nat → Nat} {maxLen : Nat} (some_used : 1 ≤ (huffUsed f).length)
    (made : huffAttempt f = some (len, maxLen)) {other : Nat → Nat}
    (kraft : kraftOf (usedSymbols f) other ≤ 1) :
    codeCost (usedSymbols f) f len ≤ codeCost (usedSymbols f) f other := by
  obtain ⟨depth, root, r, forest, live, cheapest⟩ := huffTree_keeps some_used
    (fun forest join cheapest => Cheapest.join cheapest forest join) (Cheapest.leaves f)
  obtain ⟨coded, _⟩ := huffAttempt_depth forest made
  -- Sums over the symbols are sums over their leaves.
  have leaves : kraftOf (Finset.range (huffUsed f).length)
      (fun i => other ((huffUsed f).getD i 0)) ≤ 1 := by
    rw [kraftOf, usedSymbols, sum_huffUsed] at kraft
    exact kraft
  obtain ⟨rest, _, cost⟩ := cheapest.bound _ leaves
  have lengths : codeCost (usedSymbols f) f len = codeCost (Finset.range (huffUsed f).length)
      (fun i => f ((huffUsed f).getD i 0)) depth := by
    rw [codeCost, codeCost, usedSymbols, sum_huffUsed]
    exact Finset.sum_congr rfl fun i member => by
      rw [(coded i (Finset.mem_range.mp member)).2]
  have others : codeCost (usedSymbols f) f other = codeCost (Finset.range (huffUsed f).length)
      (fun i => f ((huffUsed f).getD i 0)) (fun i => other ((huffUsed f).getD i 0)) := by
    rw [codeCost, codeCost, usedSymbols, sum_huffUsed]
  rw [lengths, others]
  omega

/-- The Kraft sum of lengths that fill the code space is one. -/
theorem Filling.kraft {f len : Nat → Nat} (filling : Filling len)
    (used : ∀ s, len s ≠ 0 ↔ s < huffSymbols ∧ f s ≠ 0) : kraftOf (usedSymbols f) len = 1 := by
  -- The symbols with a length are those with a weight.
  have same : usedSymbols f = (Finset.range huffSymbols).filter fun s => len s ≠ 0 := by
    refine Finset.filter_congr fun s member => ?_
    rw [used]
    exact ⟨fun present => ⟨Finset.mem_range.mp member, present⟩, And.right⟩
  rw [kraftOf, same]
  exact filling.kraftSum

/--
Huffman coding is optimal.

When the first attempt succeeds, on a table of two symbols or more, the lengths the builder gives
them are the cheapest of all prefix codes.
-/
theorem huffBuild_optimal {f : Nat → Nat} {e : HuffEnc} (several : 2 ≤ (huffUsed f).length)
    (first : (huffAttempt f).isSome) (built : huffBuild f = some e) :
    IsLeast (codeCost (usedSymbols f) f '' {len | CodeLengths f len})
      (codeCost (usedSymbols f) f e.len) := by
  obtain ⟨⟨len, maxLen⟩, made⟩ := Option.isSome_iff_exists.mp first
  -- With two symbols in use, the builder takes the lengths of the first attempt.
  have lengths : e.len = len := by
    rw [huffBuild] at built
    split at built
    · cases built
    · rename_i single
      rw [single, List.length_singleton] at several
      omega
    · rw [huffAttempts, made] at built
      dsimp only at built
      split at built
      · cases built
      · obtain rfl := Option.some.inj built
        rfl
  obtain ⟨filling, used⟩ := huffAttempt_filling several made
  rw [lengths]
  refine ⟨⟨len, ⟨fun s member => ?_, (filling.kraft used).le⟩, rfl⟩, ?_⟩
  · -- The lengths are themselves those of a code.
    obtain ⟨within, present⟩ := Finset.mem_filter.mp member
    exact Nat.pos_of_ne_zero ((used s).mpr ⟨Finset.mem_range.mp within, present⟩)
  · -- No other code is cheaper.
    rintro _ ⟨other, ⟨_, kraft⟩, rfl⟩
    exact huffAttempt_cost (by omega) made kraft

/-- Three symbols, of which the first comes up as often as the two others. -/
def threeWeights (s : Nat) : Nat :=
  if s = 97 then 3 else if s = 98 then 2 else if s = 99 then 1 else 0

theorem huffBuild_optimal_three : ∃ e, huffBuild threeWeights = some e ∧
    IsLeast (codeCost (usedSymbols threeWeights) threeWeights '' {len | CodeLengths threeWeights len})
      (codeCost (usedSymbols threeWeights) threeWeights e.len) := by
  -- The table of these weights can be built.
  obtain ⟨e, built⟩ := Option.isSome_iff_exists.mp
    (show (huffBuild threeWeights).isSome = true by decide +kernel)
  exact ⟨e, built, huffBuild_optimal (by decide +kernel) (by decide +kernel) built⟩

end Xq
