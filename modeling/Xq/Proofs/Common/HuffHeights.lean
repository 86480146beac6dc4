import Mathlib.Data.Nat.Fib.Basic
import Xq.Proofs.Common.HuffBuild

/-! How high the trees of the builder grow, and when smoothing brings them below the limit. -/

namespace Xq

open Lib

section Heights

/-- Two trees, each given by its weight and its height, under a new root. -/
def huffJoined (p q : Nat × Nat) : Nat × Nat := (p.1 + q.1, max p.2 q.2 + 1)

/-- A round of the construction on the weights and heights alone. -/
def huffJoinLightest (ps : List (Nat × Nat)) : List (Nat × Nat) :=
  match huffTwoSmallest (fun j => (ps.getD j (0, 0)).1) (List.range ps.length) with
  | (some a, some b) =>
    let joined := ps.set (min a b) (huffJoined (ps.getD a (0, 0)) (ps.getD b (0, 0)))
    (joined.set (max a b) (joined.getD (ps.length - 1) (0, 0))).take (ps.length - 1)
  | _ => ps

def huffGrow : Nat → List (Nat × Nat) → List (Nat × Nat)
  | 0, ps => ps
  | fuel + 1, ps => if ps.length > 1 then huffGrow fuel (huffJoinLightest ps) else ps

/-- The height of the tree over some weights. -/
def huffHeight (weights : List Nat) : Nat :=
  ((huffGrow weights.length (weights.map fun w => (w, 0))).headD (0, 0)).2

/-- The round finds the lightest tree, and the lightest of the others. -/
theorem huffJoinLightest_perm {ps : List (Nat × Nat)} (several : 2 ≤ ps.length) :
    ∃ p q rest, ps.Perm (p :: rest) ∧ (∀ x ∈ rest, p.1 ≤ x.1) ∧ q ∈ rest ∧
      (∀ x ∈ rest, q.1 ≤ x.1) ∧ (q :: huffJoinLightest ps).Perm (huffJoined p q :: rest) := by
  obtain ⟨a, b, found, apart, left, right, least, second⟩ :=
    @huffTwoSmallest_lightest (fun j => (ps.getD j (0, 0)).1) (List.range ps.length)
      (by rwa [List.length_range])
  -- The scan works on positions, and the weight of a position is that of its tree.
  rw [List.length_range] at left right least second
  have weight : ∀ j < ps.length, ((ps.getD ((List.range ps.length).getD j 0) (0, 0)).1) =
      (ps.getD j (0, 0)).1 := fun j below => by
    rw [List.getD_eq_getElem (List.range ps.length) 0 (by rwa [List.length_range]),
      List.getElem_range]
  rw [huffJoinLightest, found]
  dsimp only
  -- The round puts the new tree in one of the two places, and the last one in the other.
  have front : ps.Perm (ps.getD a (0, 0) :: ps.eraseIdx a) := by
    rw [List.getD_eq_getElem _ _ left]
    exact (List.getElem_cons_eraseIdx_perm left).symm
  -- The trees other than the lightest stand at other positions.
  have others : ∀ x ∈ ps.eraseIdx a, ∃ j < ps.length, j ≠ a ∧ ps.getD j (0, 0) = x := by
    intro x member
    obtain ⟨j, other, within, here⟩ := List.mem_eraseIdx_iff_getElem.mp member
    exact ⟨j, other, within, by rw [List.getD_eq_getElem _ _ other, here]⟩
  refine ⟨ps.getD a (0, 0), ps.getD b (0, 0), ps.eraseIdx a, front, fun x member => ?_, ?_,
    fun x member => ?_, ?_⟩
  · obtain ⟨j, below, _, rfl⟩ := others x member
    have order := least j below
    dsimp only at order
    rwa [weight a left, weight j below] at order
  · rw [List.getD_eq_getElem _ _ right]
    exact List.mem_eraseIdx_iff_getElem.mpr ⟨b, right, apart.symm, rfl⟩
  · obtain ⟨j, below, other, rfl⟩ := others x member
    have order := second j below other
    dsimp only at order
    rwa [weight b right, weight j below] at order
  · -- With the lightest tree put back, the round has swapped two trees for one.
    refine List.Perm.cons_inv (a := ps.getD a (0, 0)) ?_
    have swapped := replaceTwo_perm_of_ne ps
      (huffJoined (ps.getD a (0, 0)) (ps.getD b (0, 0))) (0, 0) apart left right
    exact swapped.trans ((front.cons _).trans (List.Perm.swap _ _ _))

theorem huffJoinLightest_length {ps : List (Nat × Nat)} (several : 2 ≤ ps.length) :
    (huffJoinLightest ps).length + 1 = ps.length := by
  -- One tree for two is one tree fewer.
  obtain ⟨p, q, rest, before, _, _, _, after⟩ := huffJoinLightest_perm several
  have old := before.length_eq
  have new := after.length_eq
  simp only [List.length_cons] at old new
  omega

/-- Every tree weighs as much as its height asks for, and no tree less than the height of any
other asks for one step further down. -/
def FibWeights (ps : List (Nat × Nat)) : Prop :=
  ∀ p ∈ ps, Nat.fib (p.2 + 2) ≤ p.1 ∧ ∀ q ∈ ps, Nat.fib (p.2 + 1) ≤ q.1

/-- A round keeps the weights up with the heights. -/
theorem FibWeights.join {ps : List (Nat × Nat)} (fib : FibWeights ps) (several : 2 ≤ ps.length) :
    FibWeights (huffJoinLightest ps) := by
  obtain ⟨p, q, rest, before, least, right, second, after⟩ := huffJoinLightest_perm several
  have first : p ∈ ps := before.mem_iff.mpr List.mem_cons_self
  have inside : ∀ x ∈ rest, x ∈ ps := fun x member =>
    before.mem_iff.mpr (List.mem_cons_of_mem p member)
  have members : ∀ x ∈ huffJoinLightest ps, x = huffJoined p q ∨ x ∈ rest := fun x member =>
    List.mem_cons.mp (after.mem_iff.mp (List.mem_cons_of_mem q member))
  obtain ⟨weight_p, others_p⟩ := fib p first
  obtain ⟨weight_q, others_q⟩ := fib q (inside q right)
  -- The new tree is one step higher than the higher of the two.
  have grown : Nat.fib ((huffJoined p q).2 + 2) ≤ (huffJoined p q).1 := by
    show Nat.fib (max p.2 q.2 + 1 + 2) ≤ p.1 + q.1
    rcases Nat.le_total p.2 q.2 with less | more
    · rw [Nat.max_eq_right less, Nat.fib_add_two]
      have small := others_q p first
      have large : Nat.fib (q.2 + 1 + 1) ≤ q.1 := weight_q
      omega
    · rw [Nat.max_eq_left more, Nat.fib_add_two]
      have small := others_p q (inside q right)
      have large : Nat.fib (p.2 + 1 + 1) ≤ p.1 := weight_p
      omega
  have heavy : p.1 ≤ (huffJoined p q).1 ∧ q.1 ≤ (huffJoined p q).1 :=
    ⟨Nat.le_add_right _ _, Nat.le_add_left _ _⟩
  -- Nothing left is lighter than either of the two joined.
  have below (x : Nat × Nat) (over_p : p.1 ≤ x.1) (over_q : q.1 ≤ x.1) :
      Nat.fib ((huffJoined p q).2 + 1) ≤ x.1 := by
    show Nat.fib (max p.2 q.2 + 1 + 1) ≤ x.1
    rcases Nat.le_total p.2 q.2 with less | more
    · rw [Nat.max_eq_right less]
      exact weight_q.trans over_q
    · rw [Nat.max_eq_left more]
      exact weight_p.trans over_p
  -- The new tree, or one of the old ones.
  intro x member
  rcases members x member with rfl | old
  · refine ⟨grown, fun y member' => ?_⟩
    rcases members y member' with rfl | old'
    · exact below _ heavy.1 heavy.2
    · exact below y (least y old') (second y old')
  · obtain ⟨weight_x, others_x⟩ := fib x (inside x old)
    refine ⟨weight_x, fun y member' => ?_⟩
    rcases members y member' with rfl | old'
    · exact (others_x p first).trans heavy.1
    · exact others_x y (inside y old')

/-- A round keeps the weights together. -/
theorem huffJoinLightest_sum {ps : List (Nat × Nat)} (several : 2 ≤ ps.length) :
    ((huffJoinLightest ps).map Prod.fst).sum = (ps.map Prod.fst).sum := by
  -- The new tree weighs what the two it replaces weighed.
  obtain ⟨p, q, rest, before, _, _, _, after⟩ := huffJoinLightest_perm several
  have old := (before.map Prod.fst).sum_eq
  have new := (after.map Prod.fst).sum_eq
  simp only [List.map_cons, List.sum_cons, huffJoined] at old new
  omega

/-- The construction ends with one tree, of all the weight, and as heavy as its height asks for. -/
theorem huffGrow_single (fuel : Nat) {ps : List (Nat × Nat)} (some_tree : 1 ≤ ps.length)
    (enough : ps.length ≤ fuel + 1) :
    ∃ p, huffGrow fuel ps = [p] ∧ p.1 = (ps.map Prod.fst).sum ∧
      (FibWeights ps → Nat.fib (p.2 + 2) ≤ p.1) := by
  have single {ps : List (Nat × Nat)} (one : ps.length = 1) : ∃ p, ps = [p] ∧
      p.1 = (ps.map Prod.fst).sum ∧ (FibWeights ps → Nat.fib (p.2 + 2) ≤ p.1) := by
    obtain ⟨p, rfl⟩ := List.length_eq_one_iff.mp one
    exact ⟨p, rfl, by simp, fun fib => (fib p List.mem_cons_self).1⟩
  -- Each round takes a tree away, and one is left when the rounds are over.
  induction fuel generalizing ps with
  | zero => exact single (show ps.length = 1 by omega)
  | succ fuel ih =>
    rw [huffGrow]
    by_cases several : ps.length > 1
    · rw [if_pos several]
      have shorter := huffJoinLightest_length several
      obtain ⟨p, grown, weight, fib⟩ := @ih (huffJoinLightest ps) (by omega) (by omega)
      exact ⟨p, grown, weight.trans (huffJoinLightest_sum several), fun kept =>
        fib (kept.join several)⟩
    · rw [if_neg several]
      exact single (show ps.length = 1 by omega)

/-- A high tree is heavy. -/
theorem huffHeight_fib {weights : List Nat} (some_weight : weights ≠ [])
    (positive : ∀ w ∈ weights, 0 < w) : Nat.fib (huffHeight weights + 2) ≤ weights.sum := by
  have length : (weights.map fun w => (w, 0)).length = weights.length := List.length_map _
  have some_length := List.length_pos_iff.mpr some_weight
  obtain ⟨p, grown, weight, fib⟩ := @huffGrow_single weights.length
    (weights.map fun w => (w, 0)) (by omega) (by omega)
  -- Leaves have height zero, and each weighs at least one.
  have start : FibWeights (weights.map fun w => (w, 0)) := by
    intro p member
    obtain ⟨w, there, rfl⟩ := List.mem_map.mp member
    refine ⟨positive w there, fun q member' => ?_⟩
    obtain ⟨w', there', rfl⟩ := List.mem_map.mp member'
    exact positive w' there'
  have all : ((weights.map fun w => (w, 0)).map Prod.fst).sum = weights.sum := by
    rw [List.map_map]
    exact congrArg List.sum (List.map_id' weights)
  rw [huffHeight, grown, List.headD_cons, ← all, ← weight]
  exact fib start

end Heights

section Trees

/-- The scan sees weights and nothing else. -/
theorem huffTwoSmallest_congr {weight weight' : Nat → Nat} {live live' : List Nat}
    (length : live'.length = live.length)
    (same : ∀ j < live.length, weight' (live'.getD j 0) = weight (live.getD j 0)) :
    huffTwoSmallest weight' live' = huffTwoSmallest weight live := by
  -- Step for step the two scans hold the same positions.
  have scanned : ∀ k ≤ live.length,
      (List.range k).foldl (huffPick weight' live') (none, none) =
        (List.range k).foldl (huffPick weight live) (none, none) ∧
      Lightest (fun j => weight (live.getD j 0)) k
        ((List.range k).foldl (huffPick weight live) (none, none)) := by
    intro k
    induction k with
    | zero => exact fun _ => ⟨rfl, rfl, rfl⟩
    | succ k ih =>
      intro below
      obtain ⟨equal, lightest⟩ := ih (Nat.le_of_succ_le below)
      rw [List.range_succ, List.foldl_append, List.foldl_append, equal]
      refine ⟨?_, huffPick_lightest weight live lightest⟩
      generalize (List.range k).foldl (huffPick weight live) (none, none) = best at lightest
      rw [List.foldl_cons, List.foldl_nil, List.foldl_cons, List.foldl_nil]
      -- The positions found lie among those scanned.
      rcases best with ⟨_ | a, _ | b⟩
      · rfl
      · rfl
      · obtain ⟨rfl, rfl⟩ := lightest
        simp only [huffPick, same 1 below, same 0 (Nat.zero_lt_of_lt below)]
      · obtain ⟨_, left, right, _⟩ := lightest
        simp only [huffPick, same k below, same a (left.trans below), same b (right.trans below)]
  have whole := (scanned live.length (Nat.le_refl _)).1
  rw [huffTwoSmallest, huffTwoSmallest, length]
  exact whole

/-- The weights and heights of the trees under the live nodes. -/
def huffProfile (t : HuffNodes) (height : Nat → Nat) : List (Nat × Nat) :=
  t.live.map fun r => (t.weight r, height r)

section Joining

variable {n : Nat} {t : HuffNodes} {depth root : Nat → Nat} {a b : Nat}

/-- A round of the construction is one on the weights and heights. -/
theorem HuffJoin.profile (join : HuffJoin t (huffMerge t) a b)
    (forest : Forest n t.parent t.live t.total depth root) (height : Nat → Nat) :
    huffProfile (huffMerge t)
        (Function.update height t.total (max (height a) (height b) + 1)) =
      huffJoinLightest (huffProfile t height) := by
  obtain ⟨x, y, found, left, right, here, there⟩ := join.picked
  obtain ⟨fresh, _⟩ := join.distinct forest
  have length : (huffProfile t height).length = t.live.length := List.length_map _
  have entry : ∀ j < t.live.length, (huffProfile t height).getD j (0, 0) =
      (t.weight (t.live.getD j 0), height (t.live.getD j 0)) := fun j below => by
    rw [List.getD_eq_getElem _ _ (length.symm ▸ below), List.getD_eq_getElem _ _ below]
    exact List.getElem_map _
  -- The scan over the profile picks the same two positions.
  have pick : huffTwoSmallest (fun j => ((huffProfile t height).getD j (0, 0)).1)
      (List.range (huffProfile t height).length) = (some x, some y) := by
    rw [← found]
    refine huffTwoSmallest_congr (by rw [List.length_range, length]) fun j below => ?_
    rw [List.getD_eq_getElem (List.range _) 0 (by rwa [List.length_range, length]),
      List.getElem_range, entry j below]
  rw [huffJoinLightest, pick]
  dsimp only
  rw [entry x left, entry y right, here, there, length]
  -- The new node has the joined weight and height, and every other one keeps its own.
  have joined : ∀ r ∈ t.live, ((huffMerge t).weight r,
      Function.update height t.total (max (height a) (height b) + 1) r) =
        (t.weight r, height r) := fun r member => by
    have other : r ≠ t.total := fun same => fresh (same ▸ member)
    rw [join.weight, Function.update_of_ne other, Function.update_of_ne other]
  have written : (t.live.set (min x y) t.total).map (fun r => ((huffMerge t).weight r,
      Function.update height t.total (max (height a) (height b) + 1) r)) =
        (huffProfile t height).set (min x y)
          (huffJoined (t.weight a, height a) (t.weight b, height b)) := by
    rw [List.map_set, List.map_congr_left joined, join.weight, Function.update_self,
      Function.update_self]
    rfl
  have last : (fun r => ((huffMerge t).weight r,
      Function.update height t.total (max (height a) (height b) + 1) r))
        ((t.live.set (min x y) t.total).getD (t.live.length - 1) 0) =
      ((huffProfile t height).set (min x y)
        (huffJoined (t.weight a, height a) (t.weight b, height b))).getD
          (t.live.length - 1) (0, 0) := by
    have inside : t.live.length - 1 < (t.live.set (min x y) t.total).length := by
      rw [List.length_set]
      omega
    rw [← written, List.getD_eq_getElem _ _ inside,
      List.getD_eq_getElem _ _ (by rwa [List.length_map]), List.getElem_map]
  have live : (huffMerge t).live = ((t.live.set (min x y) t.total).set (max x y)
      ((t.live.set (min x y) t.total).getD (t.live.length - 1) 0)).take (t.live.length - 1) := by
    rw [huffMerge_eq found]
  dsimp only at last
  rw [huffProfile, live, List.map_take, List.map_set, written, last]

/-- The heights bound the depths of the leaves, each of them is one of these depths, and the rounds
to come lead to the result. -/
structure Tall (n : Nat) (result : List (Nat × Nat)) (t : HuffNodes) (depth root : Nat → Nat)
    (height : Nat → Nat) : Prop where
  above : ∀ i < n, depth i ≤ height (root i)
  attained : ∀ r ∈ t.live, ∃ i < n, root i = r ∧ depth i = height r
  grows : huffGrow t.live.length (huffProfile t height) = result

theorem Tall.join {result : List (Nat × Nat)} {height : Nat → Nat}
    (tall : Tall n result t depth root height)
    (forest : Forest n t.parent t.live t.total depth root) (join : HuffJoin t (huffMerge t) a b) :
    Tall n result (huffMerge t)
      (fun i => if root i = a ∨ root i = b then depth i + 1 else depth i)
      (fun i => if root i = a ∨ root i = b then t.total else root i)
      (Function.update height t.total (max (height a) (height b) + 1)) := by
  -- The leaves below the two joined go down by one, and the new height is one above the larger.
  obtain ⟨fresh, distinct⟩ := join.distinct forest
  obtain ⟨front, rest⟩ := List.nodup_cons.mp distinct
  refine ⟨fun i within => ?_, fun r member => ?_, ?_⟩
  · have bound := tall.above i within
    by_cases joined : root i = a ∨ root i = b
    · rw [if_pos joined, if_pos joined, Function.update_self]
      rcases joined with left | right
      · rw [left] at bound
        omega
      · rw [right] at bound
        omega
    · have other : root i ≠ t.total := fun same => fresh (same ▸ forest.rooted i within)
      rw [if_neg joined, if_neg joined, Function.update_of_ne other]
      exact bound
  · have back : r = t.total ∨ r ∈ t.live := by
      have := join.swap.mem_iff.mp (List.mem_cons_of_mem a (List.mem_cons_of_mem b member))
      exact List.mem_cons.mp this
    rcases back with rfl | old
    · -- The deepest leaf of the higher tree is the deepest of the joined one.
      rw [Function.update_self]
      rcases Nat.le_total (height a) (height b) with less | more
      · obtain ⟨i, within, here, deep⟩ := tall.attained b join.right
        refine ⟨i, within, if_pos (.inr here), ?_⟩
        rw [if_pos (.inr here), deep, Nat.max_eq_right less]
      · obtain ⟨i, within, here, deep⟩ := tall.attained a join.left
        refine ⟨i, within, if_pos (.inl here), ?_⟩
        rw [if_pos (.inl here), deep, Nat.max_eq_left more]
    · have not_a : r ≠ a := fun same => front (same ▸ List.mem_cons_of_mem b member)
      have not_b : r ≠ b := fun same => (List.nodup_cons.mp rest).1 (same ▸ member)
      obtain ⟨i, within, here, deep⟩ := tall.attained r old
      have outside : ¬(root i = a ∨ root i = b) := by
        rw [here]
        exact fun joined => joined.elim not_a not_b
      have other : r ≠ t.total := fun same => fresh (same ▸ old)
      refine ⟨i, within, by rw [if_neg outside, here], ?_⟩
      rw [if_neg outside, deep, Function.update_of_ne other]
  · -- The profile goes through the same round.
    rw [join.profile forest]
    have shorter := join.shorter
    have several : (huffProfile t height).length > 1 := by
      rw [huffProfile, List.length_map]
      exact join.several forest
    have grows := tall.grows
    rw [← shorter, huffGrow, if_pos several] at grows
    exact grows

end Joining

variable {f : Nat → Nat}

/-- The tree over the used symbols has the height that their weights alone lead to. -/
theorem huffTree_height (some_used : 1 ≤ (huffUsed f).length) :
    ∃ depth root r, Forest (huffUsed f).length (huffTree f).parent [r]
      (2 * (huffUsed f).length - 1) depth root ∧
      (∀ i < (huffUsed f).length, depth i ≤ huffHeight ((huffUsed f).map f)) ∧
      ∃ i < (huffUsed f).length, depth i = huffHeight ((huffUsed f).map f) := by
  have profile : huffProfile (huffLeaves f) (fun _ => 0) =
      ((huffUsed f).map f).map fun w => (w, 0) := by
    apply List.ext_getElem
    · simp only [huffProfile, huffLeaves, List.length_map, List.length_range]
    · intro i inside _
      simp only [huffProfile, huffLeaves, List.length_map, List.length_range] at inside
      simp only [huffProfile, huffLeaves, List.getElem_map, List.getElem_range,
        List.getD_eq_getElem _ _ inside]
  have live : (huffLeaves f).live.length = (huffUsed f).length := List.length_range
  have start : Tall (huffUsed f).length
      (huffGrow (huffUsed f).length (((huffUsed f).map f).map fun w => (w, 0))) (huffLeaves f)
      (fun _ => 0) (fun i => i) fun _ => 0 :=
    ⟨fun _ _ => Nat.le_refl _, fun r member => ⟨r, List.mem_range.mp member, rfl, rfl⟩,
      by rw [profile, live]⟩
  obtain ⟨depth, root, r, forest, single, height, above, attained, grows⟩ := huffTree_keeps
    some_used (P := fun t depth root => ∃ height, Tall (huffUsed f).length
      (huffGrow (huffUsed f).length (((huffUsed f).map f).map fun w => (w, 0))) t depth root height)
    (fun forest join tall => ⟨_, tall.choose_spec.join forest join⟩) ⟨_, start⟩
  -- One tree is left, and its height is the result's.
  have top : huffHeight ((huffUsed f).map f) = height r := by
    rw [huffHeight, List.length_map, ← grows, huffProfile, single]
    rfl
  rw [top]
  refine ⟨depth, root, r, forest, fun i within => ?_, ?_⟩
  · have bound := above i within
    rwa [List.mem_singleton.mp (forest.rooted i within)] at bound
  · obtain ⟨i, within, _, deep⟩ := attained r (by rw [single]; exact List.mem_cons_self)
    exact ⟨i, within, deep⟩

end Trees

section Attempts

/-- The length pass is given up exactly at a depth above the limit, and keeps the largest. -/
theorem huffLengths_isSome {parent : Nat → Option Nat} {node leaves : List Nat} {len : Nat → Nat}
    {maxLen : Nat} :
    ((huffLengths parent node leaves len maxLen).isSome ↔
      ∀ i ∈ leaves, huffDepth parent (2 * huffSymbols) i ≤ huffMaxBits) ∧
    ∀ len' maxLen', huffLengths parent node leaves len maxLen = some (len', maxLen') →
      maxLen ≤ maxLen' ∧ ∀ i ∈ leaves, huffDepth parent (2 * huffSymbols) i ≤ maxLen' := by
  -- One leaf after another; the largest depth is carried along.
  induction leaves generalizing len maxLen with
  | nil =>
    refine ⟨⟨fun _ _ wrong => (by cases wrong), fun _ => rfl⟩, fun len' maxLen' made => ?_⟩
    obtain ⟨_, rfl⟩ := Prod.mk.inj (Option.some.inj made)
    exact ⟨Nat.le_refl _, fun _ wrong => by cases wrong⟩
  | cons i rest ih =>
    rw [huffLengths]
    by_cases long : huffDepth parent (2 * huffSymbols) i > huffMaxBits
    · rw [if_pos long]
      refine ⟨⟨fun wrong => (by cases wrong), fun short => ?_⟩, fun _ _ wrong => by cases wrong⟩
      exact absurd (short i List.mem_cons_self) (Nat.not_le.mpr long)
    · rw [if_neg long, ih.1]
      refine ⟨⟨fun short j member => ?_, fun short j member =>
        short j (List.mem_cons_of_mem _ member)⟩, fun len' maxLen' made => ?_⟩
      · rcases List.mem_cons.mp member with rfl | later
        · exact Nat.not_lt.mp long
        · exact short j later
      · obtain ⟨larger, all⟩ := ih.2 len' maxLen' made
        refine ⟨(Nat.le_max_left _ _).trans larger, fun j member => ?_⟩
        rcases List.mem_cons.mp member with rfl | later
        · exact (Nat.le_max_right _ _).trans larger
        · exact all j later

variable {f : Nat → Nat}

/-- An attempt succeeds exactly when the tree is not above the limit. -/
theorem huffAttempt_isSome (some_used : huffUsed f ≠ []) :
    (huffAttempt f).isSome ↔ huffHeight ((huffUsed f).map f) ≤ huffMaxBits := by
  -- The depths the length pass finds are the depths in the forest, and the highest is the height.
  obtain ⟨depth, root, r, forest, above, i, within, deep⟩ :=
    huffTree_height (List.length_pos_iff.mpr some_used)
  rw [huffAttempt]
  rw [huffLengths_isSome.1]
  change (∀ j ∈ List.range (huffUsed f).length,
    huffDepth (huffTree f).parent (2 * huffSymbols) j ≤ huffMaxBits) ↔ _
  constructor
  · intro short
    have here := short i (List.mem_range.mpr within)
    rwa [huffTree_depth forest within, deep] at here
  · intro low j member
    rw [huffTree_depth forest (List.mem_range.mp member)]
    exact (above j (List.mem_range.mp member)).trans low

/-- The attempts succeed when one of the smoothed tables has a tree that is not too high. -/
theorem huffAttempts_isSome (n : Nat) (some_used : huffUsed f ≠ []) :
    (huffAttempts n f).isSome ↔
      ∃ k < n, huffHeight ((huffUsed f).map (huffSmooth^[k] f)) ≤ huffMaxBits := by
  -- The first table that is not too high ends the attempts.
  induction n generalizing f with
  | zero =>
    refine ⟨fun wrong => (by cases wrong), ?_⟩
    rintro ⟨k, below, _⟩
    omega
  | succ n ih =>
    -- The attempt on the table itself, and then on its halving.
    have first := huffAttempt_isSome some_used
    have rest := ih (f := huffSmooth f) (by rwa [huffUsed_smooth])
    rw [huffUsed_smooth] at rest
    rw [huffAttempts]
    cases made : huffAttempt f with
    | some r =>
      rw [made] at first
      exact ⟨fun _ => ⟨0, Nat.succ_pos n, first.mp rfl⟩, fun _ => rfl⟩
    | none =>
      rw [made] at first
      dsimp only
      rw [rest]
      constructor
      · rintro ⟨k, below, low⟩
        exact ⟨k + 1, Nat.succ_lt_succ below, low⟩
      · rintro ⟨k, below, low⟩
        cases k with
        | zero => cases first.mpr low
        | succ k => exact ⟨k, Nat.lt_of_succ_lt_succ below, low⟩

/-- Lengths that an attempt hands out to two symbols or more are not all zero. -/
theorem huffAttempts_maxLen {n : Nat} {len : Nat → Nat} {maxLen : Nat}
    (several : 2 ≤ (huffUsed f).length) (made : huffAttempts n f = some (len, maxLen)) :
    maxLen ≠ 0 := by
  induction n generalizing f with
  | zero => cases made
  | succ n ih =>
    rw [huffAttempts] at made
    split at made
    · rename_i r attempt
      obtain rfl := Option.some.inj made
      obtain ⟨depth, root, r, forest, _, i, within, _⟩ :=
        huffTree_height (f := f) (by omega)
      -- Some leaf of a tree over two symbols or more lies below the root.
      have below := (huffLengths_isSome.2 len maxLen attempt).2 i (List.mem_range.mpr within)
      change huffDepth (huffTree f).parent _ i ≤ maxLen at below
      rw [huffTree_depth forest within] at below
      have positive := kraft_depth_ne_zero several within forest.kraft
      omega
    · exact ih (by rwa [huffUsed_smooth]) made

/-- The builder succeeds exactly when one of its attempts does. -/
theorem huffBuild_isSome (some_used : huffUsed f ≠ []) :
    (huffBuild f).isSome ↔
      ∃ k < 12, huffHeight ((huffUsed f).map (huffSmooth^[k] f)) ≤ huffMaxBits := by
  -- No symbol, one symbol, or a tree over several.
  rw [huffBuild]
  split
  · rename_i none_used
    exact absurd none_used some_used
  · rename_i s single
    -- The tree over one symbol has no edge.
    rw [single]
    exact ⟨fun _ => ⟨0, by decide, Nat.zero_le _⟩, fun _ => rfl⟩
  · rename_i node none_used one_used
    have several := two_le_huffUsed none_used one_used
    rw [← huffAttempts_isSome 12 some_used]
    cases made : huffAttempts 12 f with
    | none => exact Iff.rfl
    | some pair =>
      obtain ⟨len, maxLen⟩ := pair
      dsimp only
      rw [if_neg (huffAttempts_maxLen several made)]
      exact Iff.rfl

/-- Smoothing halves the weights, but for one each. -/
theorem huffSmooth_sum (used : List Nat) (k : Nat) :
    2 ^ k * (used.map (huffSmooth^[k] f)).sum ≤
      (used.map f).sum + (2 ^ (k + 1) - 2) * used.length := by
  -- One halving: every weight is at most half of itself and one more.
  have half (g : Nat → Nat) : 2 * (used.map (huffSmooth g)).sum ≤
      (used.map g).sum + 2 * used.length := by
    induction used with
    | nil => exact Nat.le_refl _
    | cons s rest ih =>
      have here : 2 * huffSmooth g s ≤ g s + 2 := by
        rw [huffSmooth]
        split <;> omega
      simp only [List.map_cons, List.sum_cons, List.length_cons]
      omega
  induction k with
  | zero => simp
  | succ k ih =>
    rw [Function.iterate_succ_apply']
    have step := Nat.mul_le_mul_left (2 ^ k) (half (huffSmooth^[k] f))
    have more : 2 ≤ 2 ^ (k + 1) := by
      rw [Nat.pow_succ]
      have := Nat.one_le_two_pow (n := k)
      omega
    rw [Nat.mul_add, ← Nat.mul_assoc, ← Nat.mul_assoc, ← pow_succ] at step
    rw [Nat.sub_mul] at ih ⊢
    have least := Nat.mul_le_mul_right used.length more
    have double : 2 ^ (k + 1 + 1) * used.length =
        2 ^ (k + 1) * used.length + 2 ^ (k + 1) * used.length := by
      rw [Nat.pow_succ 2 (k + 1)]
      ring
    omega

/--
The builder succeeds on every table whose frequencies and symbols are few enough, and gives up when
twelve attempts are not.

It succeeds exactly when the tree over the used symbols is at most fifteen high for the table
itself or one of its first eleven halvings.
-/
theorem huffBuild_converges_iff (some_used : huffUsed f ≠ []) :
    (((huffUsed f).map f).sum + 4094 * (huffUsed f).length < 5292032 →
      (huffBuild f).isSome) ∧
    ((huffBuild f).isSome ↔
      ∃ k < 12, huffHeight ((huffUsed f).map (huffSmooth^[k] f)) ≤ huffMaxBits) := by
  -- The eleventh halving is light enough when the frequencies and symbols are few.
  refine ⟨fun few => (huffBuild_isSome some_used).mpr ⟨11, by decide, ?_⟩,
    huffBuild_isSome some_used⟩
  have smoothed := huffSmooth_sum (f := f) (huffUsed f) 11
  -- Smoothing leaves every weight of a used symbol above zero.
  have positive : ∀ w ∈ (huffUsed f).map (huffSmooth^[11] f), 0 < w := by
    intro w member
    obtain ⟨s, there, rfl⟩ := List.mem_map.mp member
    have kept : ∀ k, huffSmooth^[k] f s ≠ 0 := by
      intro k
      induction k with
      | zero => exact (mem_huffUsed.mp there).2
      | succ k ih =>
        rw [Function.iterate_succ_apply', huffSmooth_used]
        exact ih
    exact Nat.pos_of_ne_zero (kept 11)
  have heavy := huffHeight_fib (by simpa using some_used) positive
  -- A tree of height sixteen weighs at least the eighteenth Fibonacci number.
  by_contra high
  have more := Nat.fib_mono (show 18 ≤ huffHeight ((huffUsed f).map (huffSmooth^[11] f)) + 2 by
    have : huffMaxBits = 15 := rfl
    omega)
  have eighteen : Nat.fib 18 = 2584 := by decide +kernel
  rw [eighteen] at more
  omega

/-- Two symbols of one occurrence each are few enough. -/
theorem huffBuild_converges_two : (huffBuild fun s => if s < 2 then 1 else 0).isSome :=
  (huffBuild_converges_iff (by decide +kernel)).1 (by decide +kernel)

/-- Frequencies of seventeen symbols that eleven halvings bring down to Fibonacci's numbers. -/
def steepCounts (s : Nat) : Nat :=
  [1, 1, 2, 2050, 6146, 12290, 22530, 38914, 65538, 108546, 178178, 290818, 473090, 768002, 1245186,
    2017282, 3266562].getD s 0

/-- On these no attempt succeeds. -/
theorem huffBuild_gives_up : ¬ ∀ f : Nat → Nat, (∀ s, f s < 2 ^ 32) → (∃ s < huffSymbols, f s ≠ 0) →
    (huffBuild f).isSome := by
  -- Were the claim true, one of the twelve trees of these weights would be low enough.
  intro converges
  have small : ∀ s, steepCounts s < 2 ^ 32 := by
    intro s
    by_cases listed : s < 17
    · revert s
      decide +kernel
    · rw [steepCounts, List.getD_eq_default _ _ (by simpa using listed)]
      decide
  have some_used : huffUsed steepCounts ≠ [] := by decide +kernel
  obtain ⟨k, below, low⟩ := (huffBuild_isSome some_used).mp
    (converges steepCounts small ⟨0, by decide, by decide⟩)
  have high : ∀ k < 12, huffMaxBits <
      huffHeight ((huffUsed steepCounts).map (huffSmooth^[k] steepCounts)) := by decide +kernel
  exact absurd low (Nat.not_le.mpr (high k below))

end Attempts

end Xq
