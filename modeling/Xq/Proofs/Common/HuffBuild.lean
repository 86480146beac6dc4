import Xq.Common.Huff
import Xq.Lib.Canonical
import Xq.Lib.MergeForest

/-! The lengths the Huffman builder hands out fill the code space exactly. -/

namespace Xq

open Lib

/-- What the scan for the two smallest weights has found after `k` positions. -/
def Lightest (w : Nat → Nat) (k : Nat) : Option Nat × Option Nat → Prop
  | (none, b) => k = 0 ∧ b = none
  | (some a, none) => k = 1 ∧ a = 0
  | (some a, some b) =>
    a ≠ b ∧ a < k ∧ b < k ∧ (∀ j < k, w a ≤ w j) ∧ ∀ j < k, j ≠ a → w b ≤ w j

/-- Each position of the scan leaves the two lightest found. -/
theorem huffPick_lightest (weight : Nat → Nat) (live : List Nat) {k : Nat}
    {best : Option Nat × Option Nat}
    (lightest : Lightest (fun j => weight (live.getD j 0)) k best) :
    Lightest (fun j => weight (live.getD j 0)) (k + 1) (huffPick weight live best k) := by
  -- The cases are those of the source: no position kept so far, one, or two.
  rcases best with ⟨_ | a, _ | b⟩
  · obtain ⟨rfl, _⟩ := lightest
    exact ⟨rfl, rfl⟩
  · exact absurd lightest.2 (by simp)
  · -- The second position always finds a place, in front of the first or behind it.
    obtain ⟨rfl, rfl⟩ := lightest
    rw [huffPick]
    dsimp only
    split
    · refine ⟨by decide, by decide, by decide, fun j below => ?_, fun j below other => ?_⟩
      · obtain rfl | rfl : j = 0 ∨ j = 1 := by omega
        · dsimp only
          omega
        · exact Nat.le_refl _
      · obtain rfl : j = 0 := by omega
        exact Nat.le_refl _
    · refine ⟨by decide, by decide, by decide, fun j below => ?_, fun j below other => ?_⟩
      · obtain rfl | rfl : j = 0 ∨ j = 1 := by omega
        · exact Nat.le_refl _
        · dsimp only
          omega
      · obtain rfl : j = 1 := by omega
        exact Nat.le_refl _
  · obtain ⟨apart, left, right, least, second⟩ := lightest
    dsimp only at least second
    rw [huffPick]
    dsimp only
    split
    · -- Lighter than both, it comes in front of them.
      rename_i less
      refine ⟨by omega, by omega, by omega, fun j below => ?_, fun j below other => ?_⟩
      · rcases Nat.lt_succ_iff_lt_or_eq.mp below with early | rfl
        · exact less.le.trans (least j early)
        · exact Nat.le_refl _
      · exact least j (by omega)
    · rename_i more
      split
      · -- Lighter than the second only, it takes that one's place.
        rename_i less
        refine ⟨by omega, by omega, by omega, fun j below => ?_, fun j below other => ?_⟩
        · rcases Nat.lt_succ_iff_lt_or_eq.mp below with early | rfl
          · exact least j early
          · exact Nat.not_lt.mp more
        · rcases Nat.lt_succ_iff_lt_or_eq.mp below with early | rfl
          · exact less.le.trans (second j early other)
          · exact Nat.le_refl _
      · -- Heavier than both, it changes nothing.
        rename_i heavy
        refine ⟨apart, by omega, by omega, fun j below => ?_, fun j below other => ?_⟩
        · rcases Nat.lt_succ_iff_lt_or_eq.mp below with early | rfl
          · exact least j early
          · exact Nat.not_lt.mp more
        · rcases Nat.lt_succ_iff_lt_or_eq.mp below with early | rfl
          · exact second j early other
          · exact Nat.not_lt.mp heavy

/-- The scan over two live nodes or more finds the two lightest. -/
theorem huffTwoSmallest_lightest (weight : Nat → Nat) {live : List Nat}
    (several : 2 ≤ live.length) :
    ∃ a b, huffTwoSmallest weight live = (some a, some b) ∧
      Lightest (fun j => weight (live.getD j 0)) live.length (some a, some b) := by
  -- The induction is on the positions scanned.
  have scanned : ∀ k, Lightest (fun j => weight (live.getD j 0)) k
      ((List.range k).foldl (huffPick weight live) (none, none)) := by
    intro k
    induction k with
    | zero => exact ⟨rfl, rfl⟩
    | succ k ih =>
      rw [List.range_succ, List.foldl_append]
      exact huffPick_lightest weight live ih
  have found := scanned live.length
  rw [← huffTwoSmallest] at found
  generalize huffTwoSmallest weight live = best at found ⊢
  rcases best with ⟨_ | a, _ | b⟩
  · exact absurd found.1 (by omega)
  · exact absurd found.1 (by omega)
  · exact absurd found.1 (by omega)
  · exact ⟨a, b, rfl, found⟩

/-- A round of the construction: the two lightest roots get a new parent, of their weight. -/
structure HuffJoin (t t' : HuffNodes) (a b : Nat) : Prop where
  picked : ∃ x y, huffTwoSmallest t.weight t.live = (some x, some y) ∧ x < t.live.length ∧
    y < t.live.length ∧ t.live.getD x 0 = a ∧ t.live.getD y 0 = b
  left : a ∈ t.live
  right : b ∈ t.live
  lightest : ∀ r ∈ t.live, t.weight a ≤ t.weight r
  second : ∀ r ∈ t.live, r ≠ a → t.weight b ≤ t.weight r
  swap : (a :: b :: t'.live).Perm (t.total :: t.live)
  weight : t'.weight = Function.update t.weight t.total (t.weight a + t.weight b)
  parent : t'.parent = Function.update (Function.update (Function.update t.parent t.total none) a
    (some t.total)) b (some t.total)
  total : t'.total = t.total + 1

/-- The round as the source writes it, over the positions of the two lightest. -/
theorem huffMerge_eq {t : HuffNodes} {a b : Nat}
    (found : huffTwoSmallest t.weight t.live = (some a, some b)) :
    huffMerge t =
      { weight := Function.update t.weight t.total (t.weight (t.live.getD a 0) +
          t.weight (t.live.getD b 0))
        parent := Function.update (Function.update (Function.update t.parent t.total none)
          (t.live.getD a 0) (some t.total)) (t.live.getD b 0) (some t.total)
        live := ((t.live.set (min a b) t.total).set (max a b)
          ((t.live.set (min a b) t.total).getD (t.live.length - 1) 0)).take (t.live.length - 1)
        total := t.total + 1 } := by
  -- The source orders the two positions before it writes over them.
  have high : (if a > b then a else b) = max a b := by
    rcases Nat.lt_or_ge b a with less | more
    · rw [if_pos less, Nat.max_eq_left (Nat.le_of_lt less)]
    · rw [if_neg (by omega), Nat.max_eq_right more]
  have low : (if a < b then a else b) = min a b := by
    rcases Nat.lt_or_ge a b with less | more
    · rw [if_pos less, Nat.min_eq_left (Nat.le_of_lt less)]
    · rw [if_neg (by omega), Nat.min_eq_right more]
  simp only [huffMerge, found, high, low]

theorem huffMerge_join {t : HuffNodes} (several : 2 ≤ t.live.length) :
    ∃ a b, HuffJoin t (huffMerge t) a b := by
  obtain ⟨a, b, found, apart, left, right, least, second⟩ :=
    huffTwoSmallest_lightest t.weight several
  have merged := huffMerge_eq found
  have member : ∀ i < t.live.length, t.live.getD i 0 ∈ t.live := fun i within => by
    rw [List.getD_eq_getElem _ _ within]
    exact List.getElem_mem within
  have position : ∀ r ∈ t.live, ∃ j < t.live.length, t.live.getD j 0 = r := fun r there => by
    obtain ⟨j, within, rfl⟩ := List.getElem_of_mem there
    exact ⟨j, within, List.getD_eq_getElem _ _ within⟩
  refine ⟨t.live.getD a 0, t.live.getD b 0, ⟨a, b, found, left, right, rfl, rfl⟩,
    member a left, member b right, fun r there => ?_,
    fun r there other => ?_, ?_, by rw [merged], by rw [merged], by rw [merged]⟩
  · obtain ⟨j, within, rfl⟩ := position r there
    exact least j within
  · obtain ⟨j, within, rfl⟩ := position r there
    exact second j within fun same => other (by rw [same])
  · -- The new live list holds the new root instead of the two it joins.
    rw [merged]
    exact replaceTwo_perm_of_ne t.live t.total 0 apart left right

section Joining

variable {n : Nat} {t t' : HuffNodes} {depth root : Nat → Nat} {a b : Nat}

/-- A round joins two roots of the forest. -/
theorem HuffJoin.forest (join : HuffJoin t t' a b)
    (forest : Forest n t.parent t.live t.total depth root) :
    Forest n t'.parent t'.live t'.total
      (fun i => if root i = a ∨ root i = b then depth i + 1 else depth i)
      (fun i => if root i = a ∨ root i = b then t.total else root i) := by
  -- The two roots are taken out, and a new one is put above them.
  rw [join.parent, join.total]
  exact forest.join join.left join.right join.swap

theorem HuffJoin.shorter (join : HuffJoin t t' a b) : t'.live.length + 1 = t.live.length := by
  -- Two roots leave and one comes.
  have size := join.swap.length_eq
  simp only [List.length_cons] at size
  omega

/-- The new root is none of the old ones, and the two it joins are none of those left. -/
theorem HuffJoin.distinct (join : HuffJoin t t' a b)
    (forest : Forest n t.parent t.live t.total depth root) :
    t.total ∉ t.live ∧ (a :: b :: t'.live).Nodup := by
  -- The number of the new root is not in use yet.
  have fresh : t.total ∉ t.live := fun member => Nat.lt_irrefl _ (forest.below _ member)
  exact ⟨fresh, join.swap.nodup_iff.mpr (List.nodup_cons.mpr ⟨fresh, forest.nodup⟩)⟩

/-- The new root is left, and with it at least two roots were there before. -/
theorem HuffJoin.several (join : HuffJoin t t' a b)
    (forest : Forest n t.parent t.live t.total depth root) : 2 ≤ t.live.length := by
  -- The new root is one of those left, and two have gone.
  obtain ⟨fresh, _⟩ := join.distinct forest
  have added := ((List.mem_cons.mp (join.swap.mem_iff.mpr List.mem_cons_self)).resolve_left
    fun same => fresh (same ▸ join.left))
  have left := (List.mem_cons.mp added).resolve_left fun same => fresh (same ▸ join.right)
  have positive := List.length_pos_of_mem left
  have shorter := join.shorter
  omega

/-- The construction ends with a single tree over all leaves, and what every round keeps holds of
it. -/
theorem huffMergeLoop_keeps {P : HuffNodes → (Nat → Nat) → (Nat → Nat) → Prop}
    (step : ∀ {t : HuffNodes} {depth root : Nat → Nat} {a b : Nat},
      Forest n t.parent t.live t.total depth root → HuffJoin t (huffMerge t) a b →
        P t depth root → P (huffMerge t)
          (fun i => if root i = a ∨ root i = b then depth i + 1 else depth i)
          (fun i => if root i = a ∨ root i = b then t.total else root i))
    (fuel : Nat) (forest : Forest n t.parent t.live t.total depth root) (holds : P t depth root)
    (some_live : 1 ≤ t.live.length) (enough : t.live.length ≤ fuel + 1)
    (size : t.total + t.live.length = 2 * n) :
    ∃ depth' root' r, Forest n (huffMergeLoop fuel t).parent [r] (2 * n - 1) depth' root' ∧
      (huffMergeLoop fuel t).live = [r] ∧ P (huffMergeLoop fuel t) depth' root' := by
  -- The induction is on the fuel, of which a round takes one and one of the roots with it.
  induction fuel generalizing t depth root with
  | zero =>
    obtain ⟨r, single⟩ := List.length_eq_one_iff.mp (Nat.le_antisymm enough some_live)
    rw [single, List.length_singleton] at size
    refine ⟨depth, root, r, ?_, single, holds⟩
    rw [← size, Nat.add_sub_cancel, ← single]
    exact forest
  | succ fuel ih =>
    rw [huffMergeLoop]
    by_cases several : t.live.length > 1
    · rw [if_pos several]
      obtain ⟨a, b, join⟩ := huffMerge_join several
      have shorter := join.shorter
      have larger := join.total
      exact ih (join.forest forest) (step forest join holds) (by omega) (by omega) (by omega)
    · -- One root is left, and the loop ends.
      rw [if_neg several]
      obtain ⟨r, single⟩ := List.length_eq_one_iff.mp (show t.live.length = 1 by omega)
      rw [single, List.length_singleton] at size
      refine ⟨depth, root, r, ?_, single, holds⟩
      rw [← size, Nat.add_sub_cancel, ← single]
      exact forest

/-- The tree over the used symbols of a table. -/
def huffTree (f : Nat → Nat) : HuffNodes := huffMergeLoop (huffUsed f).length (huffLeaves f)

/-- What holds of the leaves and is kept by every round holds of the tree. -/
theorem huffTree_keeps {f : Nat → Nat} (some_used : 1 ≤ (huffUsed f).length)
    {P : HuffNodes → (Nat → Nat) → (Nat → Nat) → Prop}
    (step : ∀ {t : HuffNodes} {depth root : Nat → Nat} {a b : Nat},
      Forest (huffUsed f).length t.parent t.live t.total depth root →
        HuffJoin t (huffMerge t) a b → P t depth root → P (huffMerge t)
          (fun i => if root i = a ∨ root i = b then depth i + 1 else depth i)
          (fun i => if root i = a ∨ root i = b then t.total else root i))
    (start : P (huffLeaves f) (fun _ => 0) fun i => i) :
    ∃ depth root r, Forest (huffUsed f).length (huffTree f).parent [r]
      (2 * (huffUsed f).length - 1) depth root ∧ (huffTree f).live = [r] ∧
        P (huffTree f) depth root := by
  -- The leaves are a forest of single nodes, each of them live.
  have leaves : (huffLeaves f).live.length = (huffUsed f).length := List.length_range
  have total : (huffLeaves f).total = (huffUsed f).length := rfl
  exact huffMergeLoop_keeps step _ (Forest.leaves _) start (by omega) (by omega) (by omega)

end Joining

/-- Following parents to a root counts the edges on the way. -/
theorem huffDepth_climbs {parent : Nat → Option Nat} {i k r : Nat}
    (climb : Climbs parent i k r) (rootless : parent r = none) {fuel : Nat}
    (enough : k < fuel) : huffDepth parent fuel i = k := by
  -- The induction is on the climb; every edge is one round of the loop.
  induction climb generalizing fuel with
  | here i =>
    obtain ⟨more, rfl⟩ : ∃ more, fuel = more + 1 := ⟨fuel - 1, by omega⟩
    rw [huffDepth, rootless]
  | up edge _ ih =>
    obtain ⟨more, rfl⟩ : ∃ more, fuel = more + 1 := ⟨fuel - 1, by omega⟩
    rw [huffDepth, edge]
    simp only [ih rootless (show _ < more by omega)]

/-- The length pass gives each listed leaf's symbol its depth, or stops at a depth too large. -/
theorem huffLengths_some {parent : Nat → Option Nat} {node : List Nat} (distinct : node.Nodup)
    {leaves : List Nat} (apart : leaves.Nodup) (within : ∀ i ∈ leaves, i < node.length)
    {len : Nat → Nat} {maxLen : Nat} {len' : Nat → Nat} {maxLen' : Nat}
    (made : huffLengths parent node leaves len maxLen = some (len', maxLen')) :
    (∀ i ∈ leaves, huffDepth parent (2 * huffSymbols) i ≤ huffMaxBits ∧
      len' (node.getD i 0) = huffDepth parent (2 * huffSymbols) i) ∧
      ∀ s, (∀ i ∈ leaves, node.getD i 0 ≠ s) → len' s = len s := by
  -- The induction is on the leaves; each writes its own symbol's length.
  induction leaves generalizing len maxLen with
  | nil =>
    rw [huffLengths] at made
    obtain ⟨rfl, _⟩ := Prod.mk.inj (Option.some.inj made)
    exact ⟨fun i member => absurd member List.not_mem_nil, fun _ _ => rfl⟩
  | cons i rest ih =>
    rw [huffLengths] at made
    by_cases long : huffDepth parent (2 * huffSymbols) i > huffMaxBits
    · simp only [if_pos long] at made
      exact absurd made (by simp)
    · simp only [if_neg long] at made
      obtain ⟨given, kept⟩ := ih (List.nodup_cons.mp apart).2
        (fun j member => within j (List.mem_cons_of_mem _ member)) made
      refine ⟨fun j member => ?_, fun s other => ?_⟩
      · rcases List.mem_cons.mp member with rfl | member
        · -- No later leaf has the same symbol, so the length stays.
          refine ⟨by omega, ?_⟩
          rw [kept, Function.update_self]
          intro k later same
          have here := within j List.mem_cons_self
          have there := within k (List.mem_cons_of_mem _ later)
          rw [List.getD_eq_getElem _ _ there, List.getD_eq_getElem _ _ here] at same
          obtain rfl : k = j := (List.Nodup.getElem_inj_iff distinct).mp same
          exact (List.nodup_cons.mp apart).1 later
        · exact given j member
      · -- A symbol of no leaf keeps what it had.
        rw [kept s fun j member => other j (List.mem_cons_of_mem _ member),
          Function.update_of_ne (other i List.mem_cons_self).symm]

/-- The lengths of an alphabet's codes, when they fill the code space of every length in use. -/
structure Filling (len : Nat → Nat) : Prop where
  within : ∀ s, len s ≠ 0 → s < huffSymbols
  short : ∀ s, len s ≤ huffMaxBits
  full : ∀ m, (∀ s, len s ≤ m) → taken huffSymbols len m (m + 1) = 2 ^ m

/-- The Kraft sum of lengths that fill the code space is one. -/
theorem Filling.kraftSum {len : Nat → Nat} (filling : Filling len) :
    kraftSum huffSymbols len = 1 := by
  -- Counted in codes of the largest length, the space taken is the whole space.
  have full := taken_kraftSum (n := huffSymbols) filling.short
  rw [filling.full _ filling.short] at full
  push_cast at full
  have positive : (2 : ℚ) ^ huffMaxBits ≠ 0 := by positivity
  exact (mul_eq_left₀ positive).mp full.symm

/-- The used symbols are listed once each. -/
theorem huffUsed_nodup (f : Nat → Nat) : (huffUsed f).Nodup :=
  List.nodup_range.filter _

theorem mem_huffUsed {f : Nat → Nat} {s : Nat} : s ∈ huffUsed f ↔ s < huffSymbols ∧ f s ≠ 0 := by
  simp [huffUsed]

/-- Where neither no symbol nor a single one is in use, there are two. -/
theorem two_le_huffUsed {f : Nat → Nat} (some_used : huffUsed f ≠ [])
    (several : ∀ s, huffUsed f ≠ [s]) : 2 ≤ (huffUsed f).length := by
  -- The list is taken apart as the source's three cases do.
  cases listed : huffUsed f with
  | nil => exact absurd listed some_used
  | cons s rest =>
    cases rest with
    | nil => exact absurd listed (several s)
    | cons => simp

theorem huffUsed_length (f : Nat → Nat) : (huffUsed f).length ≤ huffSymbols :=
  (List.length_filter_le _ _).trans (by simp)

/-- A sum over the listed symbols is a sum over their positions. -/
theorem sum_huffUsed {M : Type} [AddCommMonoid M] (f : Nat → Nat) (g : Nat → M) :
    ∑ s ∈ (Finset.range huffSymbols).filter (fun s => f s ≠ 0), g s =
      ∑ i ∈ Finset.range (huffUsed f).length, g ((huffUsed f).getD i 0) := by
  have listed : (Finset.range huffSymbols).filter (fun s => f s ≠ 0) = (huffUsed f).toFinset := by
    ext s
    simp [mem_huffUsed]
  rw [listed, List.sum_toFinset g (huffUsed_nodup f)]
  -- Position by position, from the front of the list.
  induction huffUsed f with
  | nil => rfl
  | cons s rest ih =>
    rw [List.map_cons, List.sum_cons, ih, List.length_cons, Finset.sum_range_succ', add_comm]
    rfl

/-- The leaves of the tree have the depths that the walks along the parents find. -/
theorem huffTree_depth {f depth root : Nat → Nat} {r : Nat}
    (forest : Forest (huffUsed f).length (huffTree f).parent [r] (2 * (huffUsed f).length - 1)
      depth root) {i : Nat} (within : i < (huffUsed f).length) :
    huffDepth (huffTree f).parent (2 * huffSymbols) i = depth i := by
  -- The climb is shorter than the loop's limit, since its nodes are numbered upwards.
  have few := huffUsed_length f
  have climb := forest.climbs i within
  have up := climb.le fun i p edge => (forest.younger i p edge).1
  have top := forest.below (root i) (forest.rooted i within)
  exact huffDepth_climbs climb (forest.rootless _ (forest.rooted i within)) (by omega)

/-- An attempt that is not given up gives every used symbol the depth of its leaf. -/
theorem huffAttempt_depth {f len depth root : Nat → Nat} {maxLen r : Nat}
    (forest : Forest (huffUsed f).length (huffTree f).parent [r] (2 * (huffUsed f).length - 1)
      depth root) (made : huffAttempt f = some (len, maxLen)) :
    (∀ i < (huffUsed f).length,
      depth i ≤ huffMaxBits ∧ len ((huffUsed f).getD i 0) = depth i) ∧
      ∀ s, s ∉ huffUsed f → len s = 0 := by
  -- The length pass runs over the leaves, whose symbols are the used ones.
  obtain ⟨given, kept⟩ := huffLengths_some (huffUsed_nodup f) List.nodup_range
    (fun i member => List.mem_range.mp member) made
  refine ⟨fun i within => ?_, fun s absent => kept s fun i member same => absent ?_⟩
  · have coded := given i (List.mem_range.mpr within)
    change huffDepth (huffTree f).parent _ _ ≤ _ ∧ _ = huffDepth (huffTree f).parent _ _ at coded
    rwa [huffTree_depth forest within] at coded
  · rw [← same, List.getD_eq_getElem _ _ (List.mem_range.mp member)]
    exact List.getElem_mem _

/-- An attempt that is not given up leaves lengths that fill the code space. -/
theorem huffAttempt_filling {f : Nat → Nat} {len : Nat → Nat} {maxLen : Nat}
    (several : 2 ≤ (huffUsed f).length) (made : huffAttempt f = some (len, maxLen)) :
    Filling len ∧ ∀ s, len s ≠ 0 ↔ s < huffSymbols ∧ f s ≠ 0 := by
  -- The depths of a tree satisfy Kraft's equality, and the lengths are those depths.
  obtain ⟨depth, root, r, forest, _, _⟩ := huffTree_keeps (f := f) (P := fun _ _ _ => True)
    (by omega) (fun _ _ _ => trivial) trivial
  have kraft := forest.kraft
  obtain ⟨coded, uncoded⟩ := huffAttempt_depth forest made
  have position : ∀ s ∈ huffUsed f, ∃ i < (huffUsed f).length, (huffUsed f).getD i 0 = s := by
    intro s member
    obtain ⟨i, within, found⟩ := List.getElem_of_mem member
    exact ⟨i, within, by rw [List.getD_eq_getElem _ _ within, found]⟩
  -- A used symbol has a leaf, which is not the root.
  have used : ∀ s, len s ≠ 0 ↔ s < huffSymbols ∧ f s ≠ 0 := by
    intro s
    rw [← mem_huffUsed]
    refine ⟨fun some_len => Classical.not_not.mp fun absent => some_len (uncoded s absent),
      fun member => ?_⟩
    obtain ⟨i, within, rfl⟩ := position s member
    rw [(coded i within).2]
    exact kraft_depth_ne_zero several within kraft
  refine ⟨⟨fun s some_len => ((used s).mp some_len).1, fun s => ?_, fun m longest => ?_⟩, used⟩
  · by_cases member : s ∈ huffUsed f
    · obtain ⟨i, within, rfl⟩ := position s member
      rw [(coded i within).2]
      exact (coded i within).1
    · rw [uncoded s member]
      exact Nat.zero_le _
  · -- The code space taken is the sum over the leaves, which is Kraft's.
    calc taken huffSymbols len m (m + 1)
        = ∑ s ∈ (Finset.range huffSymbols).filter (fun s => f s ≠ 0), 2 ^ (m - len s) := by
          rw [taken, Finset.sum_filter]
          refine Finset.sum_congr rfl fun s member => ?_
          have some_len := used s
          have below := longest s
          by_cases present : f s ≠ 0
          · rw [if_pos present,
              if_pos ⟨some_len.mpr ⟨Finset.mem_range.mp member, present⟩, by omega⟩]
          · rw [if_neg present, if_neg fun both => present (some_len.mp both.1).2]
      _ = ∑ i ∈ Finset.range (huffUsed f).length, 2 ^ (m - depth i) := by
          rw [sum_huffUsed]
          exact Finset.sum_congr rfl fun i member => by
            rw [(coded i (Finset.mem_range.mp member)).2]
      _ = 2 ^ m := kraft_scaled kraft fun i within => by
          rw [← (coded i within).2]
          exact longest _

/-- Smoothing keeps exactly the used symbols in use. -/
theorem huffSmooth_used (f : Nat → Nat) (s : Nat) : huffSmooth f s ≠ 0 ↔ f s ≠ 0 := by
  by_cases used : f s ≠ 0 <;> simp [huffSmooth, used]

/-- Smoothing keeps the list of used symbols. -/
theorem huffUsed_smooth (f : Nat → Nat) : huffUsed (huffSmooth f) = huffUsed f := by
  simp only [huffUsed, huffSmooth_used]

/-- However many attempts it takes, the lengths found fill the code space. -/
theorem huffAttempts_filling {n : Nat} {f : Nat → Nat} {len : Nat → Nat} {maxLen : Nat}
    (several : 2 ≤ (huffUsed f).length) (made : huffAttempts n f = some (len, maxLen)) :
    Filling len ∧ ∀ s, len s ≠ 0 ↔ s < huffSymbols ∧ f s ≠ 0 := by
  -- The induction is on the attempts; flattening keeps which symbols are in use.
  induction n generalizing f with
  | zero => cases made
  | succ n ih =>
    rw [huffAttempts] at made
    split at made
    next r first =>
      obtain rfl := Option.some.inj made
      exact huffAttempt_filling several first
    next =>
      obtain ⟨filling, used⟩ := ih (by rwa [huffUsed_smooth]) made
      exact ⟨filling, fun s => by rw [used, huffSmooth_used]⟩

end Xq
