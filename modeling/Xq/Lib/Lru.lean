import Mathlib.Data.Finset.Card
import Mathlib.Data.List.Nodup

/-! Least recently used: the order in which a history of accesses leaves its keys. -/

namespace Xq.Lib

variable {α : Type} [DecidableEq α]

/-- The keys of a history, each once, the most recently used first. The history is read backwards:
its last access comes first. -/
def recent : List α → List α
  | [] => []
  | a :: history => a :: (recent history).filter (· ≠ a)

/-- The keys used since the last access to `b`, other than `b`. -/
def usedSince (b : α) (history : List α) : Finset α := (history.takeWhile (· ≠ b)).toFinset

/-- What a least-recently-used list of at most `c` keys becomes when `a` is used. -/
def touch (c : Nat) (a : α) (keys : List α) : List α := (a :: keys.filter (· ≠ a)).take c

@[simp] theorem mem_recent {b : α} {history : List α} : b ∈ recent history ↔ b ∈ history := by
  -- The filter leaves out copies of the key in front, so membership is what it was.
  induction history with
  | nil => rfl
  | cons a history ih =>
    rw [recent, List.mem_cons, List.mem_cons, List.mem_filter, ih]
    by_cases same : b = a
    · simp only [same, true_or]
    · simp only [same, false_or, ne_eq, not_false_eq_true, decide_true, and_true]

theorem recent_nodup (history : List α) : (recent history).Nodup := by
  induction history with
  | nil => exact List.nodup_nil
  | cons a history ih =>
    rw [recent, List.nodup_cons]
    -- The key in front has been filtered out of the rest.
    exact ⟨fun member => of_decide_eq_true (List.mem_filter.mp member).2 rfl, ih.filter _⟩

/-- Leaving out one key leaves the others in front of `b`. -/
theorem mem_takeWhile_filter {a b x : α} (other : a ≠ b) (l : List α) :
    x ∈ (l.filter (· ≠ a)).takeWhile (· ≠ b) ↔ x ≠ a ∧ x ∈ l.takeWhile (· ≠ b) := by
  induction l with
  | nil => simp only [List.filter_nil, List.takeWhile_nil, List.not_mem_nil, and_false]
  | cons y l ih =>
    by_cases left : y = a
    · -- The key itself is left out, and stands before `b` without being it.
      have kept : (y :: l).takeWhile (· ≠ b) = y :: l.takeWhile (· ≠ b) := by
        rw [List.takeWhile_cons_of_pos (by rw [left]; exact decide_eq_true other)]
      rw [List.filter_cons_of_neg (by simp [left]), ih, kept, List.mem_cons]
      constructor
      · rintro ⟨apart, front⟩
        exact ⟨apart, .inr front⟩
      · rintro ⟨apart, rfl | front⟩
        · exact (apart left).elim
        · exact ⟨apart, front⟩
    · rw [List.filter_cons_of_pos (by simp [left])]
      -- Both lists end where `b` stands.
      by_cases found : y = b
      · rw [List.takeWhile_cons_of_neg (by simp [found]),
          List.takeWhile_cons_of_neg (by simp [found])]
        simp only [List.not_mem_nil, and_false]
      · -- Any other key stays in both.
        rw [List.takeWhile_cons_of_pos (by simp [found]),
          List.takeWhile_cons_of_pos (by simp [found]), List.mem_cons, List.mem_cons, ih]
        constructor
        · rintro (rfl | ⟨apart, front⟩)
          · exact ⟨left, .inl rfl⟩
          · exact ⟨apart, .inr front⟩
        · rintro ⟨apart, rfl | front⟩
          · exact .inl rfl
          · exact .inr ⟨apart, front⟩

/-- In front of a key stand the keys used since. -/
theorem recent_front {b : α} (history : List α) :
    ((recent history).takeWhile (· ≠ b)).toFinset = usedSince b history := by
  induction history with
  | nil => rfl
  | cons a history ih =>
    rw [recent, usedSince]
    -- The key used last has nothing in front of it.
    by_cases last : a = b
    · rw [List.takeWhile_cons_of_neg (by simp [last]), List.takeWhile_cons_of_neg (by simp [last])]
    · -- In front of every other key stands the one used last, and what stood there before.
      rw [List.takeWhile_cons_of_pos (by simp [last]), List.takeWhile_cons_of_pos (by simp [last])]
      ext x
      rw [usedSince] at ih
      have same : x ∈ (recent history).takeWhile (· ≠ b) ↔ x ∈ history.takeWhile (· ≠ b) := by
        rw [← List.mem_toFinset, ih, List.mem_toFinset]
      rw [List.mem_toFinset, List.mem_toFinset, List.mem_cons, List.mem_cons,
        mem_takeWhile_filter last, same]
      constructor
      · rintro (rfl | ⟨_, front⟩)
        · exact .inl rfl
        · exact .inr front
      · rintro (rfl | front)
        · exact .inl rfl
        · by_cases first : x = a
          · exact .inl first
          · exact .inr ⟨first, front⟩

/-- A key is among the first `c` when fewer than `c` stand in front of it. -/
theorem mem_take_iff {b : α} {l : List α} (c : Nat) :
    b ∈ l.take c ↔ b ∈ l ∧ (l.takeWhile (· ≠ b)).length < c := by
  -- The key is looked for from the front, one place at a time.
  induction l generalizing c with
  | nil => simp only [List.take_nil, List.not_mem_nil, false_and]
  | cons x l ih =>
    -- With a limit of zero nothing is looked at.
    cases c with
    | zero => simp only [List.take_zero, List.not_mem_nil, Nat.not_lt_zero, and_false]
    | succ c =>
      rw [List.take_succ_cons, List.mem_cons, List.mem_cons, ih]
      by_cases here : x = b
      · rw [List.takeWhile_cons_of_neg (by simp [here])]
        simp only [here, true_or, List.length_nil, Nat.zero_lt_succ, and_self]
      · rw [List.takeWhile_cons_of_pos (by simp [here]), List.length_cons]
        have apart : ¬ b = x := fun same => here same.symm
        simp only [apart, false_or, Nat.succ_lt_succ_iff]

/-- The `c` most recent keys are those with fewer than `c` others used since. -/
theorem mem_recent_take {b : α} {history : List α} {c : Nat} :
    b ∈ (recent history).take c ↔ b ∈ history ∧ (usedSince b history).card < c := by
  -- The keys in front are distinct, so their number is a cardinality.
  have front : ((recent history).takeWhile (· ≠ b)).Nodup :=
    (recent_nodup history).sublist (List.takeWhile_sublist _)
  rw [mem_take_iff, mem_recent, ← recent_front, List.toFinset_card_of_nodup front]

/-- Leaving out a key that occurs once reaches one place further at most. -/
theorem take_filter_ne {a : α} {l : List α} (nodup : l.Nodup) (n : Nat) :
    (l.filter (· ≠ a)).take n = ((l.take (n + 1)).filter (· ≠ a)).take n := by
  induction l generalizing n with
  | nil => simp only [List.filter_nil, List.take_nil]
  | cons x l ih =>
    obtain ⟨fresh, rest⟩ := List.nodup_cons.mp nodup
    rw [List.take_succ_cons]
    by_cases here : x = a
    · -- Behind its one occurrence the key does not come again.
      have absent : ∀ y ∈ l, decide (y ≠ a) = true := fun y member =>
        decide_eq_true fun same => fresh (here ▸ same ▸ member)
      rw [List.filter_cons_of_neg (by simp [here]), List.filter_cons_of_neg (by simp [here]),
        List.filter_eq_self.mpr absent,
        List.filter_eq_self.mpr fun y member => absent y (List.mem_of_mem_take member),
        List.take_take, min_self]
    · -- Any other key takes one place on both sides.
      rw [List.filter_cons_of_pos (by simp [here]), List.filter_cons_of_pos (by simp [here])]
      cases n with
      | zero => rw [List.take_zero, List.take_zero]
      | succ n => rw [List.take_succ_cons, List.take_succ_cons, ih rest n]

/-- The list of the `c` most recent keys is kept up by touching the key used. -/
theorem recent_take_cons (a : α) (history : List α) (c : Nat) :
    (recent (a :: history)).take c = touch c a ((recent history).take c) := by
  -- The key used comes first, and is filtered out of what stands behind it.
  cases c with
  | zero => rfl
  | succ c =>
    rw [recent, touch, List.take_succ_cons, List.take_succ_cons,
      take_filter_ne (recent_nodup history)]

end Xq.Lib
