import Mathlib.Data.List.Basic

/-! Back references: copying symbols from a fixed distance behind the end of a growing output. -/

namespace Xq.Lib

variable {α : Type*} {blank : α}

/-- Append `n` symbols, each the one `dist` back; a copy may overlap its own output. -/
def copyBack (blank : α) (dist : Nat) : Nat → List α → List α
  | 0, out => out
  | n + 1, out => copyBack blank dist n (out ++ [out.getD (out.length - dist) blank])

@[simp] theorem length_copyBack (dist n : Nat) (out : List α) :
    (copyBack blank dist n out).length = out.length + n := by
  -- The induction is on the number of bytes, and each adds one.
  induction n generalizing out with
  | zero => rfl
  | succ n ih =>
    rw [copyBack, ih, List.length_append, List.length_singleton]
    omega

/-- A copy in two goes is a copy of the sum. -/
theorem copyBack_add (dist m n : Nat) (out : List α) :
    copyBack blank dist (m + n) out = copyBack blank dist n (copyBack blank dist m out) := by
  -- The induction is on the first part of the copy.
  induction m generalizing out with
  | zero => simp [copyBack]
  | succ m ih => rw [Nat.add_right_comm, copyBack, copyBack, ih]

/-- A copy from `dist` back reproduces a text whose next symbols repeat those `dist` before. -/
theorem copyBack_take {text : List α} {dist pos n : Nat} (back : 1 ≤ dist) (reach : dist ≤ pos)
    (room : pos + n ≤ text.length)
    (agree : ∀ i < n, text.getD (pos + i - dist) blank = text.getD (pos + i) blank) :
    copyBack blank dist n (text.take pos) = text.take (pos + n) := by
  -- The induction is on the symbols still to be copied.
  induction n generalizing pos with
  | zero => simp [copyBack]
  | succ n ih =>
    have length : (text.take pos).length = pos := by simp; omega
    have inside : pos < text.length := by omega
    -- The symbol copied first is the text's own next symbol.
    have symbol : (text.take pos).getD (pos - dist) blank = text[pos] := by
      have repeated : text.getD (pos - dist) blank = text.getD pos blank := agree 0 (by omega)
      rw [List.getD_eq_getElem?_getD, List.getElem?_take_of_lt (by omega),
        ← List.getD_eq_getElem?_getD, repeated, List.getD_eq_getElem?_getD,
        List.getElem?_eq_getElem inside, Option.getD_some]
    rw [copyBack, length, symbol, List.take_append_getElem inside,
      ih (by omega) (by omega) fun i within => ?_, Nat.add_right_comm, Nat.add_assoc]
    have next := agree (i + 1) (by omega)
    rw [show pos + 1 + i = pos + (i + 1) by omega]
    exact next

/-- A copy whose distance stays inside the output does not look at a text in front of it. -/
theorem copyBack_append {front out : List α} {dist : Nat} (inside : dist ≤ out.length) (n : Nat) :
    copyBack blank dist n (front ++ out) = front ++ copyBack blank dist n out := by
  -- Each symbol copied is looked up from the end, where both texts are the same.
  induction n generalizing out with
  | zero => rfl
  | succ n ih =>
    have symbol : (front ++ out).getD ((front ++ out).length - dist) blank =
        out.getD (out.length - dist) blank := by
      rw [List.length_append, List.getD_eq_getElem?_getD,
        List.getElem?_append_right (by omega), List.getD_eq_getElem?_getD]
      congr 2
      omega
    rw [copyBack, symbol, List.append_assoc, ih (by rw [List.length_append]; omega), copyBack]

/-- With a preset text in front, a copy that starts inside it continues in the output. -/
theorem copyBack_front {front out : List α} {dist n : Nat} (start : dist > out.length)
    (reach : dist ≤ front.length + out.length) (within : n ≤ dist - out.length) :
    copyBack blank dist n (front ++ out) =
      front ++ (out ++ (front.drop (front.length - (dist - out.length))).take n) := by
  -- The symbols come from the preset text for as long as the copy lags behind the output's start.
  induction n generalizing out with
  | zero => simp [copyBack]
  | succ n ih =>
    have at_front : front.length + out.length - dist < front.length := by omega
    have symbol : (front ++ out).getD ((front ++ out).length - dist) blank =
        front[front.length + out.length - dist] := by
      rw [List.length_append, List.getD_eq_getElem?_getD, List.getElem?_append_left at_front,
        List.getElem?_eq_getElem at_front, Option.getD_some]
    rw [copyBack, symbol, List.append_assoc]
    have index : front.length - (dist - out.length) = front.length + out.length - dist := by omega
    rw [index, List.drop_eq_getElem_cons at_front, List.take_succ_cons]
    -- The output has grown by one, so the next symbol is again `dist` back.
    by_cases last : n = 0
    · subst last
      simp [copyBack]
    · have length : (out ++ [front[front.length + out.length - dist]]).length = out.length + 1 := by
        simp
      rw [ih (by omega) (by omega) (by omega), length, List.append_assoc, List.singleton_append]
      congr 5
      omega

/-- Append `n` symbols, each the one `dist` back in the text formed by `front` and the output. -/
def copyBehind (blank : α) (front : List α) (dist : Nat) : Nat → List α → List α
  | 0, out => out
  | n + 1, out =>
    copyBehind blank front dist n (out ++ [(front ++ out).getD ((front ++ out).length - dist) blank])

/-- Copying behind a preset text is copying back in the text it forms with the output. -/
theorem append_copyBehind (front : List α) (dist n : Nat) (out : List α) :
    front ++ copyBehind blank front dist n out = copyBack blank dist n (front ++ out) := by
  -- The induction is on the number of bytes, with the text behind the front growing.
  induction n generalizing out with
  | zero => rfl
  | succ n ih => rw [copyBehind, ih, copyBack, List.append_assoc]

end Xq.Lib
