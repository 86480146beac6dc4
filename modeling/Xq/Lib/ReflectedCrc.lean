import Mathlib

/-! Reflected cyclic redundancy checks of any width: the register bit by bit, a byte at a time from
a table, and which bursts of changed bytes it always tells apart. -/

namespace Xq.Lib

variable {w : Nat}

/-- One bit through the register: its lowest bit decides whether the polynomial is added. -/
def crcBit (poly c : BitVec w) : BitVec w :=
  if c.getLsbD 0 then (c >>> 1) ^^^ poly else c >>> 1

def crcBits (poly : BitVec w) : Nat → BitVec w → BitVec w
  | 0, c => c
  | n + 1, c => crcBits poly n (crcBit poly c)

/-- One byte through the register, its lowest bit first. -/
def crcByte (poly c : BitVec w) (b : UInt8) : BitVec w :=
  crcBits poly 8 (c ^^^ b.toBitVec.setWidth w)

section Linear

variable (poly : BitVec w)

theorem crcBits_add (m n : Nat) (c : BitVec w) :
    crcBits poly (m + n) c = crcBits poly n (crcBits poly m c) := by
  -- The induction is on the first of the two numbers of steps.
  induction m generalizing c with
  | zero => rw [Nat.zero_add, crcBits]
  | succ m ih => rw [Nat.add_right_comm, crcBits, crcBits, ih]

theorem crcBit_xor (a b : BitVec w) :
    crcBit poly (a ^^^ b) = crcBit poly a ^^^ crcBit poly b := by
  -- The four cases are those of the two lowest bits, which decide where the polynomial is added.
  have low : (a ^^^ b).getLsbD 0 = (a.getLsbD 0 ^^ b.getLsbD 0) := BitVec.getLsbD_xor
  rw [crcBit, crcBit, crcBit, low, BitVec.ushiftRight_xor_distrib]
  cases a.getLsbD 0 with
  | false =>
    cases b.getLsbD 0 with
    | false => rfl
    | true => exact BitVec.xor_assoc _ _ _
  | true =>
    cases b.getLsbD 0 with
    | false =>
      show a >>> 1 ^^^ b >>> 1 ^^^ poly = a >>> 1 ^^^ poly ^^^ b >>> 1
      rw [BitVec.xor_assoc, BitVec.xor_comm (b >>> 1), BitVec.xor_assoc]
    | true =>
      -- The polynomial is added twice, and so not at all.
      show a >>> 1 ^^^ b >>> 1 = a >>> 1 ^^^ poly ^^^ (b >>> 1 ^^^ poly)
      rw [BitVec.xor_comm (b >>> 1) poly, BitVec.xor_assoc, ← BitVec.xor_assoc poly,
        BitVec.xor_self, BitVec.zero_xor]

theorem crcBits_xor (n : Nat) (a b : BitVec w) :
    crcBits poly n (a ^^^ b) = crcBits poly n a ^^^ crcBits poly n b := by
  -- The induction is on the steps, and each of them is linear.
  induction n generalizing a b with
  | zero => rfl
  | succ n ih => rw [crcBits, crcBits, crcBits, crcBit_xor, ih]

/-- A register whose lowest bits are clear is only shifted by as many. -/
theorem crcBits_clear {n : Nat} {c : BitVec w} (clear : ∀ i < n, c.getLsbD i = false) :
    crcBits poly n c = c >>> n := by
  -- A clear lowest bit leaves the polynomial out, and uncovers the next one.
  induction n generalizing c with
  | zero => rw [crcBits, BitVec.ushiftRight_zero]
  | succ n ih =>
    have lowest : crcBit poly c = c >>> 1 := by
      rw [crcBit, clear 0 (Nat.succ_pos n)]
      rfl
    have shifted : ∀ i < n, (c >>> 1).getLsbD i = false := by
      intro i below
      rw [BitVec.getLsbD_ushiftRight]
      exact clear (1 + i) (by omega)
    rw [crcBits, lowest, ih shifted, ← BitVec.shiftRight_add, Nat.add_comm]

/-- The table form: the register is the word of its lowest bits, and the others shifted down. -/
theorem crcBits_table (n : Nat) (c : BitVec w) :
    crcBits poly n c = crcBits poly n ((c.setWidth n).setWidth w) ^^^ (c >>> n) := by
  -- By linearity the register is split into its lowest bits and the rest, which is only shifted.
  have split : c = (c.setWidth n).setWidth w ^^^ (c ^^^ (c.setWidth n).setWidth w) := by
    rw [BitVec.xor_comm c, ← BitVec.xor_assoc, BitVec.xor_self, BitVec.zero_xor]
  have clear : ∀ i < n, (c ^^^ (c.setWidth n).setWidth w).getLsbD i = false := by
    intro i below
    rw [BitVec.getLsbD_xor, BitVec.getLsbD_setWidth, BitVec.getLsbD_setWidth, decide_eq_true below]
    by_cases inside : i < w
    · simp [inside]
    · simp [BitVec.getLsbD_of_ge c i (by omega)]
  have high : (c ^^^ (c.setWidth n).setWidth w) >>> n = c >>> n := by
    refine BitVec.eq_of_getLsbD_eq fun i _ => ?_
    have above : ¬ n + i < n := by omega
    rw [BitVec.getLsbD_ushiftRight, BitVec.getLsbD_ushiftRight, BitVec.getLsbD_xor,
      BitVec.getLsbD_setWidth, BitVec.getLsbD_setWidth, decide_eq_false above]
    simp
  conv_lhs => rw [split, crcBits_xor, crcBits_clear poly clear, high]

end Linear

section Injective

variable {poly : BitVec w}

/-- A polynomial whose highest bit is set loses no bit of the register. -/
theorem crcBit_injective (high : poly.getLsbD (w - 1) = true) :
    Function.Injective (crcBit poly) := by
  have nonempty : 0 < w := by
    by_contra none
    rw [BitVec.getLsbD_of_ge poly (w - 1) (by omega)] at high
    cases high
  -- By linearity it is enough that only the zero register comes to zero.
  have zero (x : BitVec w) (gone : crcBit poly x = 0#w) : x = 0#w := by
    rw [crcBit] at gone
    cases lowest : x.getLsbD 0 with
    | true =>
      rw [lowest, if_pos rfl] at gone
      -- The polynomial's highest bit stays, since the shift leaves that place clear.
      have top := congrArg (fun y : BitVec w => y.getLsbD (w - 1)) gone
      rw [BitVec.getLsbD_xor, BitVec.getLsbD_ushiftRight, high,
        BitVec.getLsbD_of_ge x (1 + (w - 1)) (by omega), BitVec.getLsbD_zero] at top
      cases top
    | false =>
      rw [lowest, if_neg Bool.false_ne_true] at gone
      -- Without the polynomial, every bit is a bit of the shifted register.
      refine BitVec.eq_of_getLsbD_eq fun i _ => ?_
      cases i with
      | zero => rw [lowest, BitVec.getLsbD_zero]
      | succ i =>
        have bit := congrArg (fun y : BitVec w => y.getLsbD i) gone
        rw [BitVec.getLsbD_ushiftRight, BitVec.getLsbD_zero] at bit
        rw [Nat.add_comm i 1, bit, BitVec.getLsbD_zero]
  intro a b same
  have difference := zero (a ^^^ b) (by rw [crcBit_xor, same, BitVec.xor_self])
  exact BitVec.xor_eq_zero_iff.mp difference

theorem crcBits_injective (high : poly.getLsbD (w - 1) = true) (n : Nat) :
    Function.Injective (crcBits poly n) := by
  -- The induction is on the steps, and each of them loses nothing.
  induction n with
  | zero => exact fun _ _ same => same
  | succ n ih => exact ih.comp (crcBit_injective high)

/-- For a fixed byte the register loses nothing. -/
theorem crcByte_injective (high : poly.getLsbD (w - 1) = true) (b : UInt8) :
    Function.Injective fun c => crcByte poly c b := by
  -- The byte is added before the steps, and can be taken off again.
  intro c d same
  have registers := crcBits_injective high 8 same
  exact (BitVec.xor_left_inj _).mp registers

end Injective

section Bursts

/-- Bytes in one word, the first of them lowest. -/
def crcWord (w : Nat) : List UInt8 → BitVec w
  | [] => 0#w
  | b :: rest => b.toBitVec.setWidth w ^^^ crcWord w rest <<< 8

theorem crcWord_above (bs : List UInt8) {i : Nat} (above : 8 * bs.length ≤ i) :
    (crcWord w bs).getLsbD i = false := by
  -- The induction is on the bytes, each of which fills eight bits.
  induction bs generalizing i with
  | nil => rw [crcWord, BitVec.getLsbD_zero]
  | cons b rest ih =>
    rw [List.length_cons] at above
    rw [crcWord, BitVec.getLsbD_xor, BitVec.getLsbD_setWidth,
      BitVec.getLsbD_of_ge b.toBitVec i (by omega), BitVec.getLsbD_shiftLeft,
      ih (show 8 * rest.length ≤ i - 8 by omega)]
    simp

/-- Bytes that fit into the register are as good as added to it in one word. -/
theorem crcByte_foldl {poly : BitVec w} {bs : List UInt8} (fits : 8 * bs.length ≤ w)
    (c : BitVec w) :
    bs.foldl (crcByte poly) c = crcBits poly (8 * bs.length) (c ^^^ crcWord w bs) := by
  induction bs generalizing c with
  | nil => rw [crcWord, BitVec.xor_zero]; rfl
  | cons b rest ih =>
    rw [List.length_cons] at fits
    -- The bytes still to come would be shifted to their place by the eight bits before them.
    have later : crcBits poly 8 (crcWord w rest <<< 8) = crcWord w rest := by
      rw [crcBits_clear]
      · refine BitVec.eq_of_getLsbD_eq fun i _ => ?_
        rw [BitVec.getLsbD_ushiftRight, BitVec.getLsbD_shiftLeft]
        by_cases inside : 8 + i < w
        · simp [inside]
        · rw [crcWord_above rest (by omega : 8 * rest.length ≤ i)]
          simp [inside]
      · intro i below
        rw [BitVec.getLsbD_shiftLeft, decide_eq_true below]
        simp
    rw [List.foldl_cons, ih (by omega), crcByte]
    conv_lhs => rw [← later, ← crcBits_xor, ← crcBits_add]
    rw [List.length_cons, crcWord, BitVec.xor_assoc, Nat.mul_add, Nat.add_comm]

theorem crcWord_injective {as bs : List UInt8} (fits : 8 * as.length ≤ w)
    (lengths : as.length = bs.length) (same : crcWord w as = crcWord w bs) : as = bs := by
  induction as generalizing bs with
  | nil => exact (List.length_eq_zero_iff.mp lengths.symm).symm
  | cons a as ih =>
    cases bs with
    | nil => cases lengths
    | cons b bs =>
      rw [List.length_cons] at fits
      rw [List.length_cons, List.length_cons, Nat.add_right_cancel_iff] at lengths
      have bit (i : Nat) := congrArg (fun y : BitVec w => y.getLsbD i) same
      simp only [crcWord, BitVec.getLsbD_xor, BitVec.getLsbD_setWidth,
        BitVec.getLsbD_shiftLeft] at bit
      have first : a = b := by
        refine UInt8.eq_of_toBitVec_eq (BitVec.eq_of_getLsbD_eq fun i below => ?_)
        have := bit i
        simpa [below, show i < w by omega] using this
      have others : crcWord w as = crcWord w bs := by
        refine BitVec.eq_of_getLsbD_eq fun i _ => ?_
        by_cases inside : i + 8 < w
        · have := bit (i + 8)
          simpa [inside, BitVec.getLsbD_of_ge a.toBitVec (i + 8) (by omega),
            BitVec.getLsbD_of_ge b.toBitVec (i + 8) (by omega)] using this
        · rw [crcWord_above as (by omega), crcWord_above bs (by omega)]
      rw [first, ih (by omega) lengths others]

/-- Two strings that differ, but only within some `n` consecutive places. -/
structure Burst {α : Type} (n : Nat) (old new : List α) : Prop where
  length : old.length = new.length
  differ : old ≠ new
  within : ∃ i, ∀ j, j < i ∨ i + n ≤ j → old[j]? = new[j]?

/-- What the two strings have in common surrounds the places where they differ. -/
theorem Burst.split {α : Type} {n : Nat} {old new : List α} (burst : Burst n old new) :
    ∃ before a b after, old = before ++ a ++ after ∧ new = before ++ b ++ after ∧
      a.length ≤ n ∧ a.length = b.length ∧ a ≠ b := by
  obtain ⟨i, outside⟩ := burst.within
  have front : old.take i = new.take i := by
    refine List.ext_getElem? fun j => ?_
    rw [List.getElem?_take, List.getElem?_take]
    split
    · rename_i below
      exact outside j (.inl below)
    · rfl
  have back : (old.drop i).drop n = (new.drop i).drop n := by
    refine List.ext_getElem? fun j => ?_
    rw [List.getElem?_drop, List.getElem?_drop, List.getElem?_drop, List.getElem?_drop]
    exact outside _ (.inr (by omega))
  have cut (xs : List α) : xs = xs.take i ++ (xs.drop i).take n ++ (xs.drop i).drop n := by
    rw [List.append_assoc, List.take_append_drop, List.take_append_drop]
  refine ⟨old.take i, (old.drop i).take n, (new.drop i).take n, (old.drop i).drop n, cut old, ?_,
    List.length_take_le _ _, ?_, fun same => burst.differ ?_⟩
  · rw [front, back]
    exact cut new
  · rw [List.length_take, List.length_take, List.length_drop, List.length_drop, burst.length]
  · rw [cut old, cut new, front, back, same]

/-- A step that is injective in the register stays injective over any run of inputs. -/
theorem foldl_injective {σ α : Type} {step : σ → α → σ}
    (inj : ∀ a, Function.Injective fun s => step s a) (xs : List α) :
    Function.Injective fun s => xs.foldl step s := by
  -- Each input composes one more injective step in front.
  induction xs with
  | nil => exact Function.injective_id
  | cons x xs ih => exact ih.comp (inj x)

/-- Strings that differ within as many bytes as the register holds, and nowhere else, come to
different registers. -/
theorem crcByte_burst {poly : BitVec w} (high : poly.getLsbD (w - 1) = true) (c : BitVec w)
    {n : Nat} (fits : 8 * n ≤ w) {old new : List UInt8} (burst : Burst n old new) :
    old.foldl (crcByte poly) c ≠ new.foldl (crcByte poly) c := by
  intro same
  obtain ⟨before, a, b, after, rfl, rfl, short, lengths, changed⟩ := burst.split
  have fits : 8 * a.length ≤ w := by omega
  simp only [List.foldl_append] at same
  -- What follows the burst loses nothing, so the registers already agreed right behind it.
  have joined := foldl_injective (crcByte_injective high) after same
  generalize before.foldl (crcByte poly) c = d at joined
  rw [crcByte_foldl fits, crcByte_foldl (lengths ▸ fits), ← lengths] at joined
  have words := (BitVec.xor_right_inj _).mp (crcBits_injective high _ joined)
  exact changed (crcWord_injective fits lengths words)

end Bursts

end Xq.Lib
