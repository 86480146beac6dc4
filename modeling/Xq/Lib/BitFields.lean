import Mathlib.Data.Nat.Bitwise
import Mathlib.Data.Nat.Digits.Defs
import Mathlib.Tactic.Ring

/-! Numbers as streams of bits: fields packed from the lowest bit up, and bytes as digits. -/

namespace Xq.Lib

/-- Fields of bits, given as values with their widths, packed one after the other. -/
def packed : List (Nat × Nat) → Nat
  | [] => 0
  | (value, width) :: rest => value + 2 ^ width * packed rest

def packedWidth (fields : List (Nat × Nat)) : Nat := (fields.map Prod.snd).sum

/-- No field has bits beyond its width. -/
def Narrow (fields : List (Nat × Nat)) : Prop := ∀ field ∈ fields, field.1 < 2 ^ field.2

/-- One more field goes on top of the others. -/
theorem packed_snoc (fields : List (Nat × Nat)) (value width : Nat) :
    packed (fields ++ [(value, width)]) = packed fields + 2 ^ packedWidth fields * value := by
  -- By recursion over the fields below; the new one moves up by the width of each.
  induction fields with
  | nil => simp [packed, packedWidth]
  | cons field rest ih =>
    obtain ⟨first, size⟩ := field
    rw [List.cons_append, packed, ih, packed]
    simp only [packedWidth, List.map_cons, List.sum_cons, Nat.pow_add]
    ring

@[simp] theorem packedWidth_snoc (fields : List (Nat × Nat)) (value width : Nat) :
    packedWidth (fields ++ [(value, width)]) = packedWidth fields + width := by
  -- The width is a sum over the fields.
  simp [packedWidth]

/-- The lowest bits of a stream are its first field, and the others are the rest. -/
theorem packed_cons_split {value width : Nat} (narrow : value < 2 ^ width)
    (rest : List (Nat × Nat)) :
    packed ((value, width) :: rest) % 2 ^ width = value ∧
      packed ((value, width) :: rest) / 2 ^ width = packed rest := by
  -- The field is less than the power of two that the rest is multiplied by.
  rw [packed]
  constructor
  · rw [Nat.add_mul_mod_self_left, Nat.mod_eq_of_lt narrow]
  · rw [Nat.add_mul_div_left _ _ (Nat.two_pow_pos width), Nat.div_eq_of_lt narrow, Nat.zero_add]

/-- The lowest bits of a number, in the order in which a stream has them. -/
def bitList (value width : Nat) : List Bool := (List.range width).map value.testBit

/-- A stream begins with the bits of a number when its lowest bits are those. -/
theorem bitList_isPrefix {value width stream total : Nat} (narrow : value < 2 ^ width) :
    bitList value width <+: bitList stream total ↔
      width ≤ total ∧ stream % 2 ^ width = value := by
  -- Equality of numbers and of lists is compared bit by bit.
  have length (v w : Nat) : (bitList v w).length = w := by
    rw [bitList, List.length_map, List.length_range]
  rw [List.prefix_iff_eq_take, length]
  constructor
  · intro same
    have short : width ≤ total := by
      have := congrArg List.length same
      rw [length, List.length_take, length] at this
      omega
    refine ⟨short, Nat.eq_of_testBit_eq fun k => ?_⟩
    rw [Nat.testBit_mod_two_pow]
    by_cases below : k < width
    · -- The bit stands at its place in either list.
      have bit := congrArg (fun l : List Bool => l[k]?) same
      simp only [bitList, List.getElem?_map, List.getElem?_take, below, if_true,
        List.getElem?_range below, List.getElem?_range (below.trans_le short),
        Option.map_some, Option.some.injEq] at bit
      rw [bit, decide_eq_true below, Bool.true_and]
    · -- Above the width both numbers have no bits.
      rw [decide_eq_false below, Bool.false_and,
        Nat.testBit_lt_two_pow (narrow.trans_le (Nat.pow_le_pow_right (by decide) (by omega)))]
  · rintro ⟨short, low⟩
    rw [bitList, bitList, ← List.map_take, List.take_range, Nat.min_eq_left short]
    refine List.map_congr_left fun k member => ?_
    rw [← low, Nat.testBit_mod_two_pow, decide_eq_true (List.mem_range.mp member), Bool.true_and]

/-- Dropping the first bits of a stream leaves those above them. -/
theorem bitList_drop (stream total width : Nat) :
    (bitList stream total).drop width = bitList (stream / 2 ^ width) (total - width) := by
  -- Both lists hold the same bit in each place.
  apply List.ext_getElem
  · simp only [bitList, List.length_drop, List.length_map, List.length_range]
  · intro k _ _
    simp only [bitList, List.getElem_drop, List.getElem_map, List.getElem_range,
      Nat.testBit_div_two_pow]
    rw [Nat.add_comm]

/-- The bits of a byte string, least significant byte first. -/
def bitsOf (bytes : List UInt8) : Nat := Nat.ofDigits 256 (bytes.map UInt8.toNat)

@[simp] theorem bitsOf_nil : bitsOf [] = 0 := rfl

theorem bitsOf_cons (b : UInt8) (bytes : List UInt8) :
    bitsOf (b :: bytes) = b.toNat + 2 ^ 8 * bitsOf bytes :=
  Nat.ofDigits_cons

theorem bitsOf_snoc (bytes : List UInt8) (b : UInt8) :
    bitsOf (bytes ++ [b]) = bitsOf bytes + 2 ^ (8 * bytes.length) * b.toNat := by
  -- The last byte is the digit of the highest power.
  rw [bitsOf, List.map_append, Nat.ofDigits_append, List.length_map, Nat.pow_mul]
  simp [bitsOf]

end Xq.Lib
