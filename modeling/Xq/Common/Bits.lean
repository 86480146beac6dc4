import Mathlib

/-! Byte-wise little-endian loads and stores, and the overflow-checked arithmetic helpers. -/

namespace Xq

/-- A byte buffer, as the code sees it behind a pointer. -/
abbrev Bytes := List UInt8

/-- One byte of a buffer, at an offset the caller has already bounds-checked. -/
def ld8 (p : Bytes) (i : Nat) : UInt8 := p.getD i 0

def ld16le (p : Bytes) (i : Nat) : UInt16 :=
  (ld8 p i).toUInt16 ||| (ld8 p (i + 1)).toUInt16 <<< 8

def ld32le (p : Bytes) (i : Nat) : UInt32 :=
  (ld8 p i).toUInt32 ||| (ld8 p (i + 1)).toUInt32 <<< 8 |||
    (ld8 p (i + 2)).toUInt32 <<< 16 ||| (ld8 p (i + 3)).toUInt32 <<< 24

def ld64le (p : Bytes) (i : Nat) : UInt64 :=
  (ld32le p i).toUInt64 ||| (ld32le p (i + 4)).toUInt64 <<< 32

def st8 (v : UInt8) : Bytes := [v]

def st16le (v : UInt16) : Bytes := [v.toUInt8, (v >>> 8).toUInt8]

def st32le (v : UInt32) : Bytes :=
  [v.toUInt8, (v >>> 8).toUInt8, (v >>> 16).toUInt8, (v >>> 24).toUInt8]

def st64le (v : UInt64) : Bytes := st32le v.toUInt32 ++ st32le (v >>> 32).toUInt32

/-- The sum of two 64-bit words, refused when it wraps. -/
def addU64Ok (a b : UInt64) : Option UInt64 :=
  if a.toNat + b.toNat < 2 ^ 64 then some (a + b) else none

/-- The product of two 64-bit words, refused when it wraps. -/
def mulU64Ok (a b : UInt64) : Option UInt64 :=
  if a.toNat * b.toNat < 2 ^ 64 then some (a * b) else none

/-- The range `[off, off + len)` lies inside `[0, limit)`, without wrapping on the way. -/
def rangeOk (off len limit : UInt64) : Bool :=
  match addU64Ok off len with
  | none => false
  | some e => e ≤ limit

/-- The same test on `size_t`, phrased so that no sum is formed. -/
def rangeOkSz (off len limit : Nat) : Bool :=
  if off > limit then false else len ≤ limit - off

@[simp] theorem length_st8 (v : UInt8) : (st8 v).length = 1 := rfl
@[simp] theorem length_st16le (v : UInt16) : (st16le v).length = 2 := rfl
@[simp] theorem length_st32le (v : UInt32) : (st32le v).length = 4 := rfl
@[simp] theorem length_st64le (v : UInt64) : (st64le v).length = 8 := rfl

/-- The two bytes of a 16-bit word, put back where they came from, rebuild it. -/
theorem join16 (v : UInt16) :
    v.toUInt8.toUInt16 ||| (v >>> 8).toUInt8.toUInt16 <<< 8 = v := by
  -- Each bit of the word survives in exactly one of the two bytes.
  apply UInt16.eq_of_toBitVec_eq
  apply BitVec.eq_of_getLsbD_eq
  intro i hi
  simp only [UInt16.toBitVec_or, UInt16.toBitVec_shiftLeft, UInt8.toBitVec_toUInt16,
    UInt16.toBitVec_toUInt8, UInt16.toBitVec_shiftRight, BitVec.getLsbD_or]
  simp [BitVec.getLsbD_setWidth]
  grind

/-- The four bytes of a 32-bit word rebuild it. -/
theorem join32 (v : UInt32) :
    v.toUInt8.toUInt32 ||| (v >>> 8).toUInt8.toUInt32 <<< 8 |||
      (v >>> 16).toUInt8.toUInt32 <<< 16 ||| (v >>> 24).toUInt8.toUInt32 <<< 24 = v := by
  -- Each bit of the word survives in exactly one of the four bytes.
  apply UInt32.eq_of_toBitVec_eq
  apply BitVec.eq_of_getLsbD_eq
  intro i hi
  simp only [UInt32.toBitVec_or, UInt32.toBitVec_shiftLeft, UInt8.toBitVec_toUInt32,
    UInt32.toBitVec_toUInt8, UInt32.toBitVec_shiftRight, BitVec.getLsbD_or]
  simp [BitVec.getLsbD_setWidth]
  grind

/-- The two halves of a 64-bit word rebuild it. -/
theorem join64 (v : UInt64) :
    v.toUInt32.toUInt64 ||| (v >>> 32).toUInt32.toUInt64 <<< 32 = v := by
  -- Bit by bit: the low half has the bits below 32, the shifted one those above.
  apply UInt64.eq_of_toBitVec_eq
  apply BitVec.eq_of_getLsbD_eq
  intro i hi
  simp only [UInt64.toBitVec_or, UInt64.toBitVec_shiftLeft, UInt32.toBitVec_toUInt64,
    UInt64.toBitVec_toUInt32, UInt64.toBitVec_shiftRight, BitVec.getLsbD_or]
  simp [BitVec.getLsbD_setWidth]
  grind

/-- Each byte of a 32-bit word built from four bytes is one of the four. -/
theorem split32 (a b c d : UInt8) :
    st32le (a.toUInt32 ||| b.toUInt32 <<< 8 ||| c.toUInt32 <<< 16 ||| d.toUInt32 <<< 24) =
      [a, b, c, d] := by
  rw [st32le]
  -- Byte by byte, each bit comes from exactly one of the four operands.
  congr 1
  · apply UInt8.eq_of_toBitVec_eq
    apply BitVec.eq_of_getLsbD_eq
    intro k hk
    simp
  congr 1
  · apply UInt8.eq_of_toBitVec_eq
    apply BitVec.eq_of_getLsbD_eq
    intro k hk
    simp
    grind
  congr 1
  · apply UInt8.eq_of_toBitVec_eq
    apply BitVec.eq_of_getLsbD_eq
    intro k hk
    simp
    grind
  congr 1
  · apply UInt8.eq_of_toBitVec_eq
    apply BitVec.eq_of_getLsbD_eq
    intro k hk
    simp
    grind

/-- Each half of a 64-bit word built from two halves is one of the two. -/
theorem split64 (a b : UInt32) :
    st64le (a.toUInt64 ||| b.toUInt64 <<< 32) = st32le a ++ st32le b := by
  have low : (a.toUInt64 ||| b.toUInt64 <<< 32).toUInt32 = a := by
    apply UInt32.eq_of_toBitVec_eq
    apply BitVec.eq_of_getLsbD_eq
    intro k hk
    simp
  -- The shift drops the low half.
  have high : ((a.toUInt64 ||| b.toUInt64 <<< 32) >>> 32).toUInt32 = b := by
    apply UInt32.eq_of_toBitVec_eq
    apply BitVec.eq_of_getLsbD_eq
    intro k hk
    simp
    grind
  rw [st64le, low, high]

/-- A 64-bit load stores back as the eight bytes it was loaded from. -/
theorem st64le_ld64le (p : Bytes) (i : Nat) :
    st64le (ld64le p i) = (List.range 8).map fun k => ld8 p (i + k) := by
  -- The word splits into the bytes that it was put together from.
  rw [ld64le, split64, ld32le, ld32le, split32, split32]
  rfl

/-- Reading past a known prefix reads the rest of the buffer. -/
@[simp] theorem ld8_append_right (a b : Bytes) (i : Nat) : ld8 (a ++ b) (a.length + i) = ld8 b i := by
  simp [ld8, List.getD_eq_getElem?_getD, List.getElem?_append_right]

theorem ld8_append_left {a : Bytes} {i : Nat} (within : i < a.length) (b : Bytes) :
    ld8 (a ++ b) i = ld8 a i := by
  -- A load is a lookup with zero for what is not there.
  simp [ld8, List.getD_eq_getElem?_getD, List.getElem?_append_left within]

theorem ld8_drop (p : Bytes) (n i : Nat) : ld8 (p.drop n) i = ld8 p (n + i) := by
  simp [ld8, List.getD_eq_getElem?_getD]

theorem ld8_take {p : Bytes} {n i : Nat} (within : i < n) : ld8 (p.take n) i = ld8 p i := by
  simp [ld8, List.getD_eq_getElem?_getD, within]

end Xq
