import Xq.Common.Crc32cBuilds
import Xq.Common.Crc32cLaws
import Xq.Proofs.Format.Exact

/-! Every build computes the same CRC-32C: the table, the two instruction sets and the definition
agree on every string, however it is cut. -/

namespace Xq

open Lib

section Table

/-- A table word is what its index comes to bit by bit. -/
theorem crc32cTab_bitwise (i : Nat) (below : i < 256) :
    crc32cTab.getD i 0 = ⟨crcBits crc32cPoly 8 (BitVec.ofNat 32 i)⟩ := by
  -- All words of the table are checked.
  have words : ∀ i < 256, crc32cTab.getD i 0 = ⟨crcBits crc32cPoly 8 (BitVec.ofNat 32 i)⟩ := by
    decide +kernel
  exact words i below

/-- The table step is eight steps of one bit. -/
theorem crc32cStep_bitwise (c : UInt32) (b : UInt8) : crc32cStep c b = crc32cByte c b := by
  -- The index into the table is the lowest byte, which is what eight steps of a bit look at.
  have low : ((c ^^^ b.toUInt32) &&& 0xFF).toNat < 256 := by
    rw [UInt32.toNat_and]
    exact lt_of_le_of_lt Nat.and_le_right (by decide)
  have index : BitVec.ofNat 32 ((c ^^^ b.toUInt32) &&& 0xFF).toNat =
      ((c ^^^ b.toUInt32).toBitVec.setWidth 8).setWidth 32 := by
    apply BitVec.eq_of_toNat_eq
    rw [BitVec.toNat_ofNat, BitVec.toNat_setWidth, BitVec.toNat_setWidth, UInt32.toNat_and]
    have mask : (c ^^^ b.toUInt32).toNat &&& 255 = (c ^^^ b.toUInt32).toNat % 256 :=
      Nat.and_two_pow_sub_one_eq_mod _ 8
    exact congrArg (· % 2 ^ 32) mask
  rw [crc32cStep_eq, crc32cTab_bitwise _ low, index]
  apply UInt32.eq_of_toBitVec_eq
  rw [UInt32.toBitVec_xor, UInt32.toBitVec_shiftRight]
  exact (crcBits_table crc32cPoly 8 (c ^^^ b.toUInt32).toBitVec).symm

theorem crc32cUpdate_bitwise (crc : UInt32) (data : Bytes) :
    crc32cUpdate crc data = crc32cBitwise crc data := by
  -- The step of the table is the step bit by bit.
  have step : crc32cStep = crc32cByte := funext fun c => funext fun b => crc32cStep_bitwise c b
  rw [crc32cUpdate, crc32cBitwise, step]

theorem crc32cBitwise_append (crc : UInt32) (a b : Bytes) :
    crc32cBitwise (crc32cBitwise crc a) b = crc32cBitwise crc (a ++ b) := by
  -- The table composes over parts of the data.
  rw [← crc32cUpdate_bitwise, ← crc32cUpdate_bitwise, ← crc32cUpdate_bitwise,
    crc32cUpdate_append]

end Table

section Instructions

variable {word8 : UInt32 → UInt64 → UInt32} {word4 : UInt32 → UInt32 → UInt32}
  {word1 : UInt32 → UInt8 → UInt32}

/-- The loop over words takes as many bytes as its rounds say. -/
theorem crc32cWords_bytes (acts : ActsBytewise word8 word4 word1) (n : Nat) {p : Bytes}
    (within : 8 * n ≤ p.length) (c : UInt32) :
    crc32cWords word8 n p c = (p.take (8 * n)).foldl crc32cByte c := by
  -- The induction is on the rounds; a word stands for its eight bytes.
  induction n generalizing p c with
  | zero => rfl
  | succ n ih =>
    have first : p = st64le (ld64le p 0) ++ p.drop 8 := drop_eq_st64le (i := 0) (by omega)
    have length : (st64le (ld64le p 0)).length = 8 := rfl
    have behind : 8 * n ≤ (p.drop 8).length := by
      rw [List.length_drop]
      omega
    rw [crc32cWords, ih behind, acts.word8]
    conv_rhs => rw [first]
    rw [show 8 * (n + 1) = (st64le (ld64le p 0)).length + 8 * n by rw [length]; omega,
      List.take_length_add_append, List.foldl_append]

/-- An accelerated build computes the definition, whatever is left over for its last two loops. -/
theorem crc32cAccelerated_bitwise (acts : ActsBytewise word8 word4 word1) (crc : UInt32)
    (data : Bytes) : crc32cAccelerated word8 word4 word1 crc data = crc32cBitwise crc data := by
  -- The bytes are split as the source's three loops take them.
  have bytes : word1 = crc32cByte := funext fun c => funext fun b => acts.word1 c b
  have words := crc32cWords_bytes acts (data.length / 8) (p := data)
    (Nat.mul_div_le data.length 8) (~~~ crc)
  have split : data.foldl crc32cByte (~~~ crc) =
      (data.drop (8 * (data.length / 8))).foldl crc32cByte
        ((data.take (8 * (data.length / 8))).foldl crc32cByte (~~~ crc)) := by
    rw [← List.foldl_append, List.take_append_drop]
  rw [crc32cAccelerated, crc32cBitwise, split, ← words, bytes]
  dsimp only
  generalize data.drop (8 * (data.length / 8)) = p
  generalize crc32cWords word8 (data.length / 8) data (~~~ crc) = c
  by_cases four : p.length ≥ 4
  · -- A word of four bytes in front of the last ones.
    have first : p = st32le (ld32le p 0) ++ p.drop 4 := drop_eq_st32le (i := 0) (by omega)
    rw [if_pos four]
    dsimp only
    conv_rhs => rw [first, List.foldl_append]
    rw [acts.word4]
  · rw [if_neg four]

/-- The portable loop and each of the three builds compute the bit-by-bit definition on every
string, and go on from what they have computed of its front. -/
theorem crc32c_builds_agree {arm : ArmCrc} {x86 : X86Crc} (armBytewise : arm.Bytewise)
    (x86Bytewise : x86.Bytewise) :
    ∀ update ∈ [crc32cPortable, crc32cUpdate, crc32cUpdateArm arm, crc32cUpdateX86 x86],
      (∀ crc data, update crc data = crc32cBitwise crc data) ∧
      ∀ crc a b, update (update crc a) b = update crc (a ++ b) := by
  -- Each is the definition, and the definition goes on from where it has stopped.
  intro update member
  have defined : update = crc32cBitwise := by
    funext crc data
    simp only [List.mem_cons, List.not_mem_nil, or_false] at member
    rcases member with rfl | rfl | rfl | rfl
    · exact crc32cUpdate_bitwise crc data
    · exact crc32cUpdate_bitwise crc data
    · exact crc32cAccelerated_bitwise armBytewise crc data
    · exact crc32cAccelerated_bitwise x86Bytewise crc data
  rw [defined]
  exact ⟨fun _ _ => rfl, crc32cBitwise_append⟩

/-- Instructions that do what the definition says, byte by byte. -/
def bytewiseArm : ArmCrc :=
  { crc32cd := fun c x => (st64le x).foldl crc32cByte c
    crc32cw := fun c x => (st32le x).foldl crc32cByte c
    crc32cb := crc32cByte }

def bytewiseX86 : X86Crc :=
  { crc32U64 := fun c x => ((st64le x).foldl crc32cByte c.toUInt32).toUInt64
    crc32U32 := fun c x => (st32le x).foldl crc32cByte c
    crc32U8 := crc32cByte }

/-- The two instruction sets, and one of them on nine bytes, "123456789". -/
theorem crc32c_builds_agree_bytewise :
    (∀ update ∈ [crc32cPortable, crc32cUpdate, crc32cUpdateArm bytewiseArm,
        crc32cUpdateX86 bytewiseX86],
      (∀ crc data, update crc data = crc32cBitwise crc data) ∧
      ∀ crc a b, update (update crc a) b = update crc (a ++ b)) ∧
    crc32cUpdateX86 bytewiseX86 0 (st64le 0x3837363534333231 ++ st8 0x39) = 0xE3069283 := by
  -- The 64-bit instruction works on the low half of its operand.
  refine ⟨crc32c_builds_agree ⟨fun _ _ => rfl, fun _ _ => rfl, fun _ _ => rfl⟩
    ⟨fun c x => ?_, fun _ _ => rfl, fun _ _ => rfl⟩, by decide +kernel⟩
  show ((st64le x).foldl crc32cByte c.toUInt64.toUInt32).toUInt64.toUInt32 = _
  rw [UInt32.toUInt32_toUInt64, UInt32.toUInt32_toUInt64]

end Instructions

end Xq
