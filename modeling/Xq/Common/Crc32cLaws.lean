import Xq.Common.Crc32c

/-! Laws of the CRC-32C register: how a step sees its byte, and what a run of bytes does. -/

namespace Xq

/-- The shifted register sees the byte only through the exclusive or. -/
theorem crc32cStep_eq (c : UInt32) (b : UInt8) :
    crc32cStep c b = crc32cTab.getD ((c ^^^ b.toUInt32) &&& 0xFF).toNat 0 ^^^
      ((c ^^^ b.toUInt32) >>> 8) := by
  -- A byte shifted by eight places is gone.
  have gone : b.toUInt32 >>> 8 = 0 := by
    apply UInt32.toNat_inj.mp
    have := b.toNat_lt
    simp only [UInt32.toNat_shiftRight, UInt8.toNat_toUInt32]
    change b.toNat >>> 8 = 0
    rw [Nat.shiftRight_eq_div_pow]
    omega
  rw [crc32cStep, UInt32.shiftRight_xor, gone, UInt32.xor_zero]

theorem crc32cUpdate_append (crc : UInt32) (a b : Bytes) :
    crc32cUpdate crc (a ++ b) = crc32cUpdate (crc32cUpdate crc a) b := by
  -- The complement at the end of the first piece is undone at the start of the second.
  simp [crc32cUpdate, List.foldl_append]

/-- Four bytes of ones clear the register, and zeros leave it so. -/
theorem crc32c_cleared (n : Nat) :
    crc32c ([255, 255, 255, 255] ++ List.replicate n 0) = 0xFFFFFFFF := by
  have cleared : [255, 255, 255, 255].foldl crc32cStep (~~~ 0) = 0 := by decide +kernel
  -- A cleared register is a fixed point of the zero byte.
  have stays : (List.replicate n 0).foldl crc32cStep 0 = 0 := by
    induction n with
    | zero => rfl
    | succ n ih =>
      have step : crc32cStep 0 0 = 0 := by decide +kernel
      rw [List.replicate_succ, List.foldl_cons, step, ih]
  rw [crc32c, crc32cUpdate, List.foldl_append, cleared, stays]
  rfl

end Xq
