import Xq.Codec.Lze

/-! Varints: what the bounded writer appends, and that both readers take it back. -/

namespace Xq

/-- The groups of a value, without a capacity; the fuel bounds them as in `putVarintLoop`. -/
def varintGroups : Nat → UInt64 → Bytes
  | 0, _ => []
  | fuel + 1, v =>
    if v ≥ 0x80 then (v ||| 0x80).toUInt8 :: varintGroups fuel (v >>> 7) else [v.toUInt8]

/-- The bytes a value is written as. -/
def varint (v : UInt64) : Bytes := varintGroups 10 v

theorem toNat_shiftRight_seven (v : UInt64) : (v >>> 7).toNat = v.toNat / 128 := by
  -- A shift is a division by the power of two.
  rw [UInt64.toNat_shiftRight]
  exact Nat.shiftRight_eq_div_pow _ 7

theorem not_more {v : UInt64} : ¬ v ≥ 0x80 ↔ v.toNat < 128 := by
  -- The top bit is the comparison with 128.
  rw [ge_iff_le, UInt64.le_iff_toNat_le]
  exact Nat.not_le

/-- The writer appends the groups when they fit and refuses otherwise. -/
theorem putVarintLoop_eq {cap fuel : Nat} {dst : Bytes} {v : UInt64}
    (enough : v.toNat < 128 ^ (fuel + 1)) :
    putVarintLoop cap (fuel + 1) dst v =
      if (dst ++ varintGroups (fuel + 1) v).length ≤ cap then
        some (dst ++ varintGroups (fuel + 1) v)
      else none := by
  -- The induction follows the groups; each takes seven bits off the value.
  induction fuel generalizing dst v with
  | zero =>
    have small : ¬ v ≥ 0x80 := not_more.mpr enough
    rw [putVarintLoop, varintGroups, if_neg small, if_neg small, List.length_append,
      List.length_singleton]
    by_cases full : dst.length ≥ cap
    · rw [if_pos full, if_neg (by omega)]
    · rw [if_neg full, if_pos (by omega)]
  | succ fuel ih =>
    rw [putVarintLoop, varintGroups]
    by_cases more : v ≥ 0x80
    · rw [if_pos more, if_pos more]
      by_cases full : dst.length ≥ cap
      · -- No room for this group, and so none for the whole.
        rw [if_pos full, if_neg]
        rw [List.length_append, List.length_cons]
        omega
      · rw [if_neg full, ih]
        · rw [List.append_assoc, List.singleton_append]
        · rw [toNat_shiftRight_seven, Nat.div_lt_iff_lt_mul (by decide)]
          rwa [Nat.pow_succ] at enough
    · rw [if_neg more, if_neg more, List.length_append, List.length_singleton]
      by_cases full : dst.length ≥ cap
      · rw [if_pos full, if_neg (by omega)]
      · rw [if_neg full, if_pos (by omega)]

theorem putVarint_eq (cap : Nat) (dst : Bytes) (v : UInt64) :
    putVarint cap dst v =
      if (dst ++ varint v).length ≤ cap then some (dst ++ varint v) else none :=
  putVarintLoop_eq (v.toNat_lt.trans (by decide))

theorem and_mask7 (b : UInt8) : (b &&& 0x7F).toNat = b.toNat % 128 := by
  -- The mask is the remainder by 128.
  rw [UInt8.toNat_and]
  exact Nat.and_two_pow_sub_one_eq_mod b.toNat 7

theorem and_bit7 (b : UInt8) : b &&& 0x80 = 0 ↔ b.toNat < 128 := by
  -- All bytes are checked.
  rw [← UInt8.toNat_inj, UInt8.toNat_and]
  have bits : ∀ n, n < 256 → (n &&& 128 = 0 ↔ n < 128) := by decide +kernel
  exact bits b.toNat b.toNat_lt

/-- The last group is the value itself. -/
theorem toNat_group_last {v : UInt64} (small : v.toNat < 128) : v.toUInt8.toNat = v.toNat := by
  -- The value is below 128, so the byte holds it.
  rw [UInt64.toNat_toUInt8]
  omega

/-- A group with more to come has its top bit set and the value's low bits below it. -/
theorem toNat_group_more (v : UInt64) :
    (v ||| 0x80).toUInt8.toNat % 128 = v.toNat % 128 ∧ 128 ≤ (v ||| 0x80).toUInt8.toNat := by
  -- Checked for each byte, since only the low byte of the value matters.
  have bits : ∀ n, n < 256 → (n ||| 128) % 128 = n % 128 ∧ 128 ≤ n ||| 128 := by decide +kernel
  have low : (v ||| 0x80).toUInt8.toNat = v.toNat % 256 ||| 128 := by
    rw [UInt64.toNat_toUInt8, UInt64.toNat_or]
    exact Nat.or_mod_two_pow (n := 8)
  rw [low]
  have := bits (v.toNat % 256) (Nat.mod_lt _ (by decide))
  omega

/-- A group lands above the bits read so far. -/
theorem or_group_toNat {acc : UInt64} {b : UInt8} {shift : Nat} (small : shift < 64)
    (below : acc.toNat < 2 ^ shift) (fits : b.toNat % 128 * 2 ^ shift < 2 ^ 64) :
    (acc ||| (b &&& 0x7F).toUInt64 <<< UInt64.ofNat shift).toNat =
      acc.toNat + b.toNat % 128 * 2 ^ shift := by
  have amount : (UInt64.ofNat shift).toNat % 64 = shift := by
    rw [UInt64.toNat_ofNat']
    omega
  -- The two operands share no bit, so the disjunction is a sum.
  rw [UInt64.toNat_or, UInt64.toNat_shiftLeft, amount, UInt8.toNat_toUInt64, and_mask7,
    Nat.shiftLeft_eq, Nat.mod_eq_of_lt fits, Nat.or_comm, Nat.mul_comm,
    ← Nat.two_pow_add_eq_or_of_lt below, Nat.add_comm]

/-- The last group ends the loop, adding its bits to what has been read so far. -/
theorem getVarintLoop_last {shift : Nat} {v acc : UInt64} (rest : Bytes) (low : v.toNat < 128)
    (small : shift < 64) (below : acc.toNat < 2 ^ shift) (fits : v.toNat * 2 ^ shift < 2 ^ 64) :
    getVarintLoop (v.toUInt8 :: rest) acc shift =
      some (UInt64.ofNat (acc.toNat + v.toNat * 2 ^ shift), rest) := by
  -- The last group has no continuation bit, and lands above the bits read so far.
  have byte : v.toUInt8.toNat = v.toNat := toNat_group_last low
  have value := or_group_toNat (b := v.toUInt8) small below (by rwa [byte, Nat.mod_eq_of_lt low])
  rw [byte, Nat.mod_eq_of_lt low] at value
  rw [getVarintLoop, if_neg (by omega), if_pos ((and_bit7 _).mpr (by rwa [byte])), ← value,
    UInt64.ofNat_toNat]

/-- Reading the groups back adds the value, at its shift, to what has been read so far. -/
theorem getVarintLoop_groups (fuel shift : Nat) (v acc : UInt64) (rest : Bytes)
    (enough : v.toNat < 128 ^ (fuel + 1)) (small : shift < 64) (below : acc.toNat < 2 ^ shift)
    (fits : v.toNat * 2 ^ shift < 2 ^ 64) :
    getVarintLoop (varintGroups (fuel + 1) v ++ rest) acc shift =
      some (UInt64.ofNat (acc.toNat + v.toNat * 2 ^ shift), rest) := by
  -- The induction follows the groups; the bits read so far stay below the shift.
  induction fuel generalizing v acc shift with
  | zero =>
    rw [varintGroups, if_neg (not_more.mpr enough), List.singleton_append,
      getVarintLoop_last rest enough small below fits]
  | succ fuel ih =>
    rw [varintGroups]
    by_cases low : v.toNat < 128
    · rw [if_neg (not_more.mpr low), List.singleton_append,
        getVarintLoop_last rest low small below fits]
    · rw [if_pos (not_not.mp (mt not_more.mp low)), List.cons_append]
      have group := toNat_group_more v
      -- A value that needs another group leaves room for one more shift.
      have power : 2 ^ (shift + 7) = 128 * 2 ^ shift := by rw [Nat.pow_add, Nat.mul_comm]
      have room : shift + 7 < 64 := by
        refine (Nat.pow_lt_pow_iff_right (a := 2) (by decide)).mp (Nat.lt_of_le_of_lt ?_ fits)
        rw [power]
        exact Nat.mul_le_mul_right _ (Nat.not_lt.mp low)
      have split : v.toNat * 2 ^ shift =
          v.toNat % 128 * 2 ^ shift + v.toNat / 128 * 2 ^ (shift + 7) := by
        rw [power, ← Nat.mul_assoc, ← Nat.add_mul, Nat.mul_comm (v.toNat / 128), Nat.mod_add_div]
      have value := or_group_toNat (b := (v ||| 0x80).toUInt8) small below
        (by rw [group.1]; omega)
      rw [group.1] at value
      have sum_below : acc.toNat + v.toNat % 128 * 2 ^ shift < 2 ^ (shift + 7) := by
        have : v.toNat % 128 * 2 ^ shift ≤ 127 * 2 ^ shift := Nat.mul_le_mul_right _ (by omega)
        omega
      rw [getVarintLoop, if_neg (by omega), if_neg (mt (and_bit7 _).mp (by omega)),
        if_neg (by omega), ih]
      · rw [value, toNat_shiftRight_seven, split, Nat.add_assoc]
      · rw [toNat_shiftRight_seven, Nat.div_lt_iff_lt_mul (by decide)]
        rwa [Nat.pow_succ] at enough
      · exact room
      · rwa [value]
      · rw [toNat_shiftRight_seven]
        omega

/-- A varint reads back as the value it was written for, whatever follows. -/
theorem getVarint_varint (v : UInt64) (rest : Bytes) :
    getVarint (varint v ++ rest) = some (v, rest) := by
  -- The groups read back from the first shift on, with nothing read before.
  have groups := getVarintLoop_groups 9 0 v 0 rest
    (v.toNat_lt.trans (by decide)) (by decide) (by decide) (by simpa using v.toNat_lt)
  simpa [getVarint, varint] using groups

/-- The guard one reader has and the other lacks never fires: the shift is checked before it grows. -/
theorem lzeGetVarintLoop_eq {shift : Nat} (src : Bytes) (v : UInt64) (small : shift < 64) :
    lzeGetVarintLoop src v shift = getVarintLoop src v shift := by
  -- The induction is on the input, with the shift below 64.
  induction src generalizing v shift with
  | nil => rfl
  | cons b rest ih =>
    have guard : ¬ shift > 63 := by omega
    rw [lzeGetVarintLoop, getVarintLoop, if_neg guard]
    by_cases last : b &&& 0x80 = 0
    · rw [if_pos last, if_pos last]
    · rw [if_neg last, if_neg last]
      by_cases wide : shift + 7 ≥ 64
      · rw [if_pos wide, if_pos wide]
      · rw [if_neg wide, if_neg wide, ih _ (by omega)]

/-- The two copies of the varint reader agree on every input. -/
theorem lzeGetVarint_eq (src : Bytes) : lzeGetVarint src = getVarint src :=
  lzeGetVarintLoop_eq src 0 (by decide)

theorem varintGroups_length (fuel : Nat) (v : UInt64) : (varintGroups fuel v).length ≤ fuel := by
  -- Each round writes one group.
  induction fuel generalizing v with
  | zero => exact Nat.le_refl 0
  | succ fuel ih =>
    rw [varintGroups]
    split
    · rw [List.length_cons]
      have := ih (v >>> 7)
      omega
    · exact Nat.succ_le_succ (Nat.zero_le fuel)

/-- A 64-bit value takes at most ten groups. -/
theorem varint_length (v : UInt64) : (varint v).length ≤ 10 := varintGroups_length 10 v

/-- A value takes one group for each seven bits it has. -/
theorem varint_length_le (w : Nat) {v : UInt64} (small : v.toNat < 128 ^ (w + 1)) :
    (varint v).length ≤ w + 1 := by
  have groups (fuel : Nat) : (varintGroups fuel v).length ≤ w + 1 := by
    -- The induction takes one group off the value, and seven bits with it.
    induction w generalizing fuel v with
    | zero =>
      cases fuel with
      | zero => exact Nat.zero_le _
      | succ fuel => rw [varintGroups, if_neg (not_more.mpr small), List.length_singleton]
    | succ w ih =>
      cases fuel with
      | zero => exact Nat.zero_le _
      | succ fuel =>
        rw [varintGroups]
        split
        · refine Nat.succ_le_succ (ih ?_ fuel)
          rw [toNat_shiftRight_seven, Nat.div_lt_iff_lt_mul (by decide)]
          rwa [Nat.pow_succ] at small
        · exact Nat.succ_le_succ (Nat.zero_le _)
  exact groups 10

end Xq
