import Xq.Proofs.Codec.Varint

/-! What varint readers take hostile bytes for: the number the bytes denote, except that the tenth
byte loses what does not fit into 64 bits. -/

namespace Xq

/-- The number that groups denote, the first of them lowest. -/
def base128 : Bytes → Nat
  | [] => 0
  | b :: rest => b.toNat % 128 + 128 * base128 rest

section Groups

/-- A group lands above the bits read so far, as far as it fits. -/
theorem or_group_mod {acc : UInt64} {shift : Nat} (b : UInt8) (small : shift < 64)
    (below : acc.toNat < 2 ^ shift) :
    (acc ||| (b &&& 0x7F).toUInt64 <<< UInt64.ofNat shift).toNat =
      (acc.toNat + b.toNat % 128 * 2 ^ shift) % 2 ^ 64 := by
  have amount : (UInt64.ofNat shift).toNat % 64 = shift := by
    rw [UInt64.toNat_ofNat']
    omega
  have word : 2 ^ 64 = 2 ^ shift * 2 ^ (64 - shift) := by
    rw [← Nat.pow_add, Nat.add_sub_cancel' small.le]
  have kept : 2 ^ shift * (b.toNat % 128) % 2 ^ 64 =
      2 ^ shift * (b.toNat % 128 % 2 ^ (64 - shift)) := by
    rw [word, Nat.mul_mod_mul_left]
  -- The two operands share no bit, so the disjunction is a sum.
  have sum : (acc ||| (b &&& 0x7F).toUInt64 <<< UInt64.ofNat shift).toNat =
      acc.toNat + b.toNat % 128 * 2 ^ shift % 2 ^ 64 := by
    rw [UInt64.toNat_or, UInt64.toNat_shiftLeft, amount, UInt8.toNat_toUInt64, and_mask7,
      Nat.shiftLeft_eq, Nat.mul_comm, kept, Nat.or_comm, ← Nat.two_pow_add_eq_or_of_lt below,
      Nat.add_comm]
  rw [← Nat.mod_eq_of_lt (UInt64.toNat_lt _), sum, Nat.add_mod_mod]

/-- What the loop takes is one number: continued bytes and a last one, of ten groups at most. -/
theorem getVarintLoop_some {src rest : Bytes} {acc v : UInt64} {i : Nat} (early : i ≤ 9)
    (below : acc.toNat < 2 ^ (7 * i))
    (taken : getVarintLoop src acc (7 * i) = some (v, rest)) :
    ∃ front b, src = front ++ b :: rest ∧ (∀ x ∈ front, 128 ≤ x.toNat) ∧ b.toNat < 128 ∧
      front.length + i ≤ 9 ∧
      v.toNat = (acc.toNat + base128 (front ++ [b]) * 2 ^ (7 * i)) % 2 ^ 64 := by
  -- The induction is on the input; the bits read so far stay below the shift of the next group.
  induction src generalizing acc i with
  | nil => cases taken
  | cons b src ih =>
    rw [getVarintLoop, if_neg (by omega)] at taken
    dsimp only at taken
    have value := or_group_mod b (by omega) below
    by_cases last : b &&& 0x80 = 0
    · -- The last group ends the number.
      rw [if_pos last] at taken
      obtain ⟨rfl, rfl⟩ := Prod.mk.inj (Option.some.inj taken)
      refine ⟨[], b, rfl, List.forall_mem_nil _, (and_bit7 b).mp last,
        (Nat.zero_add i).trans_le early, ?_⟩
      rw [value, List.nil_append, base128, base128, Nat.mul_zero, Nat.add_zero]
    · rw [if_neg last] at taken
      by_cases wide : 7 * i + 7 ≥ 64
      · rw [if_pos wide] at taken
        cases taken
      rw [if_neg wide] at taken
      -- A group that is continued fits, and leaves the bits so far below the next shift.
      have power : 2 ^ (7 * (i + 1)) = 128 * 2 ^ (7 * i) := by
        rw [Nat.mul_add, Nat.pow_add, Nat.mul_comm]
      have group : b.toNat % 128 * 2 ^ (7 * i) ≤ 127 * 2 ^ (7 * i) :=
        Nat.mul_le_mul_right _ (by omega)
      have room : 2 ^ (7 * (i + 1)) ≤ 2 ^ 64 := Nat.pow_le_pow_right (by decide) (by omega)
      rw [Nat.mod_eq_of_lt (by omega)] at value
      obtain ⟨front, c, rfl, continued, ends, short, total⟩ := ih (i := i + 1) (by omega)
        (by rw [value]; omega) taken
      refine ⟨b :: front, c, rfl, ?_, ends, by rw [List.length_cons]; omega, ?_⟩
      · intro x member
        rcases List.mem_cons.mp member with rfl | later
        · exact Nat.not_lt.mp fun low => last ((and_bit7 x).mpr low)
        · exact continued x later
      · rw [total, value, power, List.cons_append, base128]
        congr 1
        ring

/-- Continued bytes and a last one are taken, when they are ten groups at most. -/
theorem getVarintLoop_takes {front : Bytes} {b : UInt8} (rest : Bytes) {i : Nat} (acc : UInt64)
    (continued : ∀ x ∈ front, 128 ≤ x.toNat) (ends : b.toNat < 128)
    (short : front.length + i ≤ 9) :
    ∃ v, getVarintLoop (front ++ b :: rest) acc (7 * i) = some (v, rest) := by
  -- The induction is on the continued bytes; their number keeps the shift below 64.
  induction front generalizing acc i with
  | nil =>
    rw [List.length_nil] at short
    rw [List.nil_append, getVarintLoop, if_neg (by omega)]
    dsimp only
    rw [if_pos ((and_bit7 b).mpr ends)]
    exact ⟨_, rfl⟩
  | cons x front ih =>
    rw [List.length_cons] at short
    have more : ¬ (x &&& 0x80 = 0) := fun last =>
      Nat.not_lt.mpr (continued x List.mem_cons_self) ((and_bit7 x).mp last)
    rw [List.cons_append, getVarintLoop, if_neg (by omega)]
    dsimp only
    rw [if_neg more, if_neg (by omega)]
    exact ih (i := i + 1) _ (fun y member => continued y (List.mem_cons_of_mem _ member)) (by omega)

theorem base128_concat (front : Bytes) (b : UInt8) :
    base128 (front ++ [b]) = base128 front + b.toNat % 128 * 128 ^ front.length := by
  -- The induction is on the groups in front of the last.
  induction front with
  | nil => rw [List.nil_append, base128, base128, base128, List.length_nil]; omega
  | cons x front ih =>
    rw [List.cons_append, base128, base128, ih, List.length_cons, Nat.pow_succ]
    ring

theorem base128_lt (front : Bytes) : base128 front < 128 ^ front.length := by
  -- The induction is on the groups, and each multiplies the bound by 128.
  induction front with
  | nil => exact Nat.one_pos
  | cons x front ih =>
    rw [base128, List.length_cons, Nat.pow_succ]
    omega

end Groups

/-- Nine continued bytes, and then a last one with more than one bit: the tenth group lies across
the end of a 64-bit word. -/
def TenthGroupWide (inp : Bytes) : Prop :=
  ∃ front b rest, inp = front ++ b :: rest ∧ front.length = 9 ∧
    (∀ x ∈ front, 128 ≤ x.toNat) ∧ b.toNat < 128 ∧ 2 ≤ b.toNat

/-- The bytes a reader has taken denote the number it has returned. -/
def DenotesExactly (read : Bytes → Option (UInt64 × Bytes)) (inp : Bytes) : Prop :=
  ∀ v rest taken, read inp = some (v, rest) → inp = taken ++ rest → v.toNat = base128 taken

/-- A reader is exact wherever the tenth group, if there is one, fits. -/
theorem getVarint_denotes_iff (inp : Bytes) :
    DenotesExactly getVarint inp ↔ ¬ TenthGroupWide inp := by
  constructor
  · rintro exactly ⟨front, b, rest, rfl, length, continued, ends, wide⟩
    obtain ⟨v, taken⟩ := getVarintLoop_takes rest 0 (i := 0) continued ends (by omega)
    have value := exactly v rest (front ++ [b]) taken (by rw [List.append_assoc]; rfl)
    -- The number does not fit into the word that is returned.
    have word := v.toNat_lt
    have large : 2 * 128 ^ 9 ≤ b.toNat % 128 * 128 ^ 9 :=
      Nat.mul_le_mul_right _ (by omega)
    rw [value, base128_concat, length] at word
    omega
  · -- What is read is the number, cut off at the word.
    intro narrow v rest taken read cut
    obtain ⟨front, b, whole, continued, ends, short, value⟩ :=
      getVarintLoop_some (i := 0) (by omega) (by decide) read
    obtain rfl : taken = front ++ [b] := by
      refine (List.append_left_inj rest).mp ?_
      rw [← cut, whole, List.append_assoc]
      rfl
    have zero : (0 : UInt64).toNat = 0 := rfl
    rw [value, zero, Nat.zero_add, Nat.mul_zero, Nat.pow_zero, Nat.mul_one]
    refine Nat.mod_eq_of_lt ?_
    have low := base128_lt front
    rw [base128_concat, Nat.mod_eq_of_lt ends]
    rcases Nat.lt_or_ge front.length 9 with early | tenth
    · -- Nine groups and fewer are always below the word.
      have place : 128 ^ (front.length + 1) ≤ 128 ^ 9 :=
        Nat.pow_le_pow_right (by decide) early
      have group : b.toNat * 128 ^ front.length ≤ 127 * 128 ^ front.length :=
        Nat.mul_le_mul_right _ (by omega)
      rw [Nat.pow_succ] at place
      omega
    · -- The tenth group is one bit, which just fits.
      have nine : front.length = 9 := by omega
      have one : b.toNat < 2 :=
        Nat.not_le.mp fun wide => narrow ⟨front, b, rest, whole, nine, continued, ends, wide⟩
      rw [nine] at low ⊢
      have group : b.toNat * 128 ^ 9 ≤ 1 * 128 ^ 9 := Nat.mul_le_mul_right _ (by omega)
      omega

/-- Decoding at a position is exact: both readers return what the bytes they take denote, and agree;
and what the writer appends reads back. -/
structure VarintExact (src : Bytes) (pos : Nat) : Prop where
  lzb : DenotesExactly getVarint (src.drop pos)
  lze : DenotesExactly lzeGetVarint (src.drop pos)
  agree : lzeGetVarint (src.drop pos) = getVarint (src.drop pos)
  written : ∀ cap dst v out, putVarint cap dst v = some out → ∃ w, out = dst ++ w ∧
    ∀ rest, getVarint (w ++ rest) = some (v, rest) ∧ lzeGetVarint (w ++ rest) = some (v, rest)

/-- Decoding at a position is exact if and only if no tenth group there is wider than one bit. -/
theorem varint_exact_iff (src : Bytes) (pos : Nat) :
    VarintExact src pos ↔ ¬ TenthGroupWide (src.drop pos) := by
  -- Both readers are one function, and the writer's groups read back at any position.
  have same : lzeGetVarint = getVarint := funext lzeGetVarint_eq
  constructor
  · intro exactly
    exact (getVarint_denotes_iff _).mp exactly.lzb
  · intro narrow
    have denotes := (getVarint_denotes_iff _).mpr narrow
    refine ⟨denotes, same ▸ denotes, lzeGetVarint_eq _, fun cap dst v out written => ?_⟩
    rw [putVarint_eq] at written
    split at written
    · exact ⟨varint v, (Option.some.inj written).symm, fun rest =>
        ⟨getVarint_varint v rest, (lzeGetVarint_eq _).trans (getVarint_varint v rest)⟩⟩
    · cases written

/-- Ten bytes that denote 2 ^ 64. -/
def overlongVarint : Bytes := List.replicate 9 0x80 ++ [2]

/-- They are accepted, and read as zero. -/
theorem varint_truncated : ¬ VarintExact overlongVarint 0 := by
  -- The bytes denote 2^64, and the word that is read is zero.
  intro exactly
  have read : getVarint (overlongVarint.drop 0) = some (0, []) := by decide +kernel
  have value := exactly.lzb 0 [] overlongVarint read (List.append_nil _).symm
  have denoted : base128 overlongVarint = 2 ^ 64 := by decide +kernel
  rw [denoted] at value
  cases value

end Xq
