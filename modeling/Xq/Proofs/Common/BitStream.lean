import Xq.Common.Huff
import Xq.Lib.BitFields

/-! The bit writer packs fields into bytes, and the bit reader looks at them in the same order. -/

namespace Xq

open Lib

/-- A writer that has lost nothing: its bytes and its accumulator are the stream so far. -/
structure BitWriter.Holds (w : BitWriter) (stream total : Nat) : Prop where
  clean : w.overflow = false
  fits : w.buf.length ≤ w.cap
  low : w.acc < 2 ^ w.nbits
  value : bitsOf w.buf + 2 ^ (8 * w.buf.length) * w.acc = stream
  width : 8 * w.buf.length + w.nbits = total

/-- An overflow is never forgotten. -/
theorem bitwDrain_overflow (fuel : Nat) {w : BitWriter} (lost : w.overflow = true) :
    (bitwDrain fuel w).overflow = true := by
  -- The induction is on the fuel; no round clears the flag.
  induction fuel generalizing w with
  | zero => exact lost
  | succ fuel ih =>
    rw [bitwDrain]
    by_cases whole : w.nbits ≥ 8
    · rw [if_pos whole]
      by_cases full : w.buf.length ≥ w.cap
      · rw [if_pos full]
      · rw [if_neg full]
        exact ih lost
    · rw [if_neg whole]
      exact lost

/-- One byte out of the accumulator leaves the stream as it is. -/
theorem BitWriter.Holds.byte {w : BitWriter} {stream total : Nat} (holds : w.Holds stream total)
    (whole : w.nbits ≥ 8) (room : w.buf.length < w.cap) :
    BitWriter.Holds { w with buf := w.buf ++ [UInt8.ofNat (w.acc % 256)], acc := w.acc >>> 8,
                             nbits := w.nbits - 8 } stream total where
  clean := holds.clean
  fits := by
    rw [List.length_append, List.length_singleton]
    exact room
  low := by
    have low := holds.low
    -- The accumulator loses its lowest eight bits.
    have split : 2 ^ w.nbits = 2 ^ (w.nbits - 8) * 2 ^ 8 := by
      rw [← Nat.pow_add, Nat.sub_add_cancel whole]
    rw [Nat.shiftRight_eq_div_pow]
    exact (Nat.div_lt_iff_lt_mul (Nat.two_pow_pos 8)).mpr (split ▸ low)
  value := by
    -- The byte written is what the accumulator had lowest.
    have exact_byte : (UInt8.ofNat (w.acc % 256)).toNat = w.acc % 256 := by
      rw [UInt8.toNat_ofNat']
      exact Nat.mod_mod_of_dvd _ (Nat.dvd_refl _)
    dsimp only
    rw [bitsOf_snoc, exact_byte, List.length_append, List.length_singleton,
      Nat.shiftRight_eq_div_pow, Nat.mul_add, Nat.pow_add, Nat.add_assoc, Nat.mul_assoc,
      ← Nat.mul_add]
    -- The byte and what stays in the accumulator are the accumulator.
    rw [Nat.mul_one, show w.acc % 256 + 2 ^ 8 * (w.acc / 2 ^ 8) = w.acc from Nat.mod_add_div _ _]
    exact holds.value
  width := by
    have width := holds.width
    dsimp only
    rw [List.length_append, List.length_singleton]
    omega

/-- What a writer of a capacity has made of a stream: it holds it, or its whole bytes overflowed. -/
def BitWriter.Wrote (w : BitWriter) (cap stream total : Nat) : Prop :=
  w.Holds stream total ∧ w.nbits < 8 ∧ w.cap = cap ∨ w.overflow = true ∧ 8 * cap + 8 ≤ total

/-- Draining moves out every whole byte, or finds no room for one. -/
theorem bitwDrain_wrote {w : BitWriter} {stream total fuel : Nat}
    (holds : w.Holds stream total) (enough : w.nbits ≤ fuel) :
    (bitwDrain fuel w).Wrote w.cap stream total := by
  -- The induction is on the fuel, of which each round takes one and eight bits.
  induction fuel generalizing w with
  | zero =>
    exact .inl ⟨holds, by simp only [bitwDrain]; omega, rfl⟩
  | succ fuel ih =>
    rw [bitwDrain]
    by_cases whole : w.nbits ≥ 8
    · rw [if_pos whole]
      by_cases full : w.buf.length ≥ w.cap
      · -- A whole byte is left lost behind the last one that fits.
        rw [if_pos full]
        have width := holds.width
        exact .inr ⟨rfl, by omega⟩
      · rw [if_neg full]
        exact ih (holds.byte whole (by omega)) (by dsimp only; omega)
    · rw [if_neg whole]
      exact .inl ⟨holds, by omega, rfl⟩

/-- Putting a field into a writer appends it to the stream. -/
theorem bitwPut_wrote {w : BitWriter} {cap stream total value width : Nat}
    (wrote : w.Wrote cap stream total) (narrow : value < 2 ^ width) :
    (bitwPut w value width).Wrote cap (stream + 2 ^ total * value) (total + width) := by
  rw [bitwPut]
  by_cases empty : width = 0
  · -- A field without bits has the value zero, and nothing happens.
    subst empty
    obtain rfl : value = 0 := by simpa using narrow
    rw [if_pos rfl]
    exact wrote
  rw [if_neg empty]
  rcases wrote with ⟨holds, few, rfl⟩ | ⟨lost, beyond⟩
  · -- The field goes on top of the bits in the accumulator.
    have joined : w.acc ||| value <<< w.nbits = w.acc + 2 ^ w.nbits * value := by
      rw [Nat.or_comm, ← Nat.shiftLeft_add_eq_or_of_lt holds.low, Nat.shiftLeft_eq]
      ring
    refine bitwDrain_wrote ⟨holds.clean, holds.fits, ?_, ?_, ?_⟩ (Nat.le_refl _)
    · have low := holds.low
      dsimp only
      rw [joined, Nat.pow_add]
      calc w.acc + 2 ^ w.nbits * value < 2 ^ w.nbits + 2 ^ w.nbits * value := by omega
        _ = 2 ^ w.nbits * (value + 1) := by ring
        _ ≤ 2 ^ w.nbits * 2 ^ width := Nat.mul_le_mul_left _ narrow
    · dsimp only
      rw [joined, Nat.mul_add, ← Nat.add_assoc, holds.value, ← Nat.mul_assoc, ← Nat.pow_add,
        holds.width]
    · dsimp only
      rw [← Nat.add_assoc, holds.width]
  · -- An overflow stays, and the stream is longer still.
    exact .inr ⟨bitwDrain_overflow _ lost, by omega⟩

/-- A whole sequence of fields is packed in order. -/
theorem bitwPut_fields (cap : Nat) {fields : List (Nat × Nat)} (narrow : Narrow fields) :
    (fields.foldl (fun w field => bitwPut w field.1 field.2) (bitwInit cap)).Wrote cap
      (packed fields) (packedWidth fields) := by
  -- The induction is from the back, where the last field has just been put.
  induction fields using List.reverseRecOn with
  | nil => exact .inl ⟨⟨rfl, Nat.zero_le _, Nat.one_pos, rfl, rfl⟩, Nat.zero_lt_succ 7, rfl⟩
  | append_singleton fields field ih =>
    obtain ⟨value, width⟩ := field
    have wrote := ih fun other member => narrow other (List.mem_append_left _ member)
    have small := narrow (value, width) (List.mem_append_right _ (List.mem_singleton_self _))
    rw [List.foldl_append, List.foldl_cons, List.foldl_nil, packed_snoc, packedWidth_snoc]
    exact bitwPut_wrote wrote small

/-- Flushing succeeds exactly when the bits fit, and then pads the last byte with zeros. -/
theorem bitwFlush_wrote {w : BitWriter} {cap stream total : Nat}
    (wrote : w.Wrote cap stream total) :
    (total ≤ 8 * cap → ∃ bytes, bitwFlush w = some bytes ∧ bitsOf bytes = stream ∧
      total ≤ 8 * bytes.length) ∧ (8 * cap < total → bitwFlush w = none) := by
  rcases wrote with ⟨holds, few, rfl⟩ | ⟨lost, beyond⟩
  · have width := holds.width
    have fits := holds.fits
    by_cases partial_byte : w.nbits > 0
    · obtain ⟨more, size⟩ : ∃ more, w.nbits = more + 1 := ⟨w.nbits - 1, by omega⟩
      by_cases full : w.buf.length ≥ w.cap
      · -- The last partial byte has no room.
        refine ⟨fun short => by omega, fun _ => ?_⟩
        simp [bitwFlush, size, bitwFlushLoop, full]
      · refine ⟨fun _ => ⟨w.buf ++ [UInt8.ofNat (w.acc % 256)], ?_, ?_, ?_⟩, fun long => by omega⟩
        · have done : w.nbits - 8 = 0 := by omega
          rw [bitwFlush, size, bitwFlushLoop, if_pos partial_byte, if_neg full, done]
          cases more <;> simp [bitwFlushLoop, holds.clean]
        · have small : w.acc < 256 :=
            Nat.lt_of_lt_of_le holds.low (Nat.pow_le_pow_right (by decide) (Nat.le_of_lt few))
          rw [bitsOf_snoc, Nat.mod_eq_of_lt small, UInt8.toNat_ofNat', Nat.mod_eq_of_lt small]
          exact holds.value
        · rw [List.length_append, List.length_singleton]
          omega
    · -- The stream ends at a byte, and nothing is added.
      have none_left : w.nbits = 0 := by omega
      refine ⟨fun _ => ⟨w.buf, ?_, ?_, by omega⟩, fun long => by omega⟩
      · simp [bitwFlush, none_left, bitwFlushLoop, holds.clean]
      · have low := holds.low
        have value := holds.value
        rw [none_left, Nat.pow_zero, Nat.lt_one_iff] at low
        rwa [low, Nat.mul_zero, Nat.add_zero] at value
  · refine ⟨fun short => by omega, fun _ => ?_⟩
    -- A writer that has overflowed reports so, whatever the last loop does.
    have kept : ∀ fuel (w : BitWriter), w.overflow = true →
        (bitwFlushLoop fuel w).overflow = true := by
      intro fuel
      induction fuel with
      | zero => exact fun w lost => lost
      | succ fuel ih =>
        intro w lost
        rw [bitwFlushLoop]
        split
        · split
          · rfl
          · exact ih _ lost
        · exact lost
    rw [bitwFlush]
    exact if_pos (kept _ _ lost)

/-- A reader's accumulator and the bytes behind it are what is left of the stream. -/
structure BitReader.Holds (r : BitReader) (stream total : Nat) : Prop where
  low : r.acc < 2 ^ r.nbits
  value : r.acc + 2 ^ r.nbits * bitsOf r.rest = stream
  width : r.nbits + 8 * r.rest.length = total

theorem bitrInit_holds (bytes : Bytes) :
    (bitrInit bytes).Holds (bitsOf bytes) (8 * bytes.length) where
  low := Nat.one_pos
  value := by simp [bitrInit]
  width := by simp [bitrInit]

/-- Filling the accumulator moves no bit, and stops short only at the end of the bytes. -/
theorem bitrFillFrom_holds (rest : Bytes) {acc nbits stream total : Nat}
    (holds : BitReader.Holds { rest := rest, acc := acc, nbits := nbits } stream total) :
    (bitrFillFrom rest acc nbits).Holds stream total ∧
      ((bitrFillFrom rest acc nbits).rest = [] ∨ 56 < (bitrFillFrom rest acc nbits).nbits) := by
  -- The induction is on the unread bytes, which move above the bits in the accumulator.
  induction rest generalizing acc nbits with
  | nil => exact ⟨holds, .inl rfl⟩
  | cons b rest ih =>
    rw [bitrFillFrom]
    by_cases space : nbits ≤ 56
    · rw [if_pos space]
      have byte := b.toNat_lt
      have low := holds.low
      have value := holds.value
      have width := holds.width
      dsimp only at low value width
      have joined : acc ||| b.toNat <<< nbits = acc + 2 ^ nbits * b.toNat := by
        rw [Nat.or_comm, ← Nat.shiftLeft_add_eq_or_of_lt low, Nat.shiftLeft_eq]
        ring
      refine ih ⟨?_, ?_, ?_⟩
      · dsimp only
        rw [joined, Nat.pow_add]
        calc acc + 2 ^ nbits * b.toNat < 2 ^ nbits + 2 ^ nbits * b.toNat := by omega
          _ = 2 ^ nbits * (b.toNat + 1) := by ring
          _ ≤ 2 ^ nbits * 2 ^ 8 := Nat.mul_le_mul_left _ byte
      · dsimp only
        rw [← value, bitsOf_cons, joined]
        ring
      · dsimp only
        rw [List.length_cons] at width
        omega
    · -- The accumulator is full.
      rw [if_neg space]
      exact ⟨holds, .inr (by dsimp only; omega)⟩

/-- Filling a reader before looking at fifteen bits shows all of them that are left. -/
theorem bitrFill_holds {r : BitReader} {stream total : Nat} (holds : r.Holds stream total) :
    ∃ r', (if r.nbits < huffMaxBits then bitrFill r else r) = r' ∧ r'.Holds stream total ∧
      (r'.rest = [] ∨ huffMaxBits ≤ r'.nbits) := by
  by_cases short : r.nbits < huffMaxBits
  · rw [if_pos short]
    -- The fill leaves more than 56 bits, or it has run out of bytes.
    obtain ⟨kept, seen⟩ := bitrFillFrom_holds r.rest holds
    refine ⟨_, rfl, kept, seen.imp id fun wide => ?_⟩
    change _ < (bitrFill r).nbits at wide
    have : huffMaxBits = 15 := rfl
    omega
  · rw [if_neg short]
    exact ⟨r, rfl, holds, .inr (by omega)⟩

/-- A field no wider than fifteen bits can be read off a filled accumulator. -/
theorem BitReader.Holds.front {r : BitReader} {stream total l : Nat} (holds : r.Holds stream total)
    (seen : r.rest = [] ∨ huffMaxBits ≤ r.nbits) (short : l ≤ huffMaxBits) (enough : l ≤ total) :
    l ≤ r.nbits ∧ r.acc % 2 ^ l = stream % 2 ^ l := by
  have width := holds.width
  have inside : l ≤ r.nbits := by
    rcases seen with ended | wide
    · rw [ended, List.length_nil] at width
      omega
    · omega
  refine ⟨inside, ?_⟩
  -- What lies behind the accumulator is too high to be seen.
  rw [← holds.value, ← Nat.sub_add_cancel inside, Nat.pow_add, Nat.mul_right_comm,
    Nat.add_mul_mod_self_right]

/-- Consuming a field leaves the stream above it. -/
theorem BitReader.Holds.consume {r : BitReader} {stream total l : Nat}
    (holds : r.Holds stream total) (inside : l ≤ r.nbits) :
    BitReader.Holds { r with acc := r.acc >>> l, nbits := r.nbits - l } (stream / 2 ^ l)
      (total - l) where
  low := by
    have low := holds.low
    rw [← Nat.sub_add_cancel inside, Nat.pow_add] at low
    rw [Nat.shiftRight_eq_div_pow]
    exact (Nat.div_lt_iff_lt_mul (Nat.two_pow_pos l)).mpr low
  value := by
    -- The bits still unread move down with the others.
    have split : 2 ^ r.nbits * bitsOf r.rest =
        2 ^ l * (2 ^ (r.nbits - l) * bitsOf r.rest) := by
      rw [← Nat.mul_assoc, ← Nat.pow_add, Nat.add_sub_cancel' inside]
    rw [← holds.value, split, Nat.add_mul_div_left _ _ (Nat.two_pow_pos l),
      Nat.shiftRight_eq_div_pow]
  width := by
    have width := holds.width
    dsimp only
    omega

end Xq
