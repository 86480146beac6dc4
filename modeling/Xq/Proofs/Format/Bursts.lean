import Xq.Proofs.Common.Crc32cBuilds
import Xq.Proofs.Format.Parsers

/-! Bursts of changed bytes: up to four in a row are always found by the CRC that covers them. -/

namespace Xq

open Lib

/-- The bit-by-bit register of a string, from the register of the table. -/
theorem crc32cByte_toBitVec (data : Bytes) (c : UInt32) :
    (data.foldl crc32cByte c).toBitVec = data.foldl (crcByte crc32cPoly) c.toBitVec := by
  -- The induction is on the bytes.
  induction data generalizing c with
  | nil => rfl
  | cons b rest ih =>
    rw [List.foldl_cons, List.foldl_cons, ih]
    rfl

/-- A burst of up to four bytes changes the checksum. -/
theorem crc32cUpdate_burst (crc : UInt32) {old new : Bytes} (burst : Burst 4 old new) :
    crc32cUpdate crc old ≠ crc32cUpdate crc new := by
  -- The registers differ behind the burst, and the bytes behind it keep them apart.
  rw [crc32cUpdate_bitwise, crc32cUpdate_bitwise]
  intro same
  have registers := congrArg (fun c => UInt32.toBitVec (~~~ c)) same
  simp only [crc32cBitwise, UInt32.not_not, crc32cByte_toBitVec] at registers
  exact crcByte_burst (by decide) _ (by decide) burst registers

theorem crc32c_burst {old new : Bytes} (burst : Burst 4 old new) : crc32c old ≠ crc32c new :=
  crc32cUpdate_burst 0 burst

/-- A record verifies when its CRC is that of its first ten bytes and its payload, in one. -/
theorem fmtRecordVerify_ok_iff {hdr payload : Bytes} :
    fmtRecordVerify hdr payload = .ok ↔
      (ld64le hdr 2).toNat = payload.length ∧ ld32le hdr 10 = crc32c (hdr.take 10 ++ payload) := by
  -- An empty payload is not added to the CRC, which makes no difference to it.
  have whole : (if payload.length ≠ 0 then crc32cUpdate (crc32c (hdr.take 10)) payload
      else crc32c (hdr.take 10)) = crc32c (hdr.take 10 ++ payload) := by
    by_cases empty : payload.length ≠ 0
    · rw [if_pos empty]
      exact (crc32cUpdate_append 0 _ _).symm
    · rw [if_neg empty, List.length_eq_zero_iff.mp (not_not.mp empty), List.append_nil]
  rw [fmtRecordVerify]
  dsimp only
  rw [whole]
  by_cases size : (ld64le hdr 2).toNat = payload.length
  · rw [if_neg (not_not.mpr size)]
    by_cases sealed : ld32le hdr 10 = crc32c (hdr.take 10 ++ payload)
    · rw [if_pos sealed]
      exact iff_of_true rfl ⟨size, sealed⟩
    · rw [if_neg sealed]
      exact iff_of_false (by decide) fun both => sealed both.2
  · rw [if_pos size]
    exact iff_of_false (by decide) fun both => size both.1

/-- A structure whose bytes behind `n` are what they were has kept a CRC that lies there. -/
theorem ld32le_kept {old new : Bytes} {n i : Nat} (kept : new.drop n = old.drop n)
    (behind : n ≤ i) : ld32le new i = ld32le old i := by
  -- Each of the four bytes lies behind the change.
  have byte (j : Nat) (behind : n ≤ j) : ld8 new j = ld8 old j := by
    obtain ⟨k, rfl⟩ := Nat.exists_eq_add_of_le behind
    rw [← ld8_drop, ← ld8_drop, kept]
  rw [ld32le, ld32le, byte i behind, byte (i + 1) (by omega), byte (i + 2) (by omega),
    byte (i + 3) (by omega)]

/-- Whatever record verifies and whatever header, block header or footer parses, changing bytes
within four consecutive ones of those its CRC covers, and not the CRC, makes it fail. -/
theorem bursts_detected :
    (∀ hdr payload hdr' payload' : Bytes, fmtRecordVerify hdr payload = .ok →
      payload'.length = payload.length → hdr'.drop 10 = hdr.drop 10 →
      Burst 4 (hdr.take 10 ++ payload) (hdr'.take 10 ++ payload') →
        fmtRecordVerify hdr' payload' ≠ .ok) ∧
    (∀ buf buf' h, fmtHeaderParse buf = .ok h → buf'.drop 28 = buf.drop 28 →
      Burst 4 (buf.take 28) (buf'.take 28) → ∀ h', fmtHeaderParse buf' ≠ .ok h') ∧
    (∀ buf buf' b, fmtBlockParse buf = .ok b → buf'.drop 20 = buf.drop 20 →
      Burst 4 (buf.take 20) (buf'.take 20) → ∀ b', fmtBlockParse buf' ≠ .ok b') ∧
    (∀ buf buf' f, fmtFooterParse buf = .ok f → buf'.take 4 = buf.take 4 →
      Burst 4 ((buf.drop 4).take (footerSize - 4)) ((buf'.drop 4).take (footerSize - 4)) →
        ∀ f', fmtFooterParse buf' ≠ .ok f') := by
  -- Each of the four accepts only what its CRC seals, and a CRC tells bytes apart that differ in a
  -- burst.
  refine ⟨fun hdr payload hdr' payload' verified _ kept burst verified' => ?_,
    fun buf buf' h parsed kept burst h' parsed' => ?_,
    fun buf buf' b parsed kept burst b' parsed' => ?_,
    fun buf buf' f parsed kept burst f' parsed' => ?_⟩
  · have sealed := (fmtRecordVerify_ok_iff.mp verified).2
    have sealed' := (fmtRecordVerify_ok_iff.mp verified').2
    rw [ld32le_kept kept le_rfl, sealed] at sealed'
    exact crc32c_burst burst sealed'
  · obtain ⟨_, _, sealed, _⟩ := fmtHeaderParse_ok_iff.mp parsed
    obtain ⟨_, _, sealed', _⟩ := fmtHeaderParse_ok_iff.mp parsed'
    rw [ld32le_kept kept le_rfl, sealed] at sealed'
    exact crc32c_burst burst sealed'
  · obtain ⟨_, _, sealed, _⟩ := fmtBlockParse_ok_iff.mp parsed
    obtain ⟨_, _, sealed', _⟩ := fmtBlockParse_ok_iff.mp parsed'
    rw [ld32le_kept kept le_rfl, sealed] at sealed'
    exact crc32c_burst burst sealed'
  · -- The footer's CRC stands in front of what it covers.
    obtain ⟨_, _, sealed, _⟩ := fmtFooterParse_ok_iff.mp parsed
    obtain ⟨_, _, sealed', _⟩ := fmtFooterParse_ok_iff.mp parsed'
    have same : ld32le buf' 0 = ld32le buf 0 := by
      rw [ld32le, ld32le, ← ld8_take (p := buf') (n := 4) (by omega),
        ← ld8_take (p := buf') (n := 4) (by omega), ← ld8_take (p := buf') (n := 4) (by omega),
        ← ld8_take (p := buf') (n := 4) (by omega), kept, ld8_take (by omega),
        ld8_take (by omega), ld8_take (by omega), ld8_take (by omega)]
    rw [same, sealed] at sealed'
    exact crc32c_burst burst sealed'

/-- A record of one byte. -/
def byteRecord : Bytes :=
  fmtRecordStore { tag := recUserMeta, rflags := 0, size := 1, crc32c := 0 } [5]

/-- The record verifies, and no longer does with another byte in its payload. -/
theorem bursts_detected_byte :
    fmtRecordVerify byteRecord [5] = .ok ∧ fmtRecordVerify byteRecord [6] ≠ .ok := by
  -- The payload is the eleventh of the covered bytes, and the only one that differs.
  have verified : fmtRecordVerify byteRecord [5] = .ok := by decide +kernel
  refine ⟨verified, bursts_detected.1 byteRecord [5] byteRecord [6] verified rfl rfl
    ⟨rfl, by decide +kernel, 10, fun j outside => ?_⟩⟩
  have length : (byteRecord.take 10).length = 10 := rfl
  rcases outside with below | above
  · rw [List.getElem?_append_left (by omega), List.getElem?_append_left (by omega)]
  · rw [List.getElem?_eq_none (by rw [List.length_append, length, List.length_singleton]; omega),
      List.getElem?_eq_none (by rw [List.length_append, length, List.length_singleton]; omega)]

end Xq
