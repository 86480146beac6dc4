import Xq.Codec.Lze
import Xq.Proofs.Common.HuffTables

/-! Symbols coded with the built codes and decoded with the stored table. -/

namespace Xq

open Lib

/-- The fields that coding a sequence of symbols puts into the bit stream. -/
def codeFields (e : HuffEnc) (syms : Bytes) : List (Nat × Nat) :=
  syms.map fun s => (e.code s.toNat, e.len s.toNat)

/-- The number of bits a sequence of symbols takes. -/
def codeBits (e : HuffEnc) (syms : Bytes) : Nat := (syms.map fun s => e.len s.toNat).sum

theorem packedWidth_codeFields (e : HuffEnc) (syms : Bytes) :
    packedWidth (codeFields e syms) = codeBits e syms := by
  -- Both are the sum of the lengths of the codes.
  simp [packedWidth, codeFields, codeBits, Function.comp_def]

/-- The bits that coding a sequence of symbols leaves in a buffer of some capacity. -/
def huffEmitAll (e : HuffEnc) (cap : Nat) (syms : Bytes) : Option Bytes :=
  bitwFlush (syms.foldl (fun w s => huffEmit w e s.toNat) (bitwInit cap))

/-- One decoded symbol: the table answers with the code at the front of the stream. -/
theorem huffDecode_code {d : HuffDec} {e : HuffEnc} (inverts : d.Inverts e) {s : Nat}
    (used : e.len s ≠ 0) (narrow : e.code s < 2 ^ e.len s) {r : BitReader} {total : Nat}
    {fields : List (Nat × Nat)}
    (holds : r.Holds (packed ((e.code s, e.len s) :: fields)) total) (enough : e.len s ≤ total) :
    ∃ r', huffDecode r d = some (s, r') ∧ r'.Holds (packed fields) (total - e.len s) := by
  have short := (inverts.longest s).trans inverts.short
  obtain ⟨first, above⟩ := packed_cons_split narrow fields
  obtain ⟨r', filled, kept, seen⟩ := bitrFill_holds holds
  obtain ⟨inside, front⟩ := kept.front seen short enough
  -- The slot looked up has the code as its low bits, so it belongs to the symbol.
  have slot : r'.acc % 2 ^ d.maxLen % 2 ^ e.len s = e.code s := by
    rw [Nat.mod_mod_of_dvd _ (Nat.pow_dvd_pow 2 (inverts.longest s)), front, first]
  obtain ⟨symbol, length⟩ := inverts.finds s used _ (Nat.mod_lt _ (Nat.two_pow_pos _)) slot
  refine ⟨{ r' with acc := r'.acc >>> e.len s, nbits := r'.nbits - e.len s }, ?_, ?_⟩
  · rw [huffDecode, filled]
    simp only [symbol, length]
    exact if_neg (by omega)
  · have rest := kept.consume inside
    rwa [above] at rest

/-- Decoding as many symbols as were coded gives them all back. -/
theorem lzeDecodeSymbols_codes {d : HuffDec} {e : HuffEnc} (inverts : d.Inverts e) {syms : Bytes}
    (used : ∀ s ∈ syms, e.len s.toNat ≠ 0) (narrow : Narrow (codeFields e syms)) {r : BitReader}
    {total : Nat} (holds : r.Holds (packed (codeFields e syms)) total)
    (enough : codeBits e syms ≤ total) : lzeDecodeSymbols d syms.length r = some syms := by
  -- The induction is on the symbols; one code is consumed, and the others are the stream behind it.
  induction syms generalizing r total with
  | nil => rfl
  | cons s rest ih =>
    have bits : codeBits e (s :: rest) = e.len s.toNat + codeBits e rest := by simp [codeBits]
    obtain ⟨r', found, behind⟩ := huffDecode_code inverts (used s List.mem_cons_self)
      (narrow _ List.mem_cons_self) holds (by omega)
    have others := ih (fun t member => used t (List.mem_cons_of_mem _ member))
      (fun field member => narrow field (List.mem_cons_of_mem _ member)) behind (by omega)
    rw [List.length_cons, lzeDecodeSymbols, found]
    simp only [others, Option.map_some, UInt8.ofNat_toNat]

/--
Coding succeeds exactly when the bits fit, and what it writes decodes to what was coded.

The decoder is built from the stored lengths alone, and reads the flushed bytes and nothing more.
-/
theorem huffEmitAll_decodes {f : Nat → Nat} {e : HuffEnc} (built : huffBuild f = some e)
    {syms : Bytes} (counted : ∀ s ∈ syms, f s.toNat ≠ 0) (cap : Nat) :
    ((huffEmitAll e cap syms).isSome ↔ codeBits e syms ≤ 8 * cap) ∧
      ∀ bytes, huffEmitAll e cap syms = some bytes →
        ∃ d, huffLoad (huffStore e) = some d ∧
          lzeDecodeSymbols d syms.length (bitrInit bytes) = some syms := by
  -- The codes are canonical, so each fits its length, and the writer packs them one after the
  -- other.
  have canonical := huffBuild_canonical built
  have used : ∀ s ∈ syms, e.len s.toNat ≠ 0 := fun s member =>
    (canonical.used s.toNat).mpr ⟨s.toNat_lt, counted s member⟩
  have narrow : Narrow (codeFields e syms) := by
    intro field member
    obtain ⟨s, present, rfl⟩ := List.mem_map.mp member
    dsimp only
    rw [canonical.code _ (used s present)]
    exact reverseBits_lt _ _
  have wrote := bitwPut_fields cap narrow
  rw [packedWidth_codeFields, codeFields, List.foldl_map] at wrote
  obtain ⟨fits, beyond⟩ := bitwFlush_wrote wrote
  change (_ → ∃ bytes, huffEmitAll e cap syms = some bytes ∧ _) at fits
  change (_ → huffEmitAll e cap syms = none) at beyond
  refine ⟨⟨fun made => ?_, fun short => ?_⟩, fun bytes made => ?_⟩
  · -- Too many bits make the flush fail.
    by_contra long
    rw [beyond (by omega)] at made
    exact absurd made (by decide)
  · obtain ⟨bytes, made, _⟩ := fits short
    rw [made]
    rfl
  · -- What is flushed is the packed stream, which the stored table decodes.
    have short : codeBits e syms ≤ 8 * cap := by
      by_contra long
      rw [beyond (by omega)] at made
      cases made
    obtain ⟨bytes', made', stream, enough⟩ := fits short
    obtain rfl : bytes' = bytes := Option.some.inj (made'.symm.trans made)
    obtain ⟨d, loaded, inverts⟩ := huffLoad_store canonical
    exact ⟨d, loaded, lzeDecodeSymbols_codes inverts used narrow
      (stream ▸ bitrInit_holds bytes') enough⟩

/-- A table of 32-bit counts, as the builder indexes it. -/
def countsOf (freq : UInt8 → UInt32) (i : Nat) : Nat := (freq (UInt8.ofNat i)).toNat

/--
Huffman coding is lossless for every frequency table the builder accepts.

Any sequence of counted symbols is flushed exactly when its bits fit into the buffer, and then the
stored table is accepted and the flushed bytes alone decode to the sequence.
-/
theorem huffman_roundTrip (freq : UInt8 → UInt32) {e : HuffEnc}
    (built : huffBuild (countsOf freq) = some e) {syms : Bytes}
    (counted : ∀ s ∈ syms, freq s ≠ 0) (cap : Nat) :
    ((huffEmitAll e cap syms).isSome ↔ codeBits e syms ≤ 8 * cap) ∧
      ∀ bytes, huffEmitAll e cap syms = some bytes →
        ∃ d, huffLoad (huffStore e) = some d ∧
          lzeDecodeSymbols d syms.length (bitrInit bytes) = some syms := by
  -- A symbol counted in 32 bits is counted.
  refine huffEmitAll_decodes built (fun s member zero => counted s member ?_) cap
  rw [countsOf, UInt8.ofNat_toNat] at zero
  exact UInt32.toNat_inj.mp zero

/-- Three symbols of different frequencies, coded into two bytes. -/
def threeCounts (s : UInt8) : UInt32 := if s = 97 then 5 else if s = 98 then 2 else
  if s = 99 then 1 else 0

theorem huffman_roundTrip_three : ∃ e, huffBuild (countsOf threeCounts) = some e ∧
    ((huffEmitAll e 2 [97, 98, 97, 99, 97]).isSome ↔ codeBits e [97, 98, 97, 99, 97] ≤ 8 * 2) ∧
      ∀ bytes, huffEmitAll e 2 [97, 98, 97, 99, 97] = some bytes →
        ∃ d, huffLoad (huffStore e) = some d ∧
          lzeDecodeSymbols d 5 (bitrInit bytes) = some [97, 98, 97, 99, 97] := by
  -- Only the builder's success is evaluated.
  obtain ⟨e, built⟩ := Option.isSome_iff_exists.mp
    (show (huffBuild (countsOf threeCounts)).isSome = true by decide +kernel)
  exact ⟨e, built, huffman_roundTrip threeCounts built (by decide +kernel) 2⟩

end Xq
