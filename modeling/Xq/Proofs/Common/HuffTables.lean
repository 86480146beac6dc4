import Xq.Proofs.Common.BitStream
import Xq.Proofs.Common.HuffCodes

/-! Which stored tables the decoder accepts, and what it reads with one it has accepted. -/

namespace Xq

open Lib

section Tables

variable {len : Nat → Nat}

/-- The lengths of a table hold for its symbols alone, and in four bits. -/
structure TableLengths (len : Nat → Nat) : Prop where
  within : ∀ s, len s ≠ 0 → s < huffSymbols
  short : ∀ s, len s ≤ huffMaxBits

theorem huffTableLen_lengths {src : Bytes} (table : src.length = huffTableBytes) :
    TableLengths (huffTableLen src) where
  within s used := by
    have : huffSymbols = 256 := rfl
    have : huffTableBytes = 128 := rfl
    by_contra outside
    -- Behind the table there are only zeros.
    have absent : ld8 src (s / 2) = 0 := by
      rw [ld8, List.getD_eq_default]
      omega
    rw [huffTableLen, absent] at used
    split at used
    · exact used rfl
    · exact used rfl
  short s := by
    -- Each byte of the table has two lengths, and each is a nibble.
    have nibble : ∀ b : UInt8, (b &&& 0x0F).toNat ≤ 15 ∧ (b >>> 4).toNat ≤ 15 := by decide +kernel
    rw [huffTableLen]
    split
    · exact (nibble _).1
    · exact (nibble _).2

/-- Lengths that give a single symbol one bit, or several symbols codes that fill the space. -/
def CompleteLengths (len : Nat → Nat) : Prop :=
  (∃ s, huffUsed len = [s] ∧ len s = 1) ∨
    2 ≤ (huffUsed len).length ∧ kraftSum huffSymbols len = 1

/-- Codes fill the space when their Kraft sum is one. -/
theorem filling_iff (lengths : TableLengths len) :
    Filling len ↔ kraftSum huffSymbols len = 1 := by
  constructor
  · exact Filling.kraftSum
  · intro kraft
    -- A Kraft sum of one, counted in any longest length, is the whole space of that length.
    refine ⟨lengths.within, lengths.short, fun m longest => ?_⟩
    have full := taken_kraftSum (n := huffSymbols) longest
    rw [kraft, mul_one] at full
    exact_mod_cast full

theorem CompleteLengths.prefixLengths (lengths : TableLengths len) (complete : CompleteLengths len) :
    PrefixLengths len := by
  rcases complete with ⟨s, single, one⟩ | ⟨_, kraft⟩
  · -- A single code of one bit is the table of one symbol.
    have same : len = Function.update (fun _ => 0) s 1 := by
      funext i
      by_cases here : i = s
      · rw [here, one, Function.update_self]
      · rw [Function.update_of_ne here]
        by_contra used
        have member := mem_huffUsed.mpr ⟨lengths.within i used, used⟩
        exact here (List.mem_singleton.mp (single ▸ member))
    have member : s ∈ huffUsed len := by simp [single]
    rw [same]
    exact prefixLengths_single (mem_huffUsed.mp member).1
  · exact ((filling_iff lengths).mpr kraft).prefixLengths

/-- What the check of the counts leaves is the space that the codes so far have not taken. -/
theorem huffAvail_left {m b avail : Nat} (small : b ≤ m)
    (checked : huffAvail (huffCount len) b = some avail) :
    avail * 2 ^ (m - b) + taken huffSymbols len m (b + 1) = 2 ^ m := by
  -- One step of the check for one more length; the space halves with it.
  induction b generalizing avail with
  | zero =>
    obtain rfl := Option.some.inj checked
    rw [taken_succ]
    simp [taken, lengthCount]
  | succ b ih =>
    rw [huffAvail] at checked
    split at checked
    · cases checked
    rename_i before found
    -- The count for this length was not above the space left.
    split at checked
    · cases checked
    rename_i fits
    obtain rfl := Option.some.inj checked
    have rest := ih (Nat.le_of_succ_le small) found
    have step := taken_succ huffSymbols len m (b + 1)
    have half : 2 ^ (m - b) = 2 * 2 ^ (m - (b + 1)) := by
      rw [← Nat.pow_succ', ← Nat.succ_sub small, Nat.succ_sub_succ]
    rw [half, ← Nat.mul_assoc] at rest
    have room := Nat.mul_le_mul_right (2 ^ (m - (b + 1))) (Nat.not_lt.mp fits)
    rw [Nat.sub_mul]
    change _ - lengthCount huffSymbols len (b + 1) * _ + _ = _
    change lengthCount huffSymbols len (b + 1) * _ ≤ _ at room
    omega

/-- The longest length of a table, as the decoder finds it. -/
theorem huffMaxLen_longest (lengths : TableLengths len) :
    ∀ s, len s ≤ (List.range huffSymbols).foldl (fun m i => max m (len i)) 0 := by
  intro s
  -- A symbol without a code has length zero, below anything.
  by_cases used : len s = 0
  · rw [used]
    exact Nat.zero_le _
  · exact (foldl_max len huffSymbols).1 s (lengths.within s used)

/-- The checks of the decoder, on the number of symbols in use and the longest length. -/
theorem huffChecks_iff (lengths : TableLengths len) {maxLen : Nat} (longest : ∀ s, len s ≤ maxLen)
    (attained : maxLen = 0 ∨ ∃ i < huffSymbols, maxLen = len i) :
    ((huffUsed len).length ≠ 0 ∧ maxLen ≠ 0 ∧ ((huffUsed len).length = 1 → maxLen = 1) ∧
      ((huffUsed len).length ≠ 1 → huffAvail (huffCount len) maxLen = some 0)) ↔
        CompleteLengths len := by
  constructor
  · rintro ⟨some_used, some_len, one, complete⟩
    by_cases single : (huffUsed len).length = 1
    · -- The only symbol in use has the longest length.
      obtain ⟨s, listed⟩ := List.length_eq_one_iff.mp single
      obtain ⟨i, below, same⟩ := attained.resolve_left some_len
      have member : i ∈ huffUsed len := mem_huffUsed.mpr ⟨below, by omega⟩
      obtain rfl : i = s := List.mem_singleton.mp (listed ▸ member)
      exact .inl ⟨i, listed, same.symm.trans (one single)⟩
    · -- The check leaves nothing, so the codes take the whole space.
      have left := huffAvail_left (Nat.le_refl maxLen) (complete single)
      rw [Nat.zero_mul, Nat.zero_add] at left
      have scaled := taken_kraftSum (n := huffSymbols) longest
      rw [left] at scaled
      push_cast at scaled
      have positive : (2 : ℚ) ^ maxLen ≠ 0 := by positivity
      exact .inr ⟨by omega, (mul_eq_left₀ positive).mp scaled.symm⟩
  · rintro (⟨s, single, one⟩ | ⟨several, kraft⟩)
    · -- The checks ask for nothing else of a single symbol.
      -- A single code is one bit long, and every other length is zero.
      have top : maxLen = 1 := by
        have long := longest s
        rcases attained with none_used | ⟨i, below, same⟩
        · omega
        · by_cases other : i = s
          · rw [same, other, one]
          · have unused : len i = 0 := by
              by_contra used
              have member := mem_huffUsed.mpr ⟨below, used⟩
              exact other (List.mem_singleton.mp (single ▸ member))
            omega
      rw [single]
      exact ⟨by simp, by omega, fun _ => top, fun more => absurd rfl more⟩
    · have filling := (filling_iff lengths).mpr kraft
      obtain ⟨avail, found, rest⟩ := huffAvail_taken (filling.full maxLen longest)
        (Nat.le_refl maxLen)
      rw [filling.full maxLen longest, Nat.sub_self, Nat.pow_zero] at rest
      obtain rfl : avail = 0 := by omega
      refine ⟨by omega, fun zero => ?_, fun one => by omega, fun _ => found⟩
      -- No symbol at all would be in use.
      have unused : huffUsed len = [] := by
        rw [List.eq_nil_iff_forall_not_mem]
        exact fun s member => (mem_huffUsed.mp member).2 (Nat.le_zero.mp (zero ▸ longest s))
      rw [unused] at several
      exact absurd several (by decide)

end Tables

section Filling

variable {len : Nat → Nat}

/-- Every slot that is filled belongs to the symbol it names, of the length it names. -/
def TableSound (len : Nat → Nat) (k : Nat) (s : HuffFilling) : Prop :=
  ∀ f, s.len f ≠ 0 → s.sym f < k ∧ len (s.sym f) ≠ 0 ∧ s.len f = len (s.sym f) ∧
    Owns huffSymbols len (s.sym f) f

/-- Filling in one more symbol keeps the table sound. -/
theorem huffFillSymbol_sound (code : PrefixLengths len) (m : Nat) {k : Nat} {s : HuffFilling}
    (agrees : NextAgrees len k s.next) (sound : TableSound len k s) :
    TableSound len (k + 1) (huffFillSymbol len (2 ^ m) s k) := by
  -- A symbol without a code writes no slot.
  rw [huffFillSymbol]
  by_cases unused : len k = 0
  · simp only [if_pos unused]
    intro f filled
    obtain ⟨below, rest⟩ := sound f filled
    exact ⟨Nat.lt_succ_of_lt below, rest⟩
  · simp only [if_neg unused]
    -- The code the filler takes next is the canonical one, bits reversed.
    have rev : huffReverse (s.next (len k)) (len k) =
        reverseBits (canonicalCode huffSymbols len k) (len k) := by
      rw [huffReverse_eq _ (code.short k), agrees.code code]
    have short := reverseBits_lt (canonicalCode huffSymbols len k) (len k)
    intro f filled
    simp only [rev, huffFill_owned _ _ _ short] at filled ⊢
    -- A slot that the code owns is the symbol's now, and the others are as they were.
    by_cases mine : f < 2 ^ m ∧
        f % 2 ^ len k = reverseBits (canonicalCode huffSymbols len k) (len k)
    · simp only [if_pos mine] at filled ⊢
      exact ⟨Nat.lt_succ_self k, unused, trivial, mine.2⟩
    · simp only [if_neg mine] at filled ⊢
      obtain ⟨below, rest⟩ := sound f filled
      exact ⟨Nat.lt_succ_of_lt below, rest⟩

/-- The whole table is sound. -/
theorem huffFill_sound (code : PrefixLengths len) (m : Nat) :
    TableSound len huffSymbols ((List.range huffSymbols).foldl (huffFillSymbol len (2 ^ m))
      { next := huffNext (huffCount len), sym := fun _ => 0, len := fun _ => 0 }) := by
  -- Symbol by symbol: the next codes agree, and the slots filled so far are sound.
  have filled : ∀ k ≤ huffSymbols,
      NextAgrees len k ((List.range k).foldl (huffFillSymbol len (2 ^ m))
        { next := huffNext (huffCount len), sym := fun _ => 0, len := fun _ => 0 }).next ∧
      TableSound len k ((List.range k).foldl (huffFillSymbol len (2 ^ m))
        { next := huffNext (huffCount len), sym := fun _ => 0, len := fun _ => 0 }) := by
    intro k
    induction k with
    | zero => exact fun _ => ⟨nextAgrees_start code, fun f filled => (filled rfl).elim⟩
    | succ k ih =>
      intro below
      obtain ⟨agrees, sound⟩ := ih (Nat.le_of_succ_le below)
      rw [List.range_succ, List.foldl_append, List.foldl_cons, List.foldl_nil]
      exact ⟨huffFillSymbol_agrees code (2 ^ m) below agrees,
        huffFillSymbol_sound code m agrees sound⟩
  exact (filled huffSymbols (Nat.le_refl _)).2

end Filling

section Decoding

/-- A decoder for the codes of some lengths: a slot holds a symbol exactly when it begins with the
symbol's code. -/
structure HuffDec.Reads (d : HuffDec) (len : Nat → Nat) : Prop where
  longest : ∀ s, len s ≤ d.maxLen
  short : d.maxLen ≤ huffMaxBits
  finds : ∀ s, len s ≠ 0 → ∀ f < 2 ^ d.maxLen, Owns huffSymbols len s f →
    d.sym f = s ∧ d.len f = len s
  sound : ∀ f, d.len f ≠ 0 → len (d.sym f) ≠ 0 ∧ d.len f = len (d.sym f) ∧
    Owns huffSymbols len (d.sym f) f

/-- The decoder accepts exactly the complete tables, and then reads their canonical codes. -/
theorem huffLoad_complete {src : Bytes} (table : src.length = huffTableBytes) :
    ((huffLoad src).isSome ↔ CompleteLengths (huffTableLen src)) ∧
      ∀ d, huffLoad src = some d → d.Reads (huffTableLen src) := by
  have lengths := huffTableLen_lengths table
  have longest := huffMaxLen_longest lengths
  -- The three tests of the source are the completeness of the lengths.
  have checks := huffChecks_iff lengths longest (foldl_max (huffTableLen src) huffSymbols).2
  have sound := fun code : PrefixLengths (huffTableLen src) => huffFill_sound code
  have finds := fun code : PrefixLengths (huffTableLen src) => huffFill_table code longest
  have short : (List.range huffSymbols).foldl (fun m i => max m (huffTableLen src i)) 0 ≤
      huffMaxBits := by
    rcases (foldl_max (huffTableLen src) huffSymbols).2 with none_used | ⟨i, _, same⟩
    · rw [none_used]
      exact Nat.zero_le _
    · rw [same]
      exact lengths.short i
  rw [huffLoad]
  generalize (List.range huffSymbols).foldl (fun m i => max m (huffTableLen src i)) 0 = maxLen at *
  dsimp only
  have number : ((List.range huffSymbols).filter fun i => huffTableLen src i ≠ 0).length =
      (huffUsed (huffTableLen src)).length := rfl
  rw [number]
  -- A refused table is not complete, and there is no decoder to say anything about.
  have refuse (reason : ¬ CompleteLengths (huffTableLen src)) :
      ((none : Option HuffDec).isSome ↔ CompleteLengths (huffTableLen src)) ∧
        ∀ d : HuffDec, none = some d → d.Reads (huffTableLen src) :=
    ⟨⟨fun wrong => (by cases wrong), fun complete => (reason complete).elim⟩,
      fun _ wrong => by cases wrong⟩
  by_cases empty : (huffUsed (huffTableLen src)).length = 0 ∨ maxLen = 0 ∨ maxLen > huffMaxBits
  · rw [if_pos empty]
    refine refuse fun complete => ?_
    obtain ⟨some_used, some_len, _⟩ := checks.mpr complete
    omega
  rw [if_neg empty]
  by_cases long : (huffUsed (huffTableLen src)).length = 1 ∧ maxLen ≠ 1
  · rw [if_pos long]
    refine refuse fun complete => ?_
    exact long.2 ((checks.mpr complete).2.2.1 long.1)
  rw [if_neg long]
  by_cases unfilled : (huffUsed (huffTableLen src)).length ≠ 1 ∧
      huffAvail (huffCount (huffTableLen src)) maxLen ≠ some 0
  · rw [if_pos unfilled]
    refine refuse fun complete => ?_
    exact unfilled.2 ((checks.mpr complete).2.2.2 unfilled.1)
  rw [if_neg unfilled]
  -- All checks have passed, so the lengths are complete and the table is that of their codes.
  have complete := checks.mp ⟨by omega, by omega, fun one => by omega, fun more =>
    not_not.mp fun wrong => unfilled ⟨more, wrong⟩⟩
  have code := complete.prefixLengths lengths
  refine ⟨⟨fun _ => complete, fun _ => rfl⟩, fun d loaded => ?_⟩
  obtain rfl := Option.some.inj loaded
  refine ⟨longest, short, fun s used f inside owned => ?_, fun f filled =>
    (sound code maxLen f filled).2⟩
  exact finds code s (lengths.within s used) used f inside owned

/-- The decoder accepts the stored table, and its own codes are the encoder's. -/
-- The encoder's own lengths are complete, so its table is accepted.
theorem huffLoad_store {f : Nat → Nat} {e : HuffEnc} (canonical : e.Canonical f) :
    ∃ d, huffLoad (huffStore e) = some d ∧ d.Inverts e := by
  -- The stored lengths are complete, and the codes the decoder reads are the encoder's.
  have code := canonical.lengths
  obtain ⟨accepted, decoders⟩ := huffLoad_complete (huffStore_length e)
  rw [huffTableLen_store code] at accepted decoders
  have complete : CompleteLengths e.len := by
    rcases canonical.filled with single | ⟨several, filling⟩
    · exact .inl single
    · exact .inr ⟨several, (filling_iff ⟨code.within, code.short⟩).mp filling⟩
  obtain ⟨d, loaded⟩ := Option.isSome_iff_exists.mp (accepted.mpr complete)
  obtain ⟨longest, short, finds, _⟩ := decoders d loaded
  exact ⟨d, loaded, longest, short, fun s used f inside low =>
    finds s used f inside (low.trans (canonical.code s used))⟩

/-- The canonical code of a symbol, from its first bit on. -/
def huffCode (len : Nat → Nat) (s : Nat) : List Bool :=
  (List.range (len s)).reverse.map (canonicalCode huffSymbols len s).testBit

theorem huffCode_eq (len : Nat → Nat) (s : Nat) :
    huffCode len s = bitList (reverseBits (canonicalCode huffSymbols len s) (len s)) (len s) := by
  -- Bit by bit, the reversed code read from below is the code read from above.
  apply List.ext_getElem
  · simp only [huffCode, bitList, List.length_map, List.length_reverse, List.length_range]
  · intro k inside _
    simp only [huffCode, List.length_map, List.length_reverse, List.length_range] at inside
    simp only [huffCode, bitList, List.getElem_map, List.getElem_reverse, List.getElem_range,
      List.length_range]
    rw [reverseBits_testBit _ inside]

/-- A stream begins with a symbol's code when its lowest bits are the code's. -/
theorem huffCode_isPrefix {len : Nat → Nat} {s stream total : Nat} :
    huffCode len s <+: bitList stream total ↔ len s ≤ total ∧ Owns huffSymbols len s stream := by
  -- The code stands in the stream with its first bit lowest.
  rw [huffCode_eq, bitList_isPrefix (reverseBits_lt _ _), Owns]

/-- One call of the decoder: it returns the symbol whose code the stream begins with, and leaves
what comes behind it. -/
theorem HuffDec.Reads.decode {d : HuffDec} {len : Nat → Nat} (reads : d.Reads len) {r : BitReader}
    {stream total : Nat} (holds : r.Holds stream total) (s : Nat) :
    ((∃ r', huffDecode r d = some (s, r')) ↔
      len s ≠ 0 ∧ huffCode len s <+: bitList stream total) ∧
    ∀ r', huffDecode r d = some (s, r') → r'.Holds (stream / 2 ^ len s) (total - len s) := by
  -- Filling the reader changes what it holds ready, and not what it stands for.
  obtain ⟨filled, same, kept, seen⟩ := bitrFill_holds holds
  have width := kept.width
  rw [huffCode_isPrefix]
  -- A slot that names the symbol begins with its code, and so does the stream.
  have found {r' : BitReader} (decoded : huffDecode r d = some (s, r')) :
      len s ≠ 0 ∧ len s ≤ filled.nbits ∧ filled.acc % 2 ^ len s =
        reverseBits (canonicalCode huffSymbols len s) (len s) ∧
      r' = { filled with acc := filled.acc >>> len s, nbits := filled.nbits - len s } := by
    rw [huffDecode, same] at decoded
    split at decoded
    · cases decoded
    · rename_i few
      obtain ⟨rfl, rfl⟩ := Prod.mk.inj (Option.some.inj decoded)
      obtain ⟨used, length, owned⟩ := reads.sound (filled.acc % 2 ^ d.maxLen) (by omega)
      rw [Owns, Nat.mod_mod_of_dvd _ (Nat.pow_dvd_pow 2 (reads.longest _))] at owned
      rw [length] at few ⊢
      exact ⟨used, by omega, owned, rfl⟩
  refine ⟨⟨?_, ?_⟩, ?_⟩
  · -- The symbol decoded owns the slot, so its code stands at the front.
    rintro ⟨r', decoded⟩
    obtain ⟨used, inside, low, _⟩ := found decoded
    have enough : len s ≤ total := by omega
    have front := kept.front seen ((reads.longest s).trans reads.short) enough
    exact ⟨used, enough, front.2.symm.trans low⟩
  · -- A code at the front owns the slot of the next bits, which names its symbol.
    rintro ⟨used, enough, owned⟩
    obtain ⟨inside, front⟩ := kept.front seen ((reads.longest s).trans reads.short) enough
    have slot : Owns huffSymbols len s (filled.acc % 2 ^ d.maxLen) := by
      rw [Owns, Nat.mod_mod_of_dvd _ (Nat.pow_dvd_pow 2 (reads.longest s)), front]
      exact owned
    obtain ⟨symbol, length⟩ := reads.finds s used _ (Nat.mod_lt _ (Nat.two_pow_pos _)) slot
    refine ⟨{ filled with acc := filled.acc >>> len s, nbits := filled.nbits - len s }, ?_⟩
    rw [huffDecode, same]
    simp only [symbol, length]
    exact if_neg (by omega)
  · -- What is left is the stream behind the code.
    intro r' decoded
    obtain ⟨_, inside, _, rfl⟩ := found decoded
    exact kept.consume inside

/-- A sequence of successful calls of the decoder on a bit stream, from its beginning. -/
inductive HuffRun (d : HuffDec) (bytes : Bytes) : List Nat → BitReader → Prop
  | start : HuffRun d bytes [] (bitrInit bytes)
  | decode {syms : List Nat} {r r' : BitReader} {s : Nat} : HuffRun d bytes syms r →
      huffDecode r d = some (s, r') → HuffRun d bytes (syms ++ [s]) r'

/-- The reader holds what is behind the codes of the symbols decoded. -/
theorem HuffRun.holds {d : HuffDec} {len : Nat → Nat} (reads : d.Reads len) {bytes : Bytes}
    {syms : List Nat} {r : BitReader} (run : HuffRun d bytes syms r) :
    r.Holds (bitsOf bytes / 2 ^ (syms.map len).sum)
      (8 * bytes.length - (syms.map len).sum) := by
  -- Each call takes the length of its symbol off the stream.
  induction run with
  | start =>
    rw [List.map_nil, List.sum_nil, Nat.pow_zero, Nat.div_one, Nat.sub_zero]
    exact bitrInit_holds bytes
  | decode _ decoded ih =>
    have kept := (reads.decode ih _).2 _ decoded
    rw [Nat.div_div_eq_div_mul, ← Nat.pow_add, Nat.sub_sub] at kept
    rwa [List.map_append, List.sum_append, List.map_singleton, List.sum_singleton]

/--
The check of a stored table is exact, and its decoder is the prefix decoder.

A table is accepted exactly when it gives one symbol one bit, or several symbols lengths whose
Kraft sum is one. Each call then returns the one symbol whose canonical code the remaining bits
begin with, and fails only when there is none.
-/
theorem huffLoad_exact {src : Bytes} (table : src.length = huffTableBytes) :
    ((huffLoad src).isSome ↔ CompleteLengths (huffTableLen src)) ∧
    ∀ d, huffLoad src = some d → ∀ bytes syms r, HuffRun d bytes syms r →
      let rest := (bitList (bitsOf bytes) (8 * bytes.length)).drop
        (syms.map (huffTableLen src)).sum
      (∀ s s', huffTableLen src s ≠ 0 → huffTableLen src s' ≠ 0 →
        huffCode (huffTableLen src) s <+: rest → huffCode (huffTableLen src) s' <+: rest →
        s = s') ∧
      (∀ s r', huffDecode r d = some (s, r') →
        huffTableLen src s ≠ 0 ∧ huffCode (huffTableLen src) s <+: rest) ∧
      (huffDecode r d = none → ∀ s, huffTableLen src s ≠ 0 →
        ¬ huffCode (huffTableLen src) s <+: rest) := by
  obtain ⟨accepted, decoders⟩ := huffLoad_complete table
  refine ⟨accepted, fun d loaded bytes syms r run => ?_⟩
  dsimp only
  rw [bitList_drop]
  -- One call of the decoder, at the end of any run.
  have call := (decoders d loaded).decode (run.holds (decoders d loaded))
  refine ⟨fun s s' used used' first second => ?_, fun s r' decoded => ?_,
    fun failed s used here => ?_⟩
  · -- Two codes at the front would be two answers of one call.
    obtain ⟨r', decoded⟩ := (call s).1.mpr ⟨used, first⟩
    obtain ⟨r'', decoded'⟩ := (call s').1.mpr ⟨used', second⟩
    rw [decoded] at decoded'
    exact (Prod.mk.inj (Option.some.inj decoded')).1
  · exact (call s).1.mp ⟨r', decoded⟩
  · -- A failure leaves no code at the front, since a code would have been found.
    obtain ⟨r', decoded⟩ := (call s).1.mpr ⟨used, here⟩
    rw [failed] at decoded
    cases decoded

/-- A table of two symbols with one bit each. -/
theorem huffLoad_exact_pair :
    (huffLoad (0x11 :: List.replicate 127 0)).isSome ↔
      CompleteLengths (huffTableLen (0x11 :: List.replicate 127 0)) :=
  (huffLoad_exact (by decide +kernel)).1

end Decoding

end Xq
