import Xq.Proofs.Codec.LzbDecode
import Xq.Proofs.Codec.Varint

/-! One lzb sequence: what it is written as, when it fits, and that the decoder takes it back. -/

namespace Xq

/-- A buffer that respects a capacity, or nothing. -/
def fit (cap : Nat) (b : Bytes) : Option Bytes := if b.length ≤ cap then some b else none

theorem fit_append_nil {cap : Nat} {out : Bytes} (fits : out.length ≤ cap) :
    some out = fit cap (out ++ []) := by
  -- Appending nothing changes nothing.
  rw [List.append_nil, fit, if_pos fits]

/-- A stage that appends within the capacity carries a fitting buffer to a fitting buffer. -/
theorem fit_bind {cap : Nat} {dst add : Bytes} {stage : Bytes → Option Bytes}
    (appends : ∀ out : Bytes, out.length ≤ cap → stage out = fit cap (out ++ add)) :
    (fit cap dst).bind stage = fit cap (dst ++ add) := by
  by_cases fits : dst.length ≤ cap
  · rw [fit, if_pos fits, Option.bind_some, appends dst fits]
  · -- Once a buffer is too long, appending to it does not help.
    rw [fit, fit, if_neg fits, if_neg (by rw [List.length_append]; omega), Option.bind_none]

/-- One step of a parse: literals, and a match after them; a match of length zero is none. -/
structure LzbSeq where
  lits : Bytes
  dist : Nat
  mlen : Nat

/-- The low nibble of a token: zero without a match, else the length above the minimum, capped. -/
def LzbSeq.mcode (s : LzbSeq) : Nat :=
  if s.mlen = 0 then 0 else if s.mlen - lzbMinMatch < 14 then s.mlen - lzbMinMatch + 1 else 15

def LzbSeq.litcode (s : LzbSeq) : Nat := if s.lits.length < 15 then s.lits.length else 15

def LzbSeq.token (s : LzbSeq) : UInt8 := UInt8.ofNat (s.litcode <<< 4 ||| s.mcode)

def LzbSeq.litExt (s : LzbSeq) : Bytes :=
  if s.litcode = 15 then varint (UInt64.ofNat (s.lits.length - 15)) else []

def LzbSeq.matchExt (s : LzbSeq) : Bytes :=
  if s.mcode = 15 then varint (UInt64.ofNat (s.mlen - lzbMinMatch - 14)) else []

def LzbSeq.match (s : LzbSeq) : Bytes :=
  if s.mlen ≠ 0 then varint (UInt64.ofNat s.dist) ++ s.matchExt else []

/-- What a sequence is written as. -/
def LzbSeq.bytes (s : LzbSeq) : Bytes := [s.token] ++ s.litExt ++ s.lits ++ s.match

theorem LzbSeq.bytes_length_pos (s : LzbSeq) : 0 < s.bytes.length := by
  simp [LzbSeq.bytes]

/-- The token byte is refused exactly when the buffer is full. -/
theorem fit_singleton (cap : Nat) (dst : Bytes) (b : UInt8) :
    (if dst.length ≥ cap then none else some (dst ++ [b])) = fit cap (dst ++ [b]) := by
  -- One byte fits where the buffer has any room.
  rw [fit, List.length_append, List.length_singleton]
  by_cases full : dst.length ≥ cap
  · rw [if_pos full, if_neg (by omega)]
  · rw [if_neg full, if_pos (by omega)]

/-- The serialiser appends the bytes of its sequence when they fit, and refuses otherwise. -/
theorem emitSeq_eq (cap : Nat) (dst : Bytes) (s : LzbSeq) :
    emitSeq cap dst s.lits s.dist s.mlen = fit cap (dst ++ s.bytes) := by
  -- Each stage of the serialiser appends one part of the sequence.
  have litExt : ∀ out : Bytes, out.length ≤ cap →
      (if s.litcode = 15 then putVarint cap out (UInt64.ofNat (s.lits.length - 15)) else some out) =
        fit cap (out ++ s.litExt) := by
    intro out fits
    rw [LzbSeq.litExt]
    split
    · exact putVarint_eq cap out _
    · exact fit_append_nil fits
  have lits : ∀ out : Bytes, out.length ≤ cap →
      (if s.lits.length ≠ 0 then
        if out.length + s.lits.length > cap then none else some (out ++ s.lits)
      else some out) = fit cap (out ++ s.lits) := by
    intro out fits
    split
    · rw [fit, List.length_append]
      split
      · rw [if_neg (by omega)]
      · rw [if_pos (by omega)]
    · rename_i empty
      rw [List.length_eq_zero_iff.mp (not_not.mp empty)]
      exact fit_append_nil fits
  have matchExt : ∀ out : Bytes, out.length ≤ cap →
      (if s.mcode = 15 then putVarint cap out (UInt64.ofNat (s.mlen - lzbMinMatch - 14))
      else some out) = fit cap (out ++ s.matchExt) := by
    intro out fits
    rw [LzbSeq.matchExt]
    split
    · exact putVarint_eq cap out _
    · exact fit_append_nil fits
  have tail : ∀ out : Bytes, out.length ≤ cap →
      (if s.mlen ≠ 0 then
        (putVarint cap out (UInt64.ofNat s.dist)).bind fun out =>
        if s.mcode = 15 then putVarint cap out (UInt64.ofNat (s.mlen - lzbMinMatch - 14))
        else some out
      else some out) = fit cap (out ++ s.match) := by
    intro out fits
    rw [LzbSeq.match]
    split
    · rw [putVarint_eq, ← List.append_assoc]
      exact fit_bind matchExt
    · exact fit_append_nil fits
  -- The source's function is these stages in their order.
  have stages : emitSeq cap dst s.lits s.dist s.mlen =
      (fit cap (dst ++ [s.token])).bind fun out =>
      (if s.litcode = 15 then putVarint cap out (UInt64.ofNat (s.lits.length - 15))
      else some out).bind fun out =>
      (if s.lits.length ≠ 0 then
        if out.length + s.lits.length > cap then none else some (out ++ s.lits)
      else some out).bind fun out =>
      if s.mlen ≠ 0 then
        (putVarint cap out (UInt64.ofNat s.dist)).bind fun out =>
        if s.mcode = 15 then putVarint cap out (UInt64.ofNat (s.mlen - lzbMinMatch - 14))
        else some out
      else some out := by
    rw [← fit_singleton, emitSeq]
    by_cases full : dst.length ≥ cap
    · rw [if_pos full, if_pos full, Option.bind_none]
    · rw [if_neg full, if_neg full, Option.bind_some]
      rfl
  rw [stages, LzbSeq.bytes, List.append_assoc, List.append_assoc, ← List.append_assoc dst]
  refine fit_bind fun out fits => ?_
  rw [litExt out fits, ← List.append_assoc]
  refine fit_bind fun out fits => ?_
  rw [lits out fits, ← List.append_assoc]
  exact fit_bind tail

theorem LzbSeq.litcode_lt (s : LzbSeq) : s.litcode < 16 := by
  -- The code is at most fifteen.
  rw [LzbSeq.litcode]
  split <;> omega

theorem LzbSeq.mcode_lt (s : LzbSeq) : s.mcode < 16 := by
  -- The code is zero without a match, and at most fifteen with one.
  rw [LzbSeq.mcode]
  split
  · decide
  · split <;> omega

/-- The token's two nibbles are the two codes. -/
theorem LzbSeq.token_nibbles (s : LzbSeq) :
    (s.token >>> 4).toNat = s.litcode ∧ (s.token &&& 0x0F).toNat = s.mcode := by
  -- Both halves are below sixteen, and all pairs of such are checked.
  have nibbles : ∀ a < 16, ∀ b < 16, (UInt8.ofNat (a <<< 4 ||| b) >>> 4).toNat = a ∧
      (UInt8.ofNat (a <<< 4 ||| b) &&& 0x0F).toNat = b := by decide +kernel
  exact nibbles s.litcode s.litcode_lt s.mcode s.mcode_lt

/-- The literal length reads back. -/
theorem lzbLitLen_litExt {s : LzbSeq} (small : s.lits.length < 2 ^ 64) (rest : Bytes) :
    lzbLitLen s.litcode (s.litExt ++ rest) = some (s.lits.length, rest) := by
  by_cases short : s.lits.length < 15
  · -- A short length stands in the token.
    have code : s.litcode = s.lits.length := if_pos short
    rw [lzbLitLen, LzbSeq.litExt, code, if_neg (by omega), if_neg (by omega), List.nil_append]
  · -- A long one is continued behind it.
    have code : s.litcode = 15 := if_neg short
    have value : (UInt64.ofNat (s.lits.length - 15)).toNat = s.lits.length - 15 :=
      UInt64.toNat_ofNat_of_lt' (show _ < 2 ^ 64 by omega)
    rw [lzbLitLen, LzbSeq.litExt, if_pos code, if_pos code, getVarint_varint]
    simp only [value]
    rw [if_neg (by omega), Nat.add_sub_cancel' (by omega)]

/-- The match length reads back. -/
theorem lzbMatchLen_matchExt {s : LzbSeq} (long : lzbMinMatch ≤ s.mlen) (small : s.mlen < 2 ^ 64)
    (rest : Bytes) : lzbMatchLen s.mcode (s.matchExt ++ rest) = some (s.mlen, rest) := by
  -- As for the literals, with the least match subtracted.
  have least : lzbMinMatch = 4 := rfl
  have some_match : s.mlen ≠ 0 := by omega
  by_cases short : s.mlen - lzbMinMatch < 14
  · have code : s.mcode = s.mlen - lzbMinMatch + 1 := by
      rw [LzbSeq.mcode, if_neg some_match, if_pos short]
    rw [lzbMatchLen, LzbSeq.matchExt, code, if_neg (by omega), if_neg (by omega), List.nil_append,
      Nat.add_sub_cancel, Nat.sub_add_cancel long]
  · have code : s.mcode = 15 := by
      rw [LzbSeq.mcode, if_neg some_match, if_neg short]
    have value : (UInt64.ofNat (s.mlen - lzbMinMatch - 14)).toNat = s.mlen - lzbMinMatch - 14 :=
      UInt64.toNat_ofNat_of_lt' (show _ < 2 ^ 64 by omega)
    rw [lzbMatchLen, LzbSeq.matchExt, if_pos code, if_pos code, getVarint_varint]
    simp only [value, code]
    rw [if_neg (by omega)]
    congr 2
    omega

/-- The decoder on the last sequence: its literals, and the end. -/
theorem lzbDecompressLoop_last {s : LzbSeq} {dict dst : Bytes} {cap : Nat} (fuel : Nat)
    (last : s.mlen = 0) (small : s.lits.length < 2 ^ 64) (room : dst.length + s.lits.length ≤ cap) :
    lzbDecompressLoop dict cap (fuel + 1) s.bytes dst = (.ok, dst ++ s.lits) := by
  -- The input ends behind the literals, which is where the loop returns with success.
  have code : s.mcode = 0 := if_pos last
  have nibbles := s.token_nibbles
  have no_match : s.match = [] := if_neg (not_not.mpr last)
  have lens := lzbLitLen_litExt small s.lits
  have layout : s.bytes = s.token :: (s.litExt ++ s.lits) := by
    rw [LzbSeq.bytes, no_match, List.append_nil, List.append_assoc, List.singleton_append]
  rw [layout, lzbDecompressLoop, nibbles.1, nibbles.2, lens]
  simp only [code]
  rw [if_neg (by omega), if_neg (by omega), if_pos trivial, List.take_length]

/-- The decoder on a sequence with a match: its literals, the copy, and on to what follows. -/
theorem lzbDecompressLoop_seq (s : LzbSeq) (dict dst : Bytes) (cap fuel : Nat)
    (rest : Bytes) (long : lzbMinMatch ≤ s.mlen) (small : s.mlen < 2 ^ 64)
    (literals : s.lits.length < 2 ^ 64) (back : 1 ≤ s.dist) (near : s.dist < 2 ^ 64)
    (reach : s.dist ≤ (dst ++ s.lits).length + dict.length)
    (room : (dst ++ s.lits).length + s.mlen ≤ cap) :
    lzbDecompressLoop dict cap (fuel + 1) (s.bytes ++ rest) dst =
      lzbDecompressLoop dict cap fuel rest (copyMatch dict (dst ++ s.lits) s.dist s.mlen) := by
  have least : lzbMinMatch = 4 := rfl
  have some_match : s.mlen ≠ 0 := by omega
  have code : s.mcode ≠ 0 := by
    rw [LzbSeq.mcode, if_neg some_match]
    split <;> omega
  have nibbles := s.token_nibbles
  have length : (dst ++ s.lits).length = dst.length + s.lits.length := List.length_append
  have dist : (UInt64.ofNat s.dist).toNat = s.dist := UInt64.toNat_ofNat_of_lt' near
  have dist_ne : UInt64.ofNat s.dist ≠ 0 := by
    intro zero
    rw [zero] at dist
    have : (0 : UInt64).toNat = 0 := rfl
    omega
  have layout : s.bytes ++ rest =
      s.token :: (s.litExt ++ (s.lits ++ (varint (UInt64.ofNat s.dist) ++ (s.matchExt ++ rest)))) := by
    rw [LzbSeq.bytes, LzbSeq.match, if_pos some_match]
    simp only [List.append_assoc, List.cons_append, List.nil_append]
  -- Each field of the sequence is read back in turn, and no check refuses it.
  rw [layout, lzbDecompressLoop, nibbles.1, nibbles.2, lzbLitLen_litExt literals]
  simp only []
  rw [if_neg (by rw [List.length_append]; omega), if_neg (by omega), if_neg code,
    List.take_left, List.drop_left, getVarint_varint]
  simp only []
  rw [if_neg dist_ne, lzbMatchLen_matchExt long small]
  simp only [dist]
  rw [if_neg (by omega), if_neg (by omega)]

end Xq
