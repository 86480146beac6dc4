import Xq.Codec.Lzb
import Xq.Lib.BackReference

/-! Laws of the lzb decoder: its copies are back references, and it stays within its buffer. -/

namespace Xq

open Lib

theorem copyBytes_eq_copyBack (dist n : Nat) (dst : Bytes) :
    copyBytes dist n dst = copyBack 0 dist n dst := by
  -- The induction is on the number of bytes.
  induction n generalizing dst with
  | zero => rfl
  | succ n ih => exact ih _

/-- A match copy is one back reference into the dictionary followed by the output. -/
theorem append_copyMatch {dict dst : Bytes} {dist : Nat} (reach : dist ≤ dst.length + dict.length)
    (mlen : Nat) : dict ++ copyMatch dict dst dist mlen = copyBack 0 dist mlen (dict ++ dst) := by
  by_cases before : dist > dst.length
  · -- The copy begins in the dictionary; what is left of it begins at the output's first byte.
    simp only [copyMatch, if_pos before, slice, copyBytes_eq_copyBack]
    by_cases crosses : dist - dst.length < mlen
    · simp only [if_pos crosses]
      have split : mlen = (dist - dst.length) + (mlen - (dist - dst.length)) := by omega
      have length : (dst ++ (dict.drop (dict.length - (dist - dst.length))).take
          (dist - dst.length)).length = dist := by
        simp only [List.length_append, List.length_take, List.length_drop]
        omega
      rw [length]
      conv_rhs => rw [split, copyBack_add, copyBack_front before (by omega) (by omega)]
      exact (copyBack_append (by rw [length]) _).symm
    · simp only [if_neg crosses, Nat.sub_self, copyBack]
      rw [copyBack_front before (by omega) (by omega)]
  · -- The copy begins in the output and stays there.
    simp only [copyMatch, if_neg before, copyBytes_eq_copyBack]
    rw [copyBack_append (by omega)]

/-- A match copy writes exactly as many bytes as it was asked for. -/
theorem length_copyMatch {dict dst : Bytes} {dist : Nat}
    (reach : dist ≤ dst.length + dict.length) (mlen : Nat) :
    (copyMatch dict dst dist mlen).length = dst.length + mlen := by
  -- Behind the dictionary the copy is one in the whole text.
  have whole := congrArg List.length (append_copyMatch reach mlen)
  simp only [List.length_append, length_copyBack] at whole
  omega

/-- The token loop never writes past the capacity, whatever it is given. -/
theorem lzbDecompressLoop_within {dict : Bytes} {cap fuel : Nat} {inp dst : Bytes}
    (within : dst.length ≤ cap) : (lzbDecompressLoop dict cap fuel inp dst).2.length ≤ cap := by
  -- The induction is on the fuel; every return leaves what has been written so far.
  induction fuel generalizing inp dst with
  | zero => exact within
  | succ fuel ih =>
    cases inp with
    | nil => exact within
    | cons token inp =>
      rw [lzbDecompressLoop]
      split
      · exact within
      · rename_i litlen inp _
        -- The literals are copied only when they fit.
        split; · exact within
        split; · exact within
        have literals : (dst ++ inp.take litlen).length ≤ cap := by
          simp only [List.length_append, List.length_take]
          omega
        dsimp only
        split; · exact literals
        split; · exact literals
        split; · exact literals
        split; · exact literals
        split; · exact literals
        split; · exact literals
        -- So is the match, and its copy has exactly the announced length.
        refine ih ?_
        rw [length_copyMatch (by omega)]
        omega

/-- Decompression never writes past the capacity of its destination. -/
theorem lzbDecompress_within (cap : Nat) (src : Bytes) (ddict : Option LzbDdict) :
    (lzbDecompress cap src ddict).2.length ≤ cap :=
  lzbDecompressLoop_within (Nat.zero_le cap)

end Xq
