import Xq.Codec.Table
import Xq.Proofs.Codec.LzbDecode

/-! Every codec of the table writes at most what its destination holds. -/

namespace Xq

/-- Whatever a codec is given, it writes no more than the capacity it is told. -/
def CodecVt.WithinCap (c : CodecVt) : Prop :=
  ∀ d cap src expectedLen ddict, (c.decompress d cap src expectedLen ddict).1.2.length ≤ cap

theorem storedVt_withinCap : storedVt.WithinCap := by
  -- The copy is made only when it fits.
  intro d cap src expectedLen ddict
  simp only [storedVt, storedDecompress]
  split
  · exact Nat.zero_le cap
  · split
    · exact Nat.zero_le cap
    · simp only
      omega

theorem lzbVt_withinCap : lzbVt.WithinCap :=
  fun _ cap src _ ddict => lzbDecompress_within cap src (ddict.bind Ddict.asLzb)

/-- The entropy stage hands its output to the lzb decoder, or writes nothing. -/
theorem lzeDecompress_within (d : LzeDctx) (cap : Nat) (src : Bytes) (ddict : Option LzbDdict) :
    (lzeDecompress d cap src ddict).1.2.length ≤ cap := by
  -- Every refusal on the way writes nothing.
  unfold lzeDecompress
  split
  · exact Nat.zero_le cap
  · rename_i mode inp
    split
    · exact lzbDecompress_within cap inp ddict
    split
    · exact Nat.zero_le cap
    split
    · exact Nat.zero_le cap
    split
    · exact Nat.zero_le cap
    split
    · exact Nat.zero_le cap
    split
    · exact Nat.zero_le cap
    dsimp only
    split
    · exact Nat.zero_le cap
    · rename_i mid _
      exact lzbDecompress_within cap mid ddict

theorem lzeVt_withinCap : lzeVt.WithinCap := by
  -- With any other context nothing is written.
  intro d cap src expectedLen ddict
  cases d with
  | lze d => exact lzeDecompress_within d cap src (ddict.bind Ddict.asLzb)
  | null => exact Nat.zero_le cap
  | zstd => exact Nat.zero_le cap

/-- With a well-behaved zstd, or none, every codec a file can name stays within its capacity. -/
theorem codecGet_withinCap {zstd : Option CodecVt} (external : ∀ c ∈ zstd, c.WithinCap) {id : UInt8}
    {c : CodecVt} (found : codecGet zstd id = some c) : c.WithinCap := by
  -- The table has three codecs of its own, and the external one if it is built in.
  have listed : c ∈ codecs zstd := List.mem_of_find?_eq_some found
  simp only [codecs, List.mem_append, List.mem_cons, List.not_mem_nil, or_false,
    Option.mem_toList] at listed
  rcases listed with (rfl | rfl | rfl) | listed
  · exact storedVt_withinCap
  · exact lzbVt_withinCap
  · exact lzeVt_withinCap
  · exact external c listed

end Xq
