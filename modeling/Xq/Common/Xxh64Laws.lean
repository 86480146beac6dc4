import Xq.Common.Xxh64
import Xq.Lib.Blocks

/-! Streaming XXH64: the lanes have seen the whole stripes of the pieces so far, and the buffer
holds what these leave over. -/

namespace Xq

open Lib

theorem ld64le_take {p : Bytes} {n i : Nat} (within : i + 8 ≤ n) :
    ld64le (p.take n) i = ld64le p i := by
  -- Each of the eight bytes lies in the part that is taken.
  rw [ld64le, ld64le, ld32le, ld32le, ld32le, ld32le, ld8_take (by omega), ld8_take (by omega),
    ld8_take (by omega), ld8_take (by omega), ld8_take (by omega), ld8_take (by omega),
    ld8_take (by omega), ld8_take (by omega)]

/-- A stripe is the first thirty-two bytes. -/
theorem Xxh64Lanes.stripe_take (v : Xxh64Lanes) (p : Bytes) :
    v.stripe (p.take 32) = v.stripe p := by
  -- The four loads of a stripe end at its thirty-second byte.
  rw [stripe, stripe, ld64le_take (by omega), ld64le_take (by omega), ld64le_take (by omega),
    ld64le_take (by omega)]

/-- The bulk loop takes the full stripes one after another. -/
theorem Xxh64Lanes.stripes_blocks (v : Xxh64Lanes) (p : Bytes) :
    v.stripes (p.length / 32) p = (fullBlocks 32 p).foldl Xxh64Lanes.stripe v := by
  have rounds (n i : Nat) (v : Xxh64Lanes) :
      v.stripes n (p.drop (i * 32)) =
        ((List.range' i n).map fun i => (p.drop (i * 32)).take 32).foldl Xxh64Lanes.stripe v := by
    -- The induction is on the rounds; each of them moves on by one stripe.
    induction n generalizing i v with
    | zero => rfl
    | succ n ih =>
      rw [List.range'_succ, List.map_cons, List.foldl_cons, stripes, stripe_take, List.drop_drop,
        ← ih (i + 1), Nat.add_mul, Nat.one_mul]
  have start := rounds (p.length / 32) 0 v
  rw [Nat.zero_mul, List.drop_zero] at start
  rw [start, fullBlocks, List.range_eq_range']

/-- The state after the pieces of `xs`, however they were cut. -/
structure Xxh64State.Absorbed (s : Xxh64State) (seed : UInt64) (xs : Bytes) : Prop where
  lanes : s.lanes = (fullBlocks 32 xs).foldl Xxh64Lanes.stripe (Xxh64Lanes.init seed)
  total : s.total = UInt64.ofNat xs.length
  seed : s.seed = seed
  buf : s.buf = leftover 32 xs

theorem xxh64Init_absorbed (seed : UInt64) : (xxh64Init seed).Absorbed seed [] where
  lanes := by rw [fullBlocks_nil]; rfl
  total := rfl
  seed := rfl
  buf := leftover_nil.symm

/-- The bulk and remainder sections, behind whole stripes. -/
theorem xxh64Absorb_absorbed {s : Xxh64State} {seed : UInt64} {xs : Bytes} (data : Bytes)
    (lanes : s.lanes = (fullBlocks 32 xs).foldl Xxh64Lanes.stripe (Xxh64Lanes.init seed))
    (aligned : leftover 32 xs = []) (same : s.seed = seed)
    (total : s.total = UInt64.ofNat (xs ++ data).length) :
    (xxh64Absorb s data).Absorbed seed (xs ++ data) := by
  -- Behind whole stripes, the stripes of the new data are the next ones of the stream.
  obtain ⟨blocks, left⟩ := blocks_aligned xs aligned data
  refine ⟨?_, total, same, ?_⟩
  · rw [blocks, List.foldl_append, ← lanes, ← Xxh64Lanes.stripes_blocks]
    rfl
  · rw [left, leftover, Nat.mul_comm]
    rfl

/-- One more piece: it tops up the pending stripe, runs through the bulk loop and leaves its
remainder. -/
theorem xxh64Update_absorbed {s : Xxh64State} {seed : UInt64} {xs : Bytes}
    (absorbed : s.Absorbed seed xs) (data : Bytes) :
    (xxh64Update s data).Absorbed seed (xs ++ data) := by
  have total : s.total + UInt64.ofNat data.length = UInt64.ofNat (xs ++ data).length := by
    rw [absorbed.total, List.length_append, UInt64.ofNat_add]
  have short : (leftover 32 xs).length < 32 := leftover_short xs (by decide)
  rw [← absorbed.buf] at short
  rw [xxh64Update]
  dsimp only
  by_cases pending : s.buf = []
  · -- No stripe is pending, and the piece goes straight to the bulk loop.
    rw [if_pos pending]
    exact xxh64Absorb_absorbed data absorbed.lanes (absorbed.buf ▸ pending) absorbed.seed total
  rw [if_neg pending]
  -- Otherwise the front of the piece tops up the pending stripe.
  generalize taken : min data.length (32 - s.buf.length) = take
  have length : (s.buf ++ data.take take).length = s.buf.length + take := by
    rw [List.length_append, List.length_take]
    omega
  by_cases partly : (s.buf ++ data.take take).length < 32
  · -- The piece ends within the pending stripe.
    have all : data.take take = data := List.take_of_length_le (by omega)
    rw [length] at partly
    rw [if_pos (by omega), all]
    have stays : (leftover 32 xs).length + data.length < 32 := by
      rw [← absorbed.buf]
      omega
    obtain ⟨blocks, left⟩ := blocks_short xs stays
    exact ⟨by rw [blocks]; exact absorbed.lanes, total, absorbed.seed,
      by rw [left, ← absorbed.buf]⟩
  · -- The stripe is completed, and the rest of the piece follows it.
    rw [if_neg partly]
    rw [length] at partly
    have fills : (leftover 32 xs).length + (data.take take).length = 32 := by
      rw [← absorbed.buf, List.length_take]
      omega
    obtain ⟨blocks, left⟩ := blocks_filled xs (by decide) fills
    have whole : xs ++ data = xs ++ data.take take ++ data.drop take := by
      rw [List.append_assoc, List.take_append_drop]
    rw [whole]
    refine xxh64Absorb_absorbed (data.drop take) ?_ left absorbed.seed (whole ▸ total)
    rw [blocks, List.foldl_append, ← absorbed.lanes, ← absorbed.buf]
    rfl

theorem xxh64_pieces_absorbed {s : Xxh64State} {seed : UInt64} {xs : Bytes}
    (absorbed : s.Absorbed seed xs) (pieces : List Bytes) :
    (pieces.foldl xxh64Update s).Absorbed seed (xs ++ pieces.flatten) := by
  -- Piece by piece, what has been absorbed grows.
  induction pieces generalizing s xs with
  | nil => rwa [List.flatten_nil, List.append_nil]
  | cons piece rest ih =>
    rw [List.foldl_cons, List.flatten_cons, ← List.append_assoc]
    exact ih (xxh64Update_absorbed absorbed piece)

/-- The digest of a state is the one of all it has seen. -/
theorem Xxh64State.Absorbed.final {s : Xxh64State} {seed : UInt64} {xs : Bytes}
    (absorbed : s.Absorbed seed xs) (short : xs.length < 2 ^ 64) :
    xxh64Final s = xxh64 xs seed := by
  -- The digest reads the total only to tell short inputs, and the total does not wrap here.
  obtain ⟨lanes, total, same, buf⟩ := absorbed
  have size : s.total ≥ 32 ↔ xs.length ≥ 32 := by
    rw [ge_iff_le, UInt64.le_iff_toNat_le, total, UInt64.toNat_ofNat_of_lt' short]
    rfl
  rw [xxh64Final, xxh64, Xxh64Lanes.stripes_blocks, ← lanes, same, buf, leftover, Nat.mul_comm 32,
    if_congr size rfl rfl, total]

/-- The pieces of a string, however it is cut, have the checksum of the whole. -/
theorem xxh64_streaming (seed : UInt64) (pieces : List Bytes)
    (short : pieces.flatten.length < 2 ^ 64) :
    xxh64Final (pieces.foldl xxh64Update (xxh64Init seed)) = xxh64 pieces.flatten seed := by
  -- The state after all pieces has absorbed the whole string, and the digest is read off it.
  have absorbed := xxh64_pieces_absorbed (xxh64Init_absorbed seed) pieces
  rw [List.nil_append] at absorbed
  obtain ⟨lanes, total, same, buf⟩ := absorbed
  generalize pieces.foldl xxh64Update (xxh64Init seed) = s at lanes total same buf
  generalize pieces.flatten = xs at short lanes total buf
  -- The count of bytes does not wrap below 2^64.
  have size : 32 ≤ s.total ↔ 32 ≤ xs.length := by
    rw [UInt64.le_iff_toNat_le, total, UInt64.toNat_ofNat_of_lt' short]
    rfl
  rw [xxh64Final, xxh64, Xxh64Lanes.stripes_blocks, ← lanes, total, same, buf, leftover,
    Nat.mul_comm 32]
  congr 3
  by_cases large : 32 ≤ xs.length
  · rw [if_pos (total ▸ size.mpr large), if_pos large]
  · rw [if_neg (total ▸ fun small => large (size.mp small)), if_neg large]

/-- Three pieces, an empty one among them, that end within the second stripe. -/
theorem xxh64_streaming_three :
    xxh64Final ([[1, 2, 3], [], List.replicate 40 7].foldl xxh64Update (xxh64Init 0)) =
      xxh64 [[1, 2, 3], [], List.replicate 40 7].flatten 0 :=
  xxh64_streaming 0 [[1, 2, 3], [], List.replicate 40 7] (by decide)

end Xq
