import Xq.Proofs.Codec.LzeRoundTrip

/-! What a stream costs, sequence by sequence, and how much the repeats of a block can cost it. -/

namespace Xq

section Streams

/-- What a sequence takes beside its literals: the token, the length extensions, the distance. -/
def LzbSeq.overhead (s : LzbSeq) : Nat := 1 + s.litExt.length + s.match.length

/-- The bytes of a parse that are not literals: what its matches save. -/
def matchedBytes (plan : List LzbSeq) : Nat := (plan.map LzbSeq.mlen).sum

/-- What a parse takes beside its literals. -/
def planOverhead (plan : List LzbSeq) : Nat := (plan.map LzbSeq.overhead).sum

/-- The sequences the match finder chooses for a block; the destination has no part in them. -/
def chosenPlan (src : Bytes) (level : Int) (cdict : Option LzbCdict) : List LzbSeq :=
  lzbPlan { src := src, hlog := hlogFor src.length, d := cdict, depth := depthFor level } src.length
    { pos := 0, anchor := 0, dst := [], tables := { head := fun _ => 0, chain := fun _ => 0 } }

theorem LzbSeq.bytes_length (s : LzbSeq) : s.bytes.length = s.lits.length + s.overhead := by
  -- A token, the literals with their length, and the match with its own.
  simp only [LzbSeq.bytes, LzbSeq.overhead, List.length_append, List.length_singleton]
  omega

/-- A parse covers its block: what is not matched is written as literals. -/
theorem LzbParse.covers {dict src : Bytes} {anchor : Nat} {plan : List LzbSeq}
    (parse : LzbParse dict src anchor plan) (inside : anchor ≤ src.length) :
    (planBytes plan).length + matchedBytes plan + anchor = src.length + planOverhead plan := by
  -- By induction on the parse: each sequence covers its literals and its match.
  induction parse with
  | @last anchor _ =>
    have lits : (slice src anchor (src.length - anchor)).length = src.length - anchor :=
      slice_length (Nat.le_refl _)
    simp only [planBytes, matchedBytes, planOverhead, List.map_singleton, List.flatten_singleton,
      List.sum_singleton, LzbSeq.bytes_length, lits]
    omega
  | @step anchor pos dist m rest ahead long found next ih =>
    have reach := found.inside
    have tail := ih reach
    have lits : (slice src anchor (pos - anchor)).length = pos - anchor := slice_length (by omega)
    simp only [planBytes, matchedBytes, planOverhead, List.map_cons, List.flatten_cons,
      List.sum_cons, List.length_append, LzbSeq.bytes_length, lits] at tail ⊢
    omega

/-- The stream of a block is the block, plus what the parse costs, less what its matches save. -/
theorem lzbStream_length (src : Bytes) (level : Int) (cdict : Option LzbCdict) :
    (lzbStream src level cdict).length + matchedBytes (chosenPlan src level cdict) =
      src.length + planOverhead (chosenPlan src level cdict) := by
  -- The parse is that of the match finder, from the start of the block.
  have parse := lzbPlan_parse
    (s := { src := src, hlog := hlogFor src.length, d := cdict, depth := depthFor level })
    src.length (r := ⟨0, 0, { head := fun _ => 0, chain := fun _ => 0 }, []⟩) (Nat.le_refl 0)
    (Nat.zero_le _)
  exact parse.covers (Nat.zero_le _)

end Streams

section Growth

/-- The bytes that the extension of a literal length takes at most. -/
def litRoom (lits : Nat) : Nat :=
  if lits < 15 then 0 else if lits < 143 then 1 else if lits < 16399 then 2 else 10

/-- The bytes that the extension of a match length takes at most. -/
def matchRoom (mlen : Nat) : Nat := if mlen < 18 then 0 else if mlen < 146 then 1 else 10

/-- The literal length takes no more room than the literals are worth. -/
theorem LzbSeq.litExt_le (s : LzbSeq) : s.litExt.length ≤ litRoom s.lits.length := by
  rw [LzbSeq.litExt]
  split
  · next code =>
    have long : ¬ s.lits.length < 15 := by
      rw [LzbSeq.litcode] at code
      split at code <;> omega
    have value : (UInt64.ofNat (s.lits.length - 15)).toNat ≤ s.lits.length - 15 := by
      rw [UInt64.toNat_ofNat']
      exact Nat.mod_le _ _
    -- The extension has one group for each seven bits of the length beyond fifteen.
    rw [litRoom, if_neg long]
    split
    · exact varint_length_le 0 (by omega)
    split
    · exact varint_length_le 1 (by omega)
    · exact varint_length _
  · -- A short length stands in the token.
    exact Nat.zero_le _

/-- Nor does the match length take more than the match is worth. -/
theorem LzbSeq.matchExt_le (s : LzbSeq) : s.matchExt.length ≤ matchRoom s.mlen := by
  have least : lzbMinMatch = 4 := rfl
  rw [LzbSeq.matchExt]
  split
  · next code =>
    have long : ¬ s.mlen < 18 := by
      rw [LzbSeq.mcode] at code
      split at code
      · omega
      · split at code <;> omega
    have value : (UInt64.ofNat (s.mlen - lzbMinMatch - 14)).toNat ≤ s.mlen - 18 := by
      rw [UInt64.toNat_ofNat']
      exact (Nat.mod_le _ _).trans (by omega)
    -- The token holds lengths up to 17, and the extension counts on from there.
    rw [matchRoom, if_neg long]
    split
    · exact varint_length_le 0 (by omega)
    · exact varint_length _
  · exact Nat.zero_le _

/--
How much sequences can make a block grow, when a distance takes at most `width` bytes.

A sequence with a match grows the block by at most a byte in `rate` of the bytes it covers, and the
last sequence by as much, and a constant.
-/
structure GrowthRate (width rate final : Nat) : Prop where
  seq : ∀ s : LzbSeq, lzbMinMatch ≤ s.mlen → s.dist < 128 ^ width →
    rate * s.overhead ≤ rate * s.mlen + (s.lits.length + s.mlen)
  last : ∀ s : LzbSeq, s.mlen = 0 → rate * s.overhead ≤ s.lits.length + final

/-- A sequence with a match takes a token, the two extensions, and the groups of its distance. -/
theorem LzbSeq.overhead_le_width (s : LzbSeq) (w : Nat) (long : lzbMinMatch ≤ s.mlen)
    (near : s.dist < 128 ^ (w + 1)) :
    s.overhead ≤ 1 + s.litExt.length + (w + 1) + s.matchExt.length := by
  -- The distance is below `128 ^ (w + 1)`, so it has `w + 1` groups of seven bits at most.
  have least : lzbMinMatch = 4 := rfl
  have value : (UInt64.ofNat s.dist).toNat ≤ s.dist := by
    rw [UInt64.toNat_ofNat']
    exact Nat.mod_le _ _
  have groups := varint_length_le w (Nat.lt_of_le_of_lt value near)
  rw [LzbSeq.overhead, LzbSeq.match, if_pos (by omega), List.length_append]
  omega

/-- The last sequence takes a token and the literal length. -/
theorem LzbSeq.overhead_last {s : LzbSeq} (last : s.mlen = 0) :
    s.overhead = 1 + s.litExt.length := by
  -- The last sequence has no match behind its literals.
  rw [LzbSeq.overhead, LzbSeq.match, if_neg (not_not.mpr last), List.length_nil, Nat.add_zero]

/-- A rate is enough when it pays for the bytes each part of a sequence takes at most. -/
theorem GrowthRate.of_room {w rate final : Nat}
    (seq : ∀ lits mlen, 4 ≤ mlen →
      rate * (1 + litRoom lits + (w + 1) + matchRoom mlen) ≤ rate * mlen + (lits + mlen))
    (last : ∀ lits, rate * (1 + litRoom lits) ≤ lits + final) : GrowthRate (w + 1) rate final where
  seq s long near := by
    -- Token, literal length, distance and match length, each at its largest.
    have cost := s.overhead_le_width w long near
    have literals := s.litExt_le
    have extension := s.matchExt_le
    refine (Nat.mul_le_mul_left rate ?_).trans (seq s.lits.length s.mlen long)
    omega
  last s last_one := by
    have cost := LzbSeq.overhead_last last_one
    have literals := s.litExt_le
    refine (Nat.mul_le_mul_left rate ?_).trans (last s.lits.length)
    omega

/-- Distances of one byte: only the literal lengths of long runs cost more than is saved. -/
theorem growthRate_one : GrowthRate 1 255 622 := by
  -- The thresholds of the length codes are checked one by one.
  refine .of_room (fun lits mlen long => ?_) fun lits => ?_
  · rw [litRoom, matchRoom]
    split_ifs <;> omega
  · rw [litRoom]
    split_ifs <;> omega

/-- Distances of two bytes: a match of four bytes only loses behind 143 literals or more. -/
theorem growthRate_two : GrowthRate 2 147 298 := by
  refine .of_room (fun lits mlen long => ?_) fun lits => ?_
  · rw [litRoom, matchRoom]
    split_ifs <;> omega
  · rw [litRoom]
    split_ifs <;> omega

/-- Distances of three bytes: a match of four bytes loses behind 15 literals or more. -/
theorem growthRate_three : GrowthRate 3 19 23 := by
  refine .of_room (fun lits mlen long => ?_) fun lits => ?_
  · rw [litRoom, matchRoom]
    split_ifs <;> omega
  · rw [litRoom]
    split_ifs <;> omega

/-- Distances of four bytes: every match of four bytes loses a byte. -/
theorem growthRate_four : GrowthRate 4 4 4 := by
  refine .of_room (fun lits mlen long => ?_) fun lits => ?_
  · rw [litRoom, matchRoom]
    split_ifs <;> omega
  · rw [litRoom]
    split_ifs <;> omega

/-- Distances of five bytes: it loses two. -/
theorem growthRate_five : GrowthRate 5 2 2 := by
  refine .of_room (fun lits mlen long => ?_) fun lits => ?_
  · rw [litRoom, matchRoom]
    split_ifs <;> omega
  · rw [litRoom]
    split_ifs <;> omega

end Growth

section Repeats

/-- Every four bytes of a block that stand earlier, in the block or in the dictionary in front of
it, stand less than `reach` bytes back. -/
def RecursWithin (dict src : Bytes) (reach : Nat) : Prop :=
  ∀ pos dist, MatchAt dict src pos lzbMinMatch dist → dist < reach

/-- However a block is parsed, it grows by at most a 255th and `slack` bytes. -/
def GrowsWithin (dict src : Bytes) (slack : Nat) : Prop :=
  ∀ plan, LzbParse dict src 0 plan →
    planOverhead plan ≤ matchedBytes plan + src.length / 255 + slack

/-- A byte of the distance for each seven bits, and fewer of them the longer the block is. -/
def reachUpTo (five four three two n : Nat) : Nat :=
  if n ≤ five then 128 ^ 5
  else if n ≤ four then 128 ^ 4
  else if n ≤ three then 128 ^ 3
  else if n ≤ two then 128 ^ 2
  else 128

/-- How far back the repeats of a block of `n` bytes may stand for 32 bytes to be enough. -/
def lzbReach (n : Nat) : Nat := reachUpTo 63 127 641 10432 n

/-- How far back they may stand for the staging buffer of the lze codec, with 32 bytes more. -/
def lzeReach (n : Nat) : Nat := reachUpTo 127 259 1306 21604 n

/-- A longer match is one of four bytes. -/
theorem RecursWithin.near {dict src : Bytes} {reach pos m dist : Nat}
    (near : RecursWithin dict src reach) (long : lzbMinMatch ≤ m)
    (found : MatchAt dict src pos m dist) : dist < reach := by
  -- The first four bytes of the match recur as well.
  refine near pos dist ⟨found.back, found.reach, ?_, fun k within => found.agree k (by omega)⟩
  have inside := found.inside
  omega

/-- With repeats that are near enough, a parse grows no faster than its sequences do. -/
theorem LzbParse.growth {dict src : Bytes} {width rate final anchor : Nat} {plan : List LzbSeq}
    (rates : GrowthRate width rate final) (near : RecursWithin dict src (128 ^ width))
    (parse : LzbParse dict src anchor plan) :
    rate * planOverhead plan ≤ rate * matchedBytes plan + (src.length - anchor) + final := by
  -- The induction is on the parse; each sequence pays for the bytes it covers.
  induction parse with
  | @last anchor inside =>
    have cost := rates.last ⟨slice src anchor (src.length - anchor), 0, 0⟩ rfl
    have lits : (slice src anchor (src.length - anchor)).length = src.length - anchor :=
      slice_length (Nat.le_refl _)
    simp only [planOverhead, matchedBytes, List.map_singleton, List.sum_singleton, lits] at cost ⊢
    omega
  | @step anchor pos dist m rest ahead long found next ih =>
    have inside := found.inside
    have lits : (slice src anchor (pos - anchor)).length = pos - anchor := slice_length (by omega)
    have cost := rates.seq ⟨slice src anchor (pos - anchor), dist, m⟩ long (near.near long found)
    simp only [planOverhead, matchedBytes, List.map_cons, List.sum_cons, Nat.mul_add, lits]
      at ih cost ⊢
    omega

/-- Where each number of bytes that a distance may take pays for itself within the slack, so does
every parse of the block. -/
theorem RecursWithin.growsWithin {dict src : Bytes} {five four three two slack : Nat}
    (fives : ∀ n ≤ five, (n + 2) / 2 ≤ n / 255 + slack)
    (fours : ∀ n ≤ four, (n + 4) / 4 ≤ n / 255 + slack)
    (threes : ∀ n ≤ three, (n + 23) / 19 ≤ n / 255 + slack)
    (twos : ∀ n ≤ two, (n + 298) / 147 ≤ n / 255 + slack) (ones : 3 ≤ slack)
    (near : RecursWithin dict src (reachUpTo five four three two src.length)) :
    GrowsWithin dict src slack := by
  intro plan parse
  rw [reachUpTo] at near
  -- The reach is that of one growth rate; the block is short enough for it.
  split at near
  · have growth := parse.growth growthRate_five near
    have enough := fives src.length ‹_›
    omega
  split at near
  · have growth := parse.growth growthRate_four near
    have enough := fours src.length ‹_›
    omega
  split at near
  · have growth := parse.growth growthRate_three near
    have enough := threes src.length ‹_›
    omega
  split at near
  · have growth := parse.growth growthRate_two near
    have enough := twos src.length ‹_›
    omega
  · -- One byte is enough at every length.
    have growth := parse.growth growthRate_one near
    omega

/-- Repeats within the reach of the lzb bound. -/
theorem RecursWithin.lzb {dict src : Bytes} (near : RecursWithin dict src (lzbReach src.length)) :
    GrowsWithin dict src 32 :=
  near.growsWithin (by omega) (by omega) (by omega) (by omega) (by omega)

/-- Repeats within the reach of the lze codec's staging buffer. -/
theorem RecursWithin.lze {dict src : Bytes} (near : RecursWithin dict src (lzeReach src.length)) :
    GrowsWithin dict src 64 :=
  near.growsWithin (by omega) (by omega) (by omega) (by omega) (by omega)

end Repeats

end Xq
