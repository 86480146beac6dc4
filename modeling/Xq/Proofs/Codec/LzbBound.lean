import Xq.Proofs.Codec.LzbCost

/-! When the codecs' bounds cover what a stream costs. -/

namespace Xq

/-- A token, and three numbers at most. -/
theorem LzbSeq.overhead_le (s : LzbSeq) : s.overhead ≤ 31 := by
  -- Each of the three numbers takes ten bytes at most.
  have literals : s.litExt.length ≤ 10 := by
    rw [LzbSeq.litExt]
    split
    · exact varint_length _
    · exact Nat.zero_le _
  have extension : s.matchExt.length ≤ 10 := by
    rw [LzbSeq.matchExt]
    split
    · exact varint_length _
    · exact Nat.zero_le _
  have distance := varint_length (UInt64.ofNat s.dist)
  rw [LzbSeq.overhead, LzbSeq.match]
  split
  · rw [List.length_append]
    omega
  · rw [List.length_nil]
    omega

/-- Every sequence but the last matches four bytes or more, so there are not many of them. -/
theorem LzbParse.overhead {dict src : Bytes} {anchor : Nat} {plan : List LzbSeq}
    (parse : LzbParse dict src anchor plan) (inside : anchor ≤ src.length) :
    4 * planOverhead plan ≤ 31 * (src.length - anchor) + 124 := by
  -- By induction on the parse: a sequence costs at most 31 bytes, and moves on by four at least.
  induction parse with
  | @last anchor _ =>
    have cost := LzbSeq.overhead_le ⟨slice src anchor (src.length - anchor), 0, 0⟩
    rw [planOverhead, List.map_singleton, List.sum_singleton]
    omega
  | @step anchor pos dist m rest ahead long found next ih =>
    have reach := found.inside
    have least : lzbMinMatch = 4 := rfl
    have tail := ih reach
    have cost := LzbSeq.overhead_le ⟨slice src anchor (pos - anchor), dist, m⟩
    simp only [planOverhead, List.map_cons, List.sum_cons] at tail ⊢
    omega

/-- The context's allocator grants every request. -/
def LzbCctx.Granted (c : LzbCctx) : Prop := ∀ k, c.heap.grants k = true

/-- On an allocator that grants every request a context is prepared for any input. -/
theorem cctxPrepare_granted {c : LzbCctx} (granted : c.Granted) (n : Nat) :
    ∃ c', cctxPrepare c n = (true, c') ∧ c'.Granted := by
  -- Each half leaves the arrays as they are, or asks the allocator once.
  have head : ∃ c', cctxPrepareHead c n = (true, c') ∧ c'.Granted := by
    rw [cctxPrepareHead]
    split
    · rw [Heap.malloc, if_pos (granted _)]
      exact ⟨_, rfl, granted⟩
    · exact ⟨c, rfl, granted⟩
  obtain ⟨c₁, first, granted₁⟩ := head
  have chain : ∃ c', cctxPrepareChain c₁ n = (true, c') ∧ c'.Granted := by
    rw [cctxPrepareChain]
    split
    · rw [Heap.malloc, if_pos (granted₁ _)]
      exact ⟨_, rfl, granted₁⟩
    · exact ⟨c₁, rfl, granted₁⟩
  obtain ⟨c₂, second, granted₂⟩ := chain
  rw [cctxPrepare, first]
  dsimp only
  rw [second]
  exact ⟨_, rfl, granted₂⟩

/-- Compression on a granted context is the block's stream, or reports a full destination. -/
theorem lzbCompress_granted {c : LzbCctx} (granted : c.Granted) (cap : Nat) {src : Bytes}
    (level : Int) (cdict : Option LzbCdict) (some_input : src.length ≠ 0) :
    (lzbCompress c cap src level cdict).1 = lzbAnswer cap (lzbStream src level cdict) := by
  -- In such a context the preparation succeeds.
  obtain ⟨c', prepared, _⟩ := cctxPrepare_granted granted src.length
  exact lzbCompress_prepared some_input prepared

/-- The lzb codec never runs out of the destination its bound asks for. -/
def LzbBounded (src : Bytes) (level : Int) (cdict : Option LzbCdict) : Prop :=
  ∀ c : LzbCctx, (lzbCompress c (lzbBound src.length) src level cdict).1.1 ≠ .dstTooSmall

/-- The lze codec, on a fresh context, never runs out of the destination its bound asks for. -/
def LzeBounded (src : Bytes) (level : Int) (cdict : Option LzbCdict) : Prop :=
  ∀ heap, (lzeCompress (lzeCctxNew heap) (lzeBound src.length) src level cdict).1.1 ≠ .dstTooSmall

theorem lzbAnswer_full (cap : Nat) (stream : Bytes) :
    (lzbAnswer cap stream).1 = .dstTooSmall ↔ cap < stream.length := by
  -- The answer is the test itself.
  rw [lzbAnswer]
  by_cases fits : stream.length ≤ cap
  · rw [if_pos fits]
    exact ⟨fun wrong => (by cases wrong), fun full => absurd fits (Nat.not_le.mpr full)⟩
  · rw [if_neg fits]
    exact ⟨fun _ => Nat.not_le.mp fits, fun _ => rfl⟩

/-- The lzb bound covers a block exactly when the block's stream is within it. -/
theorem lzbBounded_iff_length {src : Bytes} {level : Int} {cdict : Option LzbCdict}
    (some_input : src.length ≠ 0) :
    LzbBounded src level cdict ↔ (lzbStream src level cdict).length ≤ lzbBound src.length := by
  constructor
  · intro bounded
    -- A granted context reports exactly what the stream needs.
    have fresh := bounded (lzbCctxNew grantingHeap)
    rw [lzbCompress_granted (fun _ => rfl) _ _ _ some_input] at fresh
    exact Nat.not_lt.mp fun full => fresh ((lzbAnswer_full _ _).mpr full)
  · intro fits c full
    rcases lzbCompress_cases c (lzbBound src.length) level cdict some_input with oom | answer
    · rw [oom] at full
      cases full
    · rw [answer, lzbAnswer_full] at full
      omega

/-- The header of the coded form always fits into the lze bound. -/
theorem lzeHuffman_bound {mid : Bytes} (enc : HuffEnc) {cap : Nat} (room : 139 ≤ cap) :
    lzeHuffman cap mid enc ≠ none := by
  -- A mode byte, a number of ten bytes and the table come to 139 at most.
  have short := varint_length (UInt64.ofNat mid.length)
  have put : putVarint cap [lzeModeHuff] (UInt64.ofNat mid.length) =
      some ([lzeModeHuff] ++ varint (UInt64.ofNat mid.length)) := by
    rw [putVarint_eq, if_pos (by simp; omega)]
  have table :
      ¬ ([lzeModeHuff] ++ varint (UInt64.ofNat mid.length)).length + huffTableBytes > cap := by
    have : huffTableBytes = 128 := rfl
    simp only [List.length_append, List.length_singleton]
    omega
  rw [lzeHuffman, if_neg (by omega), put]
  simp only [if_neg table]
  -- Behind the header the codes fit, or the raw form is preferred.
  split
  · exact Option.some_ne_none _
  · split <;> exact Option.some_ne_none _

/-- The entropy stage never runs out of a destination that holds the raw form and a header. -/
theorem lzeEntropy_bound {mid : Bytes} {cap : Nat} (room : 139 ≤ cap)
    (raw : mid.length + 1 ≤ cap) : (lzeEntropy cap mid).1 ≠ .dstTooSmall := by
  have plain : (lzeRaw cap mid).1 ≠ .dstTooSmall := by
    rw [lzeRaw, if_neg (by omega)]
    exact fun wrong => by cases wrong
  rw [lzeEntropy]
  split
  · -- No table is built, and the raw form is taken.
    exact plain
  next enc _ =>
    split
    next none_made => exact absurd none_made (lzeHuffman_bound enc room)
    -- The coded form fits.
    next => exact fun wrong => by cases wrong
    next => exact plain

/-- The lze bound covers a block exactly when the block's stream is within the staging buffer. -/
theorem lzeBounded_iff_length {src : Bytes} {level : Int} {cdict : Option LzbCdict}
    (some_input : src.length ≠ 0) :
    LzeBounded src level cdict ↔ (lzbStream src level cdict).length ≤ lzbBound src.length + 32 := by
  have table : huffTableBytes = 128 := rfl
  have need : ¬ (0 ≥ lzbBound src.length + 32) := by omega
  constructor
  · intro bounded
    have fresh := bounded grantingHeap
    -- On a granted context, the first thing that can fail is the staged compression.
    have staged : ((lzeCctxNew grantingHeap).reserve (lzbBound src.length + 32)) =
        (true, { lzb := lzbCctxNew grantingHeap, midCap := lzbBound src.length + 32
                 heap := { grantingHeap with next := 1 } }) := by
      rw [LzeCctx.reserve]
      exact if_neg need
    have granted := lzbCompress_granted
      (show (lzbCctxNew grantingHeap).Granted from fun _ => rfl) (lzbBound src.length + 32) level
      cdict some_input
    by_contra long
    rw [lzbAnswer, if_neg long] at granted
    refine fresh ?_
    rw [lzeCompress, if_neg some_input, staged]
    dsimp only
    generalize lzbCompress (lzbCctxNew grantingHeap) _ src level cdict = r at granted ⊢
    obtain ⟨r, lzb⟩ := r
    obtain rfl : r = (.dstTooSmall, []) := granted
    rfl
  · intro fits heap full
    rw [lzeCompress, if_neg some_input] at full
    split at full
    · cases full
    next c reserved =>
      -- A fresh context reserves just what this input asks for.
      have size : c.midCap = lzbBound src.length + 32 := by
        rw [LzeCctx.reserve] at reserved
        split at reserved
        next enough => exact absurd enough need
        next =>
          split at reserved
          · cases reserved
          · obtain rfl := (Prod.mk.inj reserved).2
            rfl
      have answers := lzbCompress_cases c.lzb c.midCap level cdict some_input
      rw [size, lzbAnswer, if_pos fits] at answers
      rw [size] at full
      generalize lzbCompress c.lzb (lzbBound src.length + 32) src level cdict = r at answers full
      obtain ⟨r, lzb⟩ := r
      rcases answers with oom | ok
      · obtain rfl : r = (.oom, []) := oom
        cases full
      · obtain rfl : r = (.ok, lzbStream src level cdict) := ok
        refine lzeEntropy_bound ?_ ?_ full
        · rw [lzeBound, lzbBound]
          omega
        · rw [lzeBound]
          omega

/-- Without input there is nothing to write. -/
theorem bounded_nil (level : Int) (cdict : Option LzbCdict) :
    LzbBounded [] level cdict ∧ LzeBounded [] level cdict :=
  ⟨fun _ => by simp [lzbCompress], fun _ => by simp [lzeCompress]⟩

/-- The bytes of a digest, or none. -/
def cdictBytes (cdict : Option LzbCdict) : Bytes := (cdict.map LzbCdict.data).getD []

/-- The sequences the match finder chooses are one of the parses of the block. -/
theorem GrowsWithin.chosen {src : Bytes} {cdict : Option LzbCdict} {slack : Nat}
    (grows : GrowsWithin (cdictBytes cdict) src slack) (level : Int) :
    planOverhead (chosenPlan src level cdict) ≤
      matchedBytes (chosenPlan src level cdict) + src.length / 255 + slack :=
  grows _ (lzbPlan_parse
    (s := { src := src, hlog := hlogFor src.length, d := cdict, depth := depthFor level })
    src.length (r := ⟨0, 0, { head := fun _ => 0, chain := fun _ => 0 }, []⟩) (Nat.le_refl 0)
    (Nat.zero_le _))

/-- The bounds cover a block exactly when what is chosen for it costs no more than they allow. -/
theorem bounded_iff_chosen (src : Bytes) (level : Int) (cdict : Option LzbCdict) :
    (LzbBounded src level cdict ↔
      planOverhead (chosenPlan src level cdict) ≤
        matchedBytes (chosenPlan src level cdict) + src.length / 255 + 32) ∧
    (LzeBounded src level cdict ↔
      planOverhead (chosenPlan src level cdict) ≤
        matchedBytes (chosenPlan src level cdict) + src.length / 255 + 64) := by
  -- Both bounds are compared with the length of the stream, which is known from its sequences.
  have length := lzbStream_length src level cdict
  by_cases empty : src.length = 0
  · -- The empty block is one token.
    obtain rfl := List.length_eq_zero_iff.mp empty
    obtain ⟨lzb, lze⟩ := bounded_nil level cdict
    have one : planOverhead (chosenPlan [] level cdict) = 1 := rfl
    rw [one]
    exact ⟨iff_of_true lzb (by omega), iff_of_true lze (by omega)⟩
  · rw [lzbBounded_iff_length empty, lzeBounded_iff_length empty, lzbBound]
    omega

/-- A block that no parse grows by more than 32 bytes is covered at every level. -/
theorem GrowsWithin.bounded {src : Bytes} {cdict : Option LzbCdict}
    (grows : GrowsWithin (cdictBytes cdict) src 32) (level : Int) :
    LzbBounded src level cdict ∧ LzeBounded src level cdict := by
  -- What no parse exceeds the chosen one does not exceed either.
  have chosen := grows.chosen level
  obtain ⟨lzb, lze⟩ := bounded_iff_chosen src level cdict
  exact ⟨lzb.mpr chosen, lze.mpr (by omega)⟩

/-- The staging buffer of the lze codec takes 32 bytes more. -/
theorem GrowsWithin.staged {src : Bytes} {cdict : Option LzbCdict}
    (grows : GrowsWithin (cdictBytes cdict) src 64) (level : Int) : LzeBounded src level cdict :=
  (bounded_iff_chosen src level cdict).2.mpr (grows.chosen level)

end Xq
