import Xq.Proofs.Codec.LzbEmit
import Xq.Proofs.Codec.LzbMatch

/-! The lzb round trip: the main loop parses the block, and the decoder follows the parse. -/

namespace Xq

/-- The parse the main loop makes: its sequences, the last one being what remains as literals. -/
def lzbPlan (s : Searcher) : Nat → LzbRun → List LzbSeq
  | 0, r => [⟨slice s.src r.anchor (s.src.length - r.anchor), 0, 0⟩]
  | fuel + 1, r =>
    if r.pos + lzbMinMatch ≤ s.src.length then
      let (m, dist) := findMatch s r.tables r.pos
      if m = 0 then
        lzbPlan s fuel
          { r with tables := r.tables.insert s.src s.hlog r.pos, pos := r.pos + 1 }
      else
        let (r, m, dist) := lazyStep s r m dist
        ⟨slice s.src r.anchor (r.pos - r.anchor), dist, m⟩ ::
          lzbPlan s fuel
            { pos := r.pos + m, anchor := r.pos + m, dst := [],
              tables := insertSpan s m r.pos r.tables }
    else [⟨slice s.src r.anchor (s.src.length - r.anchor), 0, 0⟩]

/-- The bytes of a whole parse. -/
def planBytes (plan : List LzbSeq) : Bytes := (plan.map LzbSeq.bytes).flatten

/-- The lazy step leaves what has been written alone. -/
theorem lazyStep_keeps (s : Searcher) (r : LzbRun) (m dist : Nat) :
    (lazyStep s r m dist).1.dst = r.dst := by
  -- The step only looks for another match.
  rw [lazyStep]
  dsimp only
  split
  · split <;> rfl
  · rfl

/-- Nor does it read it. -/
theorem lazyStep_dst (s : Searcher) (r : LzbRun) (dst : Bytes) (m dist : Nat) :
    lazyStep s { r with dst := dst } m dist =
      ({ (lazyStep s r m dist).1 with dst := dst }, (lazyStep s r m dist).2) := by
  -- None of its tests looks at what has been written.
  rw [lazyStep, lazyStep]
  dsimp only
  split
  · split <;> rfl
  · rfl

/-- The parse does not depend on what has been written. -/
theorem lzbPlan_dst (s : Searcher) (fuel pos anchor : Nat) (tables : LzbTables)
    (dst dst' : Bytes) :
    lzbPlan s fuel ⟨pos, anchor, tables, dst⟩ = lzbPlan s fuel ⟨pos, anchor, tables, dst'⟩ := by
  -- The induction is on the fuel; each round passes the output on unread.
  induction fuel generalizing pos anchor tables dst dst' with
  | zero => rfl
  | succ fuel ih =>
    rw [lzbPlan, lzbPlan]
    dsimp only
    split
    · split
      · exact ih ..
      · rw [lazyStep_dst s ⟨pos, anchor, tables, dst'⟩ dst]
    · rfl

/-- The loop followed by the last sequence. -/
def lzbRest (s : Searcher) (cap : Nat) : Bool × LzbRun → Option Bytes
  | (false, _) => none
  | (true, r) => emitSeq cap r.dst (slice s.src r.anchor (s.src.length - r.anchor)) 0 0

/-- What the loop writes is the parse, when it fits. -/
theorem lzbRest_loop (s : Searcher) (cap fuel : Nat) (r : LzbRun) :
    lzbRest s cap (lzbLoop s cap fuel r) = fit cap (r.dst ++ planBytes (lzbPlan s fuel r)) := by
  -- At the end of the loop only the last literals are left.
  have finish (r : LzbRun) : lzbRest s cap (true, r) =
      fit cap (r.dst ++ planBytes [⟨slice s.src r.anchor (s.src.length - r.anchor), 0, 0⟩]) := by
    rw [planBytes, List.map_singleton, List.flatten_singleton]
    exact emitSeq_eq cap r.dst ⟨_, 0, 0⟩
  induction fuel generalizing r with
  | zero => exact finish r
  | succ fuel ih =>
    rw [lzbLoop, lzbPlan]
    by_cases room : r.pos + lzbMinMatch ≤ s.src.length
    · rw [if_pos room, if_pos room]
      dsimp only
      by_cases none : (findMatch s r.tables r.pos).1 = 0
      · -- No match: nothing is written in this round.
        rw [if_pos none, if_pos none]
        exact ih _
      · rw [if_neg none, if_neg none]
        -- A match: the lazy step settles it without writing.
        have same : (lazyStep s r (findMatch s r.tables r.pos).1
            (findMatch s r.tables r.pos).2).1.dst = r.dst := lazyStep_keeps s r _ _
        rw [← same]
        generalize lazyStep s r (findMatch s r.tables r.pos).1 (findMatch s r.tables r.pos).2 = step
        obtain ⟨next, m, dist⟩ := step
        dsimp only
        rw [emitSeq_eq cap next.dst ⟨_, dist, m⟩]
        generalize slice s.src next.anchor (next.pos - next.anchor) = lits
        rw [planBytes, List.map_cons, List.flatten_cons, ← List.append_assoc]
        -- The sequence fits, and the loop goes on behind it; or it does not, and nothing will.
        by_cases fits : (next.dst ++ LzbSeq.bytes ⟨lits, dist, m⟩).length ≤ cap
        · rw [fit, if_pos fits]
          dsimp only
          rw [ih, lzbPlan_dst s fuel _ _ _ _ []]
          rfl
        · rw [fit, if_neg fits, fit, if_neg (by rw [List.length_append]; omega)]
          rfl
    · rw [if_neg room, if_neg room]
      exact finish r

/-- A parse of a block from a position on: every sequence carries the literals up to its match,
the match is one, and the last sequence carries the rest of the block. -/
inductive LzbParse (dict src : Bytes) : Nat → List LzbSeq → Prop
  | last {anchor : Nat} (inside : anchor ≤ src.length) :
    LzbParse dict src anchor [⟨slice src anchor (src.length - anchor), 0, 0⟩]
  | step {anchor pos dist m : Nat} {rest : List LzbSeq} (ahead : anchor ≤ pos)
    (long : lzbMinMatch ≤ m) (found : MatchAt dict src pos m dist)
    (next : LzbParse dict src (pos + m) rest) :
    LzbParse dict src anchor (⟨slice src anchor (pos - anchor), dist, m⟩ :: rest)

/-- The main loop parses the block, for any contents of the tables. -/
theorem lzbPlan_parse {s : Searcher} (fuel : Nat) {r : LzbRun} (ahead : r.anchor ≤ r.pos)
    (inside : r.pos ≤ s.src.length) :
    LzbParse s.dict s.src r.anchor (lzbPlan s fuel r) := by
  -- The induction is on the fuel; the anchor is never ahead of the position, nor that of the end.
  induction fuel generalizing r with
  | zero => exact .last (Nat.le_trans ahead inside)
  | succ fuel ih =>
    rw [lzbPlan]
    have least : lzbMinMatch = 4 := rfl
    by_cases room : r.pos + lzbMinMatch ≤ s.src.length
    · rw [if_pos room]
      dsimp only
      by_cases none : (findMatch s r.tables r.pos).1 = 0
      · rw [if_pos none]
        -- The position moves on by one, and the anchor stays.
        have next := ih (r := { r with
          tables := r.tables.insert s.src s.hlog r.pos, pos := r.pos + 1 })
        exact next (Nat.le_succ_of_le ahead) (by show r.pos + 1 ≤ _; omega)
      · rw [if_neg none]
        -- The match found and settled for becomes a step of the parse.
        have reported := findMatch_found none
        have settled := lazyStep_found reported.1 reported.2
        revert settled
        generalize lazyStep s r (findMatch s r.tables r.pos).1 (findMatch s r.tables r.pos).2 = step
        obtain ⟨next, m, dist⟩ := step
        rintro ⟨anchor, later, long, found⟩
        dsimp only at anchor later long found ⊢
        rw [anchor]
        refine .step (Nat.le_trans ahead later) long found ?_
        have tail := ih
          (r := ⟨next.pos + m, next.pos + m, insertSpan s m next.pos next.tables, []⟩)
        exact tail (Nat.le_refl _) found.inside
    · rw [if_neg room]
      exact .last (Nat.le_trans ahead inside)

/-- Literals continue the part of the block written so far. -/
theorem take_append_slice {src : Bytes} {anchor pos : Nat} (ahead : anchor ≤ pos) :
    src.take anchor ++ slice src anchor (pos - anchor) = src.take pos := by
  -- The slice begins where the part written ends.
  rw [slice, ← List.take_add, Nat.add_sub_cancel' ahead]

theorem slice_length {src : Bytes} {anchor pos : Nat} (inside : pos ≤ src.length) :
    (slice src anchor (pos - anchor)).length = pos - anchor := by
  -- The slice ends within the block.
  rw [slice, List.length_take, List.length_drop]
  omega

/-- The decoder's copy of a match rebuilds the block up to the end of the match. -/
theorem copyMatch_matchAt {dict src : Bytes} {pos m dist : Nat}
    (found : MatchAt dict src pos m dist) :
    copyMatch dict (src.take pos) dist m = src.take (pos + m) := by
  -- The copy is compared with the text that dictionary and block make together.
  have inside := found.inside
  have reach := found.reach
  have length : (src.take pos).length = pos := by
    rw [List.length_take]
    omega
  have taken (n : Nat) : dict ++ src.take n = (dict ++ src).take (dict.length + n) := by
    rw [List.take_append]
    congr 1
    · rw [List.take_of_length_le (Nat.le_add_right _ _)]
    · rw [Nat.add_sub_cancel_left]
  -- Over the dictionary and the block as one text, the match says what the copy needs.
  have whole : dict ++ copyMatch dict (src.take pos) dist m = dict ++ src.take (pos + m) := by
    rw [append_copyMatch (by rw [length]; omega), taken, taken,
      Lib.copyBack_take found.back (by omega) (by rw [List.length_append]; omega), Nat.add_assoc]
    intro i within
    have agree := found.agree i within
    rw [← ld8_append_right dict src] at agree
    rw [ld8, ld8, Nat.add_assoc] at agree
    rw [Nat.add_assoc]
    exact agree
  exact List.append_cancel_left whole

/-- The decoder follows a parse to the end of the block. -/
theorem lzbDecompressLoop_parse {dict src : Bytes} {cap anchor fuel : Nat} {plan : List LzbSeq}
    (room : src.length ≤ cap) (small : src.length + dict.length < 2 ^ 64)
    (parse : LzbParse dict src anchor plan) (inside : anchor ≤ src.length)
    (enough : plan.length ≤ fuel) :
    lzbDecompressLoop dict cap fuel (planBytes plan) (src.take anchor) = (.ok, src) := by
  -- The induction follows the parse; the output is always the block up to the anchor.
  induction parse generalizing fuel with
  | @last anchor _ =>
    obtain ⟨fuel, rfl⟩ : ∃ n, fuel = n + 1 := ⟨fuel - 1, by
      rw [List.length_singleton] at enough
      omega⟩
    have rest : (slice src anchor (src.length - anchor)).length = src.length - anchor :=
      slice_length (Nat.le_refl _)
    have written : (src.take anchor).length = anchor := by
      rw [List.length_take]
      omega
    rw [planBytes, List.map_singleton, List.flatten_singleton,
      lzbDecompressLoop_last fuel rfl (by rw [rest]; omega) (by rw [rest, written]; omega),
      take_append_slice inside, List.take_length]
  | @step anchor pos dist m rest ahead long found _ ih =>
    -- A sequence takes the output to its position, and the copy past its match.
    obtain ⟨fuel, rfl⟩ : ∃ n, fuel = n + 1 := ⟨fuel - 1, by
      rw [List.length_cons] at enough
      omega⟩
    have bound := found.inside
    have reach := found.reach
    have literals : (slice src anchor (pos - anchor)).length = pos - anchor :=
      slice_length (by omega)
    have upto : src.take anchor ++ slice src anchor (pos - anchor) = src.take pos :=
      take_append_slice ahead
    have written : (src.take pos).length = pos := by
      rw [List.length_take]
      omega
    have seq := lzbDecompressLoop_seq ⟨slice src anchor (pos - anchor), dist, m⟩ dict
      (src.take anchor) cap fuel (planBytes rest) long
      (by show m < _; omega) (by rw [literals]; omega) found.back (by show dist < _; omega)
      (by rw [upto, written]; exact reach) (by rw [upto, written]; show pos + m ≤ cap; omega)
    rw [planBytes, List.map_cons, List.flatten_cons, ← planBytes, seq, upto]
    dsimp only
    rw [copyMatch_matchAt found]
    exact ih bound (Nat.le_of_succ_le_succ enough)

end Xq
