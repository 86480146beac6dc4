import Xq.Proofs.Codec.LzbHistory

/-! The block's own hash chains: they are strictly decreasing as long as no position is inserted
twice, and the lazy step inserts one twice whenever it keeps the first match. -/

namespace Xq

section Chains

/-- Positions are stored plus one. Every head is empty or holds one of the first `k` positions, and
each of these is followed by nothing or by a position strictly below it. -/
structure LzbTables.Decreasing (hlog k : Nat) (t : LzbTables) : Prop where
  head : ∀ h < 2 ^ hlog, (t.head h).toNat ≤ k
  chain : ∀ p < k, (t.chain p).toNat ≤ p

/-- The positions a search visits, from a candidate on. -/
def LzbTables.walk (t : LzbTables) : Nat → UInt32 → List Nat
  | 0, _ => []
  | tries + 1, cand =>
    if cand = 0 then [] else (cand.toNat - 1) :: t.walk tries (t.chain (cand.toNat - 1))

/-- A walk along such chains visits strictly decreasing positions. -/
theorem LzbTables.Decreasing.walk {hlog k : Nat} {t : LzbTables} (decreasing : t.Decreasing hlog k)
    (tries : Nat) {cand : UInt32} (within : cand.toNat ≤ k) :
    (t.walk tries cand).Pairwise (· > ·) ∧ ∀ p ∈ t.walk tries cand, p < cand.toNat := by
  -- By induction on the tries left, with the candidate below the positions visited.
  induction tries generalizing cand with
  | zero => exact ⟨.nil, List.forall_mem_nil _⟩
  | succ tries ih =>
    rw [LzbTables.walk]
    split
    · exact ⟨.nil, List.forall_mem_nil _⟩
    rename_i nonempty
    have positive : 0 < cand.toNat := by
      have := mt UInt32.toNat_inj.mp nonempty
      rw [UInt32.toNat_zero] at this
      omega
    -- The next candidate is stored plus one, and is at most the position just visited.
    have next := decreasing.chain (cand.toNat - 1) (by omega)
    obtain ⟨rest, below⟩ := ih (show (t.chain (cand.toNat - 1)).toNat ≤ k by omega)
    refine ⟨List.pairwise_cons.mpr ⟨fun p member => ?_, rest⟩,
      List.forall_mem_cons.mpr ⟨by omega, fun p member => ?_⟩⟩
    · have := below p member
      omega
    · have := below p member
      omega

/-- Inserting the next position keeps the chains decreasing. -/
theorem LzbTables.Decreasing.insert {hlog k : Nat} {t : LzbTables} (src : Bytes)
    (bucket : hash4 (read32 src k) hlog < 2 ^ hlog) (decreasing : t.Decreasing hlog k) :
    (t.insert src hlog k).Decreasing hlog (k + 1) where
  head h within := by
    simp only [LzbTables.insert, Function.update_apply]
    split
    · -- The new head is the position plus one, or less where it wraps.
      rw [UInt32.toNat_ofNat']
      exact Nat.mod_le _ _
    · exact Nat.le_succ_of_le (decreasing.head h within)
  chain p within := by
    simp only [LzbTables.insert, Function.update_apply]
    split
    · -- The new position points to the head that its bucket had.
      rename_i here
      rw [here]
      exact decreasing.head _ bucket
    · exact decreasing.chain p (by omega)

/-- Inserting the last position again keeps them so when its stored form does not reach it. -/
theorem LzbTables.Decreasing.insert_again {hlog k : Nat} {t : LzbTables} (src : Bytes)
    (bucket : (t.head (hash4 (read32 src k) hlog)).toNat ≤ k)
    (decreasing : t.Decreasing hlog (k + 1)) :
    (t.insert src hlog k).Decreasing hlog (k + 1) where
  head h within := by
    simp only [LzbTables.insert, Function.update_apply]
    split
    · rw [UInt32.toNat_ofNat']
      exact Nat.mod_le _ _
    · exact decreasing.head h within
  chain p within := by
    simp only [LzbTables.insert, Function.update_apply]
    split
    · -- Here the head is what the first insertion stored, hence the assumption on it.
      rename_i here
      rw [here]
      exact bucket
    · exact decreasing.chain p within

/-- Inserting a span keeps them so, as far as the span is inserted at all. -/
theorem LzbTables.Decreasing.insertSpan {s : Searcher} {n pos : Nat} {t : LzbTables}
    (sized : s.hlog = hlogFor n) (m : Nat)
    (decreasing : t.Decreasing s.hlog (min pos (s.src.length - 3))) :
    (Xq.insertSpan s m pos t).Decreasing s.hlog (min (pos + m) (s.src.length - 3)) := by
  -- By induction on the span; the source inserts a position only with four bytes in front of it.
  induction m generalizing pos t with
  | zero => exact decreasing
  | succ m ih =>
    rw [Xq.insertSpan]
    split
    · rename_i inside
      simp only [lzbMinMatch] at inside
      rw [Nat.min_eq_left (by omega)] at decreasing
      have next := decreasing.insert s.src (sized ▸ hash4_lt _ n)
      rw [show pos + 1 = min (pos + 1) (s.src.length - 3) by omega] at next
      have rest := ih next
      rwa [Nat.add_right_comm] at rest
    · -- The rest of the span is too near the end and is skipped.
      rename_i outside
      simp only [lzbMinMatch] at outside
      rw [Nat.min_eq_right (by omega)] at decreasing ⊢
      exact decreasing

/-- A position is at the head of its bucket as soon as it is inserted. -/
theorem LzbTables.insert_head (t : LzbTables) (src : Bytes) (hlog i : Nat) :
    (t.insert src hlog i).head (hash4 (read32 src i) hlog) = UInt32.ofNat (i + 1) := by
  -- Insertion writes the position into its bucket.
  simp [LzbTables.insert]

/-- Inserting a span leaves the successors of earlier positions alone. -/
theorem insertSpan_chain {s : Searcher} {m i p : Nat} (before : p < i) (t : LzbTables) :
    (insertSpan s m i t).chain p = t.chain p := by
  -- Each insertion writes the successor of its own position only.
  induction m generalizing i t with
  | zero => rfl
  | succ m ih =>
    rw [insertSpan]
    split
    · rw [ih (by omega), LzbTables.insert]
      exact Function.update_of_ne (by omega) _ _
    · rfl

end Chains

section Steps

/-- One round of the compression loop, or `none` when the loop ends here. -/
def lzbStep (s : Searcher) (cap : Nat) (r : LzbRun) : Option LzbRun :=
  if r.pos + lzbMinMatch ≤ s.src.length then
    let (m, dist) := findMatch s r.tables r.pos
    if m = 0 then
      some { r with tables := r.tables.insert s.src s.hlog r.pos, pos := r.pos + 1 }
    else
      let (r, m, dist) := lazyStep s r m dist
      (emitSeq cap r.dst (slice s.src r.anchor (r.pos - r.anchor)) dist m).map fun dst =>
        { pos := r.pos + m, anchor := r.pos + m, dst := dst,
          tables := insertSpan s m r.pos r.tables }
  else none

/-- The states at the head of the loop, from a first one on. -/
inductive LzbReached (s : Searcher) (cap : Nat) (start : LzbRun) : LzbRun → Prop
  | start : LzbReached s cap start start
  | step {r r' : LzbRun} : LzbReached s cap start r → lzbStep s cap r = some r' →
    LzbReached s cap start r'

/-- The loop goes through its rounds one after another. -/
theorem lzbLoop_step {s : Searcher} {cap fuel : Nat} {r r' : LzbRun}
    (step : lzbStep s cap r = some r') : lzbLoop s cap (fuel + 1) r = lzbLoop s cap fuel r' := by
  -- The step is the round's branch without its two returns.
  rw [lzbStep] at step
  rw [lzbLoop]
  split at step; swap; · cases step
  rename_i room
  rw [if_pos room]
  dsimp only at step ⊢
  split at step
  · -- No match: the position moves on by one.
    rename_i nothing
    cases step
    rw [if_pos nothing]
  · -- A match: the sequence is emitted.
    rename_i found
    rw [if_neg found]
    rcases lazy : lazyStep s r (findMatch s r.tables r.pos).1 (findMatch s r.tables r.pos).2 with
      ⟨next, m, dist⟩
    rw [lazy] at step
    dsimp only at step ⊢
    obtain ⟨dst, emitted, rfl⟩ := Option.map_eq_some_iff.mp step
    rw [emitted]

/-- Every state that is reached is one the loop goes through. -/
theorem LzbReached.loop {s : Searcher} {cap : Nat} {start r : LzbRun}
    (reached : LzbReached s cap start r) :
    ∃ rounds, ∀ fuel, lzbLoop s cap (fuel + rounds) start = lzbLoop s cap fuel r := by
  -- Each step reached is one more round.
  induction reached with
  | start => exact ⟨0, fun _ => rfl⟩
  | step _ step ih =>
    obtain ⟨rounds, before⟩ := ih
    refine ⟨rounds + 1, fun fuel => ?_⟩
    rw [← Nat.add_assoc, Nat.add_right_comm, before, lzbLoop_step step]

/-- The chains of a state: every inserted position is followed by nothing or by a position strictly
below it, and a search from any head visits strictly decreasing positions. -/
def LzbRun.ChainsDecrease (s : Searcher) (r : LzbRun) : Prop :=
  (∀ p < r.pos, p + lzbMinMatch ≤ s.src.length →
    r.tables.chain p = 0 ∨ (r.tables.chain p).toNat - 1 < p) ∧
    ∀ h < 2 ^ s.hlog, ∀ tries, (r.tables.walk tries (r.tables.head h)).Pairwise (· > ·)

/-- The branch that goes wrong: the lazy step indexes the position, the next one has no clearly
longer match, and the span that is inserted then starts with the same position. -/
def LzbRun.InsertsTwice (s : Searcher) (cap : Nat) (r : LzbRun) : Prop :=
  let found := findMatch s r.tables r.pos
  let next := findMatch s (r.tables.insert s.src s.hlog r.pos) (r.pos + 1)
  found.1 ≠ 0 ∧ r.pos + 1 + lzbMinMatch ≤ s.src.length ∧ next.1 ≤ found.1 + 1 ∧
    (emitSeq cap r.dst (slice s.src r.anchor (r.pos - r.anchor)) found.2 found.1).isSome ∧
    r.pos + 1 < 2 ^ 32

/-- What a search takes for its candidates makes its walk decrease. -/
theorem LzbTables.Decreasing.chainsDecrease {s : Searcher} {r : LzbRun}
    (decreasing : r.tables.Decreasing s.hlog (min r.pos (s.src.length - 3))) :
    r.ChainsDecrease s := by
  -- An entry is the next position plus one, so the empty entry is told from position zero.
  refine ⟨fun p within inside => ?_, fun h bucket tries =>
    (decreasing.walk tries (decreasing.head h bucket)).1⟩
  simp only [lzbMinMatch] at inside
  have below := decreasing.chain p (by omega)
  by_cases empty : r.tables.chain p = 0
  · exact .inl empty
  · have := mt UInt32.toNat_inj.mp empty
    rw [UInt32.toNat_zero] at this
    exact .inr (by omega)

/-- One round keeps the chains decreasing unless it inserts its position twice. -/
theorem LzbTables.Decreasing.round {s : Searcher} {cap n : Nat} {r r' : LzbRun}
    (sized : s.hlog = hlogFor n)
    (decreasing : r.tables.Decreasing s.hlog (min r.pos (s.src.length - 3)))
    (step : lzbStep s cap r = some r') (once : ¬ r.InsertsTwice s cap) :
    r'.tables.Decreasing s.hlog (min r'.pos (s.src.length - 3)) := by
  -- The three kinds of a round: no match, a match after the lazy probe, a match at the end.
  rw [lzbStep] at step
  split at step; swap; · cases step
  rename_i room
  simp only [lzbMinMatch] at room
  rw [Nat.min_eq_left (by omega)] at decreasing
  have bucket := sized ▸ hash4_lt (read32 s.src r.pos) n
  have inserted := decreasing.insert s.src bucket
  dsimp only at step
  split at step
  · -- No match: the position is inserted.
    cases step
    rwa [show r.pos + 1 = min (r.pos + 1) (s.src.length - 3) by omega] at inserted
  rename_i found
  by_cases ahead : r.pos + 1 + lzbMinMatch ≤ s.src.length
  · simp only [lazyStep, if_pos ahead] at step
    simp only [lzbMinMatch] at ahead
    split at step
    · -- The next position's match is taken, and the span starts behind this one.
      obtain ⟨dst, _, rfl⟩ := Option.map_eq_some_iff.mp step
      rw [show r.pos + 1 = min (r.pos + 1) (s.src.length - 3) by omega] at inserted
      exact inserted.insertSpan sized _
    · -- This position's match is kept, and the position is inserted once more.
      rename_i kept
      obtain ⟨dst, emitted, rfl⟩ := Option.map_eq_some_iff.mp step
      have wrapped : 2 ^ 32 ≤ r.pos + 1 := by
        by_contra small
        exact once ⟨found, ahead, Nat.not_lt.mp kept, by rw [emitted]; rfl, by omega⟩
      have short : ((r.tables.insert s.src s.hlog r.pos).head
          (hash4 (read32 s.src r.pos) s.hlog)).toNat ≤ r.pos := by
        rw [LzbTables.insert_head, UInt32.toNat_ofNat']
        omega
      have again := inserted.insert_again s.src short
      obtain ⟨m, length⟩ := Nat.exists_eq_succ_of_ne_zero found
      dsimp only
      rw [length, Xq.insertSpan, if_pos (by simp only [lzbMinMatch]; omega)]
      rw [show r.pos + 1 = min (r.pos + 1) (s.src.length - 3) by omega] at again
      have rest := again.insertSpan sized m
      rwa [Nat.add_right_comm] at rest
  · -- Near the end there is no probe, and the span is inserted once.
    simp only [lazyStep, if_neg ahead] at step
    simp only [lzbMinMatch] at ahead
    obtain ⟨dst, _, rfl⟩ := Option.map_eq_some_iff.mp step
    rw [show r.pos = min r.pos (s.src.length - 3) by omega] at decreasing
    exact decreasing.insertSpan sized _

/-- A round that inserts its position twice makes it its own successor. -/
theorem LzbRun.InsertsTwice.round {s : Searcher} {cap : Nat} {r : LzbRun}
    (twice : r.InsertsTwice s cap) :
    ∃ r', lzbStep s cap r = some r' ∧ ¬ r'.ChainsDecrease s := by
  -- The round is followed up to its second insertion, which reads the head the first one wrote.
  obtain ⟨found, ahead, kept, emits, small⟩ := twice
  obtain ⟨dst, emitted⟩ := Option.isSome_iff_exists.mp emits
  obtain ⟨m, length⟩ := Nat.exists_eq_succ_of_ne_zero found
  have room : r.pos + lzbMinMatch ≤ s.src.length := by omega
  have step : lzbStep s cap r = some
      { pos := r.pos + (findMatch s r.tables r.pos).1
        anchor := r.pos + (findMatch s r.tables r.pos).1, dst := dst
        tables := insertSpan s (findMatch s r.tables r.pos).1 r.pos
          (r.tables.insert s.src s.hlog r.pos) } := by
    rw [lzbStep, if_pos room]
    dsimp only
    rw [if_neg found]
    simp only [lazyStep, if_pos ahead, if_neg (Nat.not_lt.mpr kept)]
    rw [emitted, Option.map_some]
  refine ⟨_, step, fun decrease => ?_⟩
  have own := decrease.1 r.pos (by dsimp only; omega) room
  dsimp only at own
  -- The second insertion finds the first one at the head of the bucket.
  rw [length, insertSpan, if_pos room, insertSpan_chain (by omega), LzbTables.insert] at own
  dsimp only at own
  rw [Function.update_self, LzbTables.insert_head] at own
  have value : (UInt32.ofNat (r.pos + 1)).toNat = r.pos + 1 := by
    rw [UInt32.toNat_ofNat']
    omega
  rcases own with empty | below
  · rw [empty] at value
    cases value
  · omega

end Steps

section Runs

/-- The searcher and the first state of a compression on a prepared context. -/
def lzbSearcher (c : LzbCctx) (src : Bytes) (level : Int) (cdict : Option LzbCdict) : Searcher :=
  { src := src, hlog := c.hlog, d := cdict, depth := depthFor level }

def lzbStart (c : LzbCctx) : LzbRun := { pos := 0, anchor := 0, tables := c.tables, dst := [] }

/-- In a compression, whatever the context was used for before, the chains decrease in every state
of the loop exactly when no round inserts its position twice. -/
theorem lzbChains_decrease_iff {c c' : LzbCctx} {src : Bytes}
    (prepared : cctxPrepare c src.length = (true, c')) (level : Int) (cdict : Option LzbCdict)
    (cap : Nat) :
    (∀ r, LzbReached (lzbSearcher c' src level cdict) cap (lzbStart c') r →
        r.ChainsDecrease (lzbSearcher c' src level cdict)) ↔
      ∀ r, LzbReached (lzbSearcher c' src level cdict) cap (lzbStart c') r →
        ¬ r.InsertsTwice (lzbSearcher c' src level cdict) cap := by
  obtain ⟨sized, cleared⟩ := cctxPrepare_clears prepared
  constructor
  · -- A double insertion breaks the chains in the state behind it.
    intro decrease r reached twice
    obtain ⟨r', step, broken⟩ := twice.round
    exact broken (decrease r' (.step reached step))
  · -- Otherwise they decrease from the cleared tables on.
    intro once r reached
    refine LzbTables.Decreasing.chainsDecrease ?_
    induction reached with
    | start =>
      refine ⟨fun h within => ?_, fun p within => absurd within (by simp [lzbStart])⟩
      have empty : c'.tables.head h = 0 := cleared h (sized ▸ within)
      rw [lzbStart, empty]
      exact Nat.zero_le _
    | step before step ih => exact ih.round sized step (once _ before)

/-- A new context, prepared for a block of sixteen bytes. -/
def preparedCctx : LzbCctx :=
  (cctxPrepare (lzbCctxNew { grants := fun _ => true, junk := fun _ _ => 0, next := 0 }) 16).2

/-- For sixteen equal bytes the equivalence speaks of the chains of this context. -/
theorem lzbChains_decrease_iff_run :
    (∀ r, LzbReached (lzbSearcher preparedCctx (List.replicate 16 97) 1 none) 64
        (lzbStart preparedCctx) r →
      r.ChainsDecrease (lzbSearcher preparedCctx (List.replicate 16 97) 1 none)) ↔
      ∀ r, LzbReached (lzbSearcher preparedCctx (List.replicate 16 97) 1 none) 64
        (lzbStart preparedCctx) r →
        ¬ r.InsertsTwice (lzbSearcher preparedCctx (List.replicate 16 97) 1 none) 64 :=
  lzbChains_decrease_iff
    (c := lzbCctxNew { grants := fun _ => true, junk := fun _ _ => 0, next := 0 }) rfl 1 none 64

/-- The run over sixteen equal bytes finds a match at position one, inserts the position before the
lazy probe and again with the span, and leaves it as its own successor. -/
theorem lzbChains_loop :
    ¬ ∀ r, LzbReached (lzbSearcher preparedCctx (List.replicate 16 97) 1 none) 64
        (lzbStart preparedCctx) r →
      r.ChainsDecrease (lzbSearcher preparedCctx (List.replicate 16 97) 1 none) := by
  -- Two rounds: none at position zero, and the double insertion at position one.
  have run : ((lzbStep (lzbSearcher preparedCctx (List.replicate 16 97) 1 none) 64
      (lzbStart preparedCctx)).bind
        (lzbStep (lzbSearcher preparedCctx (List.replicate 16 97) 1 none) 64)).map
      (fun r => (r.pos, r.tables.chain 1)) = some (16, 2) := by decide +kernel
  obtain ⟨r, steps, ends⟩ := Option.map_eq_some_iff.mp run
  obtain ⟨first, step₁, step₂⟩ := Option.bind_eq_some_iff.mp steps
  obtain ⟨pos, chain⟩ := Prod.mk.inj ends
  intro decrease
  have own := (decrease r (.step (.step .start step₁) step₂)).1 1 (by rw [pos]; decide)
    (by decide)
  rw [chain] at own
  exact absurd own (by decide)

end Runs

end Xq
