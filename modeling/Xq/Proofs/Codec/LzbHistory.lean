import Xq.Proofs.Codec.LzbRoundTrip

/-! Independence of history: what a context still holds from earlier calls is never looked at. -/

namespace Xq

/-- Two pairs of tables give a search at `k` the same view: the whole hash table, and the chain
behind `k`. -/
structure LzbTables.Agree (hlog k : Nat) (t t' : LzbTables) : Prop where
  head : ∀ h < 2 ^ hlog, t.head h = t'.head h
  chain : ∀ p < k, t.chain p = t'.chain p

theorem LzbTables.Agree.mono {hlog k n : Nat} {t t' : LzbTables} (agree : t.Agree hlog k t')
    (less : n ≤ k) : t.Agree hlog n t' :=
  ⟨agree.head, fun p within => agree.chain p (Nat.lt_of_lt_of_le within less)⟩

theorem hlogForFrom_bounds (n fuel h : Nat) :
    h ≤ hlogForFrom n fuel h ∧ hlogForFrom n fuel h ≤ h + fuel := by
  -- Each round of the loop adds one bit, and there are no more rounds than fuel.
  induction fuel generalizing h with
  | zero => exact ⟨Nat.le_refl h, Nat.le_refl h⟩
  | succ fuel ih =>
    rw [hlogForFrom]
    split
    · have := ih (h + 1)
      omega
    · omega

/-- A hash is an index into a table of the size it was made for. -/
theorem hash4_lt (v : UInt32) (n : Nat) : hash4 v (hlogFor n) < 2 ^ hlogFor n := by
  -- The shift leaves as many bits as the table's size has.
  have bounds : 12 ≤ hlogFor n ∧ hlogFor n ≤ 22 := hlogForFrom_bounds n 10 12
  have shift : (UInt32.ofNat (32 - hlogFor n)).toNat % 32 = 32 - hlogFor n := by
    rw [UInt32.toNat_ofNat']
    omega
  rw [hash4, UInt32.toNat_shiftRight, shift, Nat.shiftRight_eq_div_pow,
    Nat.div_lt_iff_lt_mul (Nat.two_pow_pos _), ← Nat.pow_add, Nat.add_sub_cancel' (by omega)]
  exact UInt32.toNat_lt _

/-- Indexing the next position extends the common view by that position. -/
theorem LzbTables.Agree.insert {hlog n i : Nat} {t t' : LzbTables} (sized : hlog = hlogFor n)
    (src : Bytes) (agree : t.Agree hlog i t') :
    (t.insert src hlog i).Agree hlog (i + 1) (t'.insert src hlog i) where
  head h within := by
    simp only [LzbTables.insert, Function.update_apply]
    rw [agree.head h within]
  chain p within := by
    subst sized
    simp only [LzbTables.insert, Function.update_apply]
    rw [agree.head _ (hash4_lt _ n)]
    -- The new position's entry is read off the heads, which agree.
    by_cases here : p = i
    · rw [if_pos here, if_pos here]
    · rw [if_neg here, if_neg here, agree.chain p (by omega)]

theorem LzbTables.Agree.insertSpan {s : Searcher} {n m pos : Nat} {t t' : LzbTables}
    (sized : s.hlog = hlogFor n) (agree : t.Agree s.hlog pos t')
    (room : pos + m + lzbMinMatch ≤ s.src.length + 1) :
    (insertSpan s m pos t).Agree s.hlog (pos + m) (insertSpan s m pos t') := by
  -- Inside the block every position of the span is inserted into both tables.
  induction m generalizing pos t t' with
  | zero => exact agree
  | succ m ih =>
    rw [Xq.insertSpan, Xq.insertSpan, if_pos (by omega), if_pos (by omega),
      ← Nat.add_assoc, Nat.add_right_comm]
    exact ih (agree.insert sized s.src) (by omega)

/-- The walk along the block's chain looks only behind the current position. -/
theorem findInBlock_agree {s : Searcher} {hlog pos limit : Nat} {t t' : LzbTables}
    (agree : t.Agree hlog pos t') (tries : Nat) (cand : UInt32) (best bestd : Nat) :
    findInBlock s t pos limit tries cand best bestd =
      findInBlock s t' pos limit tries cand best bestd := by
  induction tries generalizing cand best bestd with
  | zero => rfl
  | succ tries ih =>
    rw [findInBlock, findInBlock]
    -- A candidate at or beyond the position ends the walk before the chain is read.
    by_cases before : cand.toNat - 1 ≥ pos
    · rw [if_pos before, if_pos before]
    · rw [if_neg before, if_neg before, agree.chain _ (Nat.not_le.mp before)]
      simp only [ih]

/-- A search sees the common view and nothing else. -/
theorem findMatch_agree {s : Searcher} {n pos : Nat} {t t' : LzbTables}
    (sized : s.hlog = hlogFor n) (agree : t.Agree s.hlog pos t') :
    findMatch s t pos = findMatch s t' pos := by
  -- The search looks at the bucket of the position and follows the chain from there.
  have walk (limit : Nat) : walkChains s t pos limit = walkChains s t' pos limit := by
    have bucket := agree.head (hash4 (read32 s.src pos) s.hlog) (sized ▸ hash4_lt _ n)
    rw [walkChains, walkChains, findInBlock_agree agree, bucket]
  rw [findMatch_eq, findMatch_eq, walk]

/-- The lazy step keeps the common view, and decides the same way. -/
theorem lazyStep_agree {s : Searcher} {n pos : Nat} {t t' : LzbTables} (anchor m dist : Nat)
    (dst : Bytes) (sized : s.hlog = hlogFor n) (agree : t.Agree s.hlog pos t') :
    ∃ pos' u u' m' dist', u.Agree s.hlog pos' u' ∧
      lazyStep s ⟨pos, anchor, t, dst⟩ m dist = (⟨pos', anchor, u, dst⟩, m', dist') ∧
      lazyStep s ⟨pos, anchor, t', dst⟩ m dist = (⟨pos', anchor, u', dst⟩, m', dist') := by
  have next := agree.insert sized s.src
  rw [lazyStep, lazyStep]
  dsimp only
  by_cases room : pos + 1 + lzbMinMatch ≤ s.src.length
  · rw [if_pos room, if_pos room, findMatch_agree sized next]
    by_cases longer : (findMatch s (t'.insert s.src s.hlog pos) (pos + 1)).1 > m + 1
    · -- The next position's match is longer in both runs.
      rw [if_pos longer, if_pos longer]
      exact ⟨_, _, _, _, _, next, rfl, rfl⟩
    · -- It is not, and the next position has been indexed all the same.
      rw [if_neg longer, if_neg longer]
      exact ⟨_, _, _, _, _, next.mono (Nat.le_succ pos), rfl, rfl⟩
  · -- Near the end nothing is probed or indexed.
    rw [if_neg room, if_neg room]
    exact ⟨_, _, _, _, _, agree, rfl, rfl⟩

/-- The parse depends on the common view only. -/
theorem lzbPlan_agree {s : Searcher} {n : Nat} (sized : s.hlog = hlogFor n) (fuel : Nat)
    {pos anchor : Nat} {t t' : LzbTables} {dst : Bytes}
    (agree : pos + lzbMinMatch ≤ s.src.length → t.Agree s.hlog pos t') :
    lzbPlan s fuel ⟨pos, anchor, t, dst⟩ = lzbPlan s fuel ⟨pos, anchor, t', dst⟩ := by
  -- Near the end of the block the tables are no longer kept, and no longer read.
  induction fuel generalizing pos anchor t t' dst with
  | zero => rfl
  | succ fuel ih =>
    rw [lzbPlan, lzbPlan]
    dsimp only
    by_cases room : pos + lzbMinMatch ≤ s.src.length
    · have view := agree room
      rw [if_pos room, if_pos room, findMatch_agree sized view]
      by_cases none : (findMatch s t' pos).1 = 0
      · rw [if_pos none, if_pos none]
        exact ih fun _ => view.insert sized s.src
      · rw [if_neg none, if_neg none]
        obtain ⟨pos', u, u', m', dist', view', left, right⟩ := lazyStep_agree
          anchor (findMatch s t' pos).1 (findMatch s t' pos).2 dst sized view
        rw [left, right]
        dsimp only
        rw [ih fun more => view'.insertSpan sized (Nat.le_succ_of_le more)]
    · rw [if_neg room, if_neg room]

/-- What a block is compressed to, whatever the context: the parse over empty tables. -/
def lzbStream (src : Bytes) (level : Int) (cdict : Option LzbCdict) : Bytes :=
  let s : Searcher :=
    { src := src, hlog := hlogFor src.length, d := cdict, depth := depthFor level }
  planBytes (lzbPlan s src.length
    { pos := 0, anchor := 0, dst := []
      tables := { head := fun _ => 0, chain := fun _ => 0 } })

/-- A prepared hash table has the size the input wants. -/
theorem cctxPrepareHead_hlog {c c' : LzbCctx} {n : Nat}
    (prepared : cctxPrepareHead c n = (true, c')) : c'.hlog = hlogFor n := by
  -- The table is kept only where it has the right size already.
  rw [cctxPrepareHead] at prepared
  split at prepared
  · split at prepared
    · cases prepared
    · cases prepared
      rfl
  · rename_i kept
    cases prepared
    exact not_not.mp (not_or.mp kept).2

/-- The chain array is prepared without touching the hash table's size. -/
theorem cctxPrepareChain_hlog {c c' : LzbCctx} {n : Nat}
    (prepared : cctxPrepareChain c n = (true, c')) : c'.hlog = c.hlog := by
  -- Neither branch that succeeds touches it.
  rw [cctxPrepareChain] at prepared
  split at prepared
  · split at prepared
    · cases prepared
    · cases prepared
      rfl
  · cases prepared
    rfl

/-- A prepared context has a cleared hash table of the size the input wants. -/
theorem cctxPrepare_clears {c c' : LzbCctx} {n : Nat} (prepared : cctxPrepare c n = (true, c')) :
    c'.hlog = hlogFor n ∧ ∀ h < 2 ^ hlogFor n, c'.tables.head h = 0 := by
  -- Both halves have succeeded, and the source clears the heads after them.
  rw [cctxPrepare] at prepared
  split at prepared
  · cases prepared
  · rename_i c₁ head
    split at prepared
    · cases prepared
    · rename_i c₂ chain
      have hlog : c₂.hlog = hlogFor n := by
        rw [cctxPrepareChain_hlog chain, cctxPrepareHead_hlog head]
      obtain rfl := (Prod.mk.inj prepared).2
      refine ⟨hlog, fun h within => ?_⟩
      rw [LzbCctx.tables]
      dsimp only
      cases c₂.head with
      | none => rfl
      | some a =>
        show (if h < 2 ^ c₂.hlog then 0 else a.data h) = 0
        rw [if_pos (hlog ▸ within)]

/-- What compression answers with, once its context is prepared. -/
def lzbAnswer (cap : Nat) (stream : Bytes) : XqStatus × Bytes :=
  if stream.length ≤ cap then (.ok, stream) else (.dstTooSmall, [])

/-- On a prepared context, compression writes the block's stream when it fits. -/
theorem lzbCompress_prepared {c c' : LzbCctx} {cap : Nat} {src : Bytes} {level : Int}
    {cdict : Option LzbCdict} (some_input : src.length ≠ 0)
    (prepared : cctxPrepare c src.length = (true, c')) :
    (lzbCompress c cap src level cdict).1 = lzbAnswer cap (lzbStream src level cdict) := by
  obtain ⟨hlog, cleared⟩ := cctxPrepare_clears prepared
  rw [lzbCompress, if_neg some_input, prepared]
  dsimp only
  -- The tables of the context and the empty ones give the loop the same view at its start.
  have view : lzbStream src level cdict = planBytes (lzbPlan
      { src := src, hlog := c'.hlog, d := cdict, depth := depthFor level } src.length
      { pos := 0, anchor := 0, tables := c'.tables, dst := [] }) := by
    rw [lzbStream, hlog]
    refine congrArg planBytes (lzbPlan_agree rfl src.length fun _ => ⟨fun h within => ?_, ?_⟩)
    · exact (cleared h within).symm
    · exact fun p within => absurd within (Nat.not_lt_zero p)
  have rest := lzbRest_loop { src := src, hlog := c'.hlog, d := cdict, depth := depthFor level }
    cap src.length { pos := 0, anchor := 0, tables := c'.tables, dst := [] }
  rw [List.nil_append, ← view] at rest
  revert rest
  generalize lzbLoop _ cap src.length _ = out
  obtain ⟨done, r⟩ := out
  intro rest
  rw [lzbAnswer]
  cases done with
  | false =>
    -- The loop has given up, so the stream does not fit.
    have full : ¬ (lzbStream src level cdict).length ≤ cap := by
      intro fits
      rw [lzbRest, fit, if_pos fits] at rest
      cases rest
    rw [if_neg full]
  | true =>
    -- It has come to the end, and the last literals fit or they do not.
    rw [lzbRest] at rest
    dsimp only at rest ⊢
    rw [rest, fit]
    by_cases fits : (lzbStream src level cdict).length ≤ cap
    · rw [if_pos fits, if_pos fits]
    · rw [if_neg fits, if_neg fits]

/-- Compression is its stream, or reports that the context could not be prepared. -/
theorem lzbCompress_cases (c : LzbCctx) (cap : Nat) {src : Bytes} (level : Int)
    (cdict : Option LzbCdict) (some_input : src.length ≠ 0) :
    (lzbCompress c cap src level cdict).1 = (.oom, []) ∨
      (lzbCompress c cap src level cdict).1 = lzbAnswer cap (lzbStream src level cdict) := by
  -- The preparation of the context decides.
  cases prepared : cctxPrepare c src.length with
  | mk done c' =>
    cases done with
    | false =>
      left
      rw [lzbCompress, if_neg some_input, prepared]
    | true => exact .inr (lzbCompress_prepared some_input prepared)

/-- A parse is no longer than what it is written as. -/
theorem length_le_planBytes (plan : List LzbSeq) : plan.length ≤ (planBytes plan).length := by
  -- A sequence is written as one byte at least.
  induction plan with
  | nil => exact Nat.le_refl 0
  | cons s rest ih =>
    have := s.bytes_length_pos
    rw [planBytes, List.map_cons, List.flatten_cons, List.length_append, List.length_cons]
    rw [planBytes] at ih
    omega

/-- The stream of a block decodes to the block, over the bytes of the same dictionary. -/
theorem lzbDecompress_lzbStream {cap : Nat} {src : Bytes} {level : Int} {cdict : Option LzbCdict}
    {ddict : Option LzbDdict} (same : ddict.map LzbDdict.data = cdict.map LzbCdict.data)
    (room : src.length ≤ cap)
    (small : src.length + ((cdict.map LzbCdict.data).getD []).length < 2 ^ 64) :
    lzbDecompress cap (lzbStream src level cdict) ddict = (.ok, src) := by
  -- The chosen sequences are a parse of the block, which the decoder follows.
  rw [lzbDecompress, same]
  exact lzbDecompressLoop_parse room small
    (lzbPlan_parse (s := ⟨src, hlogFor src.length, cdict, depthFor level⟩) src.length
      (r := ⟨0, 0, _, []⟩) (Nat.le_refl 0) (Nat.zero_le _))
    (Nat.zero_le _) (length_le_planBytes _)

end Xq
