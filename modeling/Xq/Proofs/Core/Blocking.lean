import Xq.Lib.Blocks
import Xq.Proofs.Core.Writing

/-! The single-threaded encoder, block by block: whatever the calls, its blocks are fed one after
another. -/

namespace Xq

open Lib

section Settled

/-- An encoder without what its compression keeps to itself: the context, the block being gathered
and the workers. -/
def Encoder.settled (e : Encoder) : Encoder := { e with cctx := .null, raw := [], mt := none }

/-- A result, settled. -/
def settle (r : XqStatus × Encoder) : XqStatus × Encoder := (r.1, r.2.settled)

theorem settle_andThen {r r' : XqStatus × Encoder} {next next' : Encoder → XqStatus × Encoder}
    (first : r' = settle r) (rest : ∀ e, next' e.settled = settle (next e)) :
    andThen r' next' = settle (andThen r next) := by
  -- Settling keeps the status, so both go on or neither does.
  rw [first]
  by_cases good : r.1 = .ok
  · rw [andThen, if_pos (show (settle r).1 = .ok from good), andThen, if_pos good]
    exact rest r.2
  · rw [andThen_failed (show (settle r).1 ≠ .ok from good), andThen_failed good]

theorem Encoder.emit_settled (e : Encoder) (buf : Bytes) :
    e.settled.emit buf = settle (e.emit buf) := by
  -- The sink sees the same calls.
  rw [Encoder.emit, Encoder.emit]
  by_cases good : e.sticky ≠ .ok
  · rw [if_pos good, if_pos (show e.settled.sticky ≠ .ok from good)]
    rfl
  · rw [if_neg good, if_neg (show ¬ e.settled.sticky ≠ .ok from good)]
    dsimp only
    change (if e.sink e.verdicts.length e.out buf ≠ .ok then _ else _) = _
    split
    · rfl
    · rfl

theorem Encoder.emitAll_settled (chunks : List Bytes) (e : Encoder) :
    Encoder.emitAll chunks e.settled = settle (Encoder.emitAll chunks e) := by
  -- The induction is on the sink calls.
  induction chunks generalizing e with
  | nil => rfl
  | cons chunk rest ih => exact settle_andThen (e.emit_settled chunk) ih

theorem Encoder.pushed_settled (e : Encoder) (fileOff rawOff : Nat) :
    e.settled.pushed fileOff rawOff = settle (e.pushed fileOff rawOff) := by
  -- The index grows by the same allocator answers.
  have grown : e.settled.idxGrow = settle e.idxGrow := by
    rw [Encoder.idxGrow, Encoder.idxGrow, show e.settled.idx = e.idx from rfl,
      show e.settled.idxCap = e.idxCap from rfl, show e.settled.heap = e.heap from rfl]
    split
    · dsimp only
      generalize (if e.idxCap ≠ 0 then e.idxCap * 2 else 1024) = ncap
      split
      · rfl
      · generalize e.heap.malloc = answer
        obtain ⟨granted, heap⟩ := answer
        cases granted
        all_goals rfl
    · rfl
  have push : e.settled.idxPush fileOff rawOff = settle (e.idxPush fileOff rawOff) :=
    settle_andThen grown fun _ => rfl
  rw [Encoder.pushed, Encoder.pushed, push]
  generalize e.idxPush fileOff rawOff = r
  obtain ⟨st, next⟩ := r
  cases st
  all_goals rfl

/-- What is emitted depends on nothing that is settled. -/
theorem Encoder.emitJob_settled (e : Encoder) (j : EncJob) :
    e.settled.emitJob j = settle (e.emitJob j) := by
  by_cases good : e.sticky = .ok
  · -- The job goes out in four pieces.
    by_cases made : j.st = .ok
    · rw [Encoder.emitJob_eq good made, Encoder.emitJob_eq (e := e.settled) good made]
      refine settle_andThen (e.pushed_settled _ _) fun e₁ => ?_
      refine settle_andThen (e₁.emit_settled _) fun e₂ => ?_
      refine settle_andThen (e₂.emit_settled _) fun e₃ => ?_
      refine settle_andThen ?_ fun _ => rfl
      change (if e₃.checksumLen ≠ 0 then _ else _) = _
      split
      · exact e₃.emit_settled _
      · rfl
    · rw [Encoder.emitJob, Encoder.emitJob, if_neg (not_not.mpr good), if_pos made,
        if_neg (show ¬ e.settled.sticky ≠ .ok from not_not.mpr good), if_pos made]
      rfl
  · -- A failed encoder only reports.
    rw [Encoder.emitJob, Encoder.emitJob, if_pos good,
      if_pos (show e.settled.sticky ≠ .ok from good)]
    rfl

theorem Encoder.feed_settled (jobs : List EncJob) (e : Encoder) :
    Encoder.feed jobs e.settled = settle (Encoder.feed jobs e) := by
  -- The induction is on the jobs.
  induction jobs generalizing e with
  | nil => rfl
  | cons j rest ih => exact settle_andThen (e.emitJob_settled j) ih

theorem Encoder.finishTail_settled (e : Encoder) :
    e.settled.finishTail = settle e.finishTail := by
  -- The tail is a sequence of emissions, none of which looks at what is settled.
  have footer (e : Encoder) (indexOffset indexSize : Nat) :
      e.settled.finishFooter indexOffset indexSize = settle (e.finishFooter indexOffset indexSize) :=
    settle_andThen (e.emit_settled _) fun _ => rfl
  have index (e : Encoder) (nblocks : Nat) :
      e.settled.finishIndex nblocks = settle (e.finishIndex nblocks) := by
    rw [Encoder.finishIndex, Encoder.finishIndex]
    dsimp only
    split
    · rfl
    · refine settle_andThen (e.emit_settled _) fun e₁ => ?_
      exact settle_andThen (e₁.emit_settled _) fun e₂ => e₂.emitAll_settled _
  rw [Encoder.finishTail_eq, Encoder.finishTail_eq]
  refine settle_andThen (e.emit_settled _) fun e₁ => ?_
  refine settle_andThen (e₁.pushed_settled _ _) fun e₂ => ?_
  rw [Encoder.finishIndexed, Encoder.finishIndexed]
  change (if e₂.idx.length - 1 > 0 then _ else _) = _
  split
  · exact settle_andThen (index e₂ _) fun e₃ => footer e₃ _ _
  · exact footer e₂ 0 0

end Settled

section Compression

/-- Working on blocks in good contexts makes jobs of a kind, and leaves the contexts good. -/
def Encoder.Compresses (e : Encoder) (Good : Cctx → Prop) (Made : Bytes → EncJob → Prop) : Prop :=
  ∀ cctx block, Good cctx →
    Made block (compressJob e block cctx).1 ∧ Good (compressJob e block cctx).2

/-- Compression sees the setup of an encoder, and no more of it. -/
theorem compressJob_setup {e e' : Encoder} (same : e'.settled.setup = e.settled.setup)
    (block : Bytes) (cctx : Cctx) : compressJob e' block cctx = compressJob e block cctx := by
  -- The codec, the capacity, the parameters and the digest are all of it.
  have codec : e'.codec = e.codec := congrArg Setup.codec same
  have cap : e'.cbufCap = e.cbufCap := congrArg Setup.cbufCap same
  have params : e'.p = e.p := congrArg Setup.p same
  have cdict : e'.cdict = e.cdict := congrArg Setup.cdict same
  rw [compressJob, compressJob, codec, cap, params, cdict]

/-- A job carries the block it is made of. -/
theorem compressJob_raw (e : Encoder) (block : Bytes) (cctx : Cctx) :
    (compressJob e block cctx).1.raw = block := by
  -- Each outcome of the codec makes a job with the block in it.
  rw [compressJob]
  generalize e.codec.compress cctx e.cbufCap block e.p.level e.cdict = r
  obtain ⟨⟨st, out⟩, cctx'⟩ := r
  dsimp only
  split_ifs
  all_goals rfl

/-- A job only depends on what the codec answers. -/
theorem compressJob_answer {e : Encoder} {block : Bytes} {cctx cctx' : Cctx}
    (same : (e.codec.compress cctx e.cbufCap block e.p.level e.cdict).1 =
      (e.codec.compress cctx' e.cbufCap block e.p.level e.cdict).1) :
    (compressJob e block cctx).1 = (compressJob e block cctx').1 := by
  -- The job is made from the answer, and the context is put aside.
  rw [compressJob, compressJob]
  generalize e.codec.compress cctx e.cbufCap block e.p.level e.cdict = r at same
  generalize e.codec.compress cctx' e.cbufCap block e.p.level e.cdict = r' at same
  obtain ⟨answer, after⟩ := r
  obtain ⟨answer', after'⟩ := r'
  rw [show answer = answer' from same]

/-- Making a job is one use of the context. -/
theorem compressJob_context (e : Encoder) (block : Bytes) (cctx : Cctx) :
    (compressJob e block cctx).2 =
      (e.codec.compress cctx e.cbufCap block e.p.level e.cdict).2 := rfl

/-- The jobs that one context makes of blocks one after another, and the context behind them. -/
def Encoder.jobsFrom (e : Encoder) : Cctx → List Bytes → List EncJob × Cctx
  | cctx, [] => ([], cctx)
  | cctx, block :: rest =>
    let made := compressJob e block cctx
    let later := e.jobsFrom made.2 rest
    (made.1 :: later.1, later.2)

theorem Encoder.jobsFrom_snoc (e : Encoder) (cctx : Cctx) (blocks : List Bytes) (block : Bytes) :
    e.jobsFrom cctx (blocks ++ [block]) =
      ((e.jobsFrom cctx blocks).1 ++ [(compressJob e block (e.jobsFrom cctx blocks).2).1],
        (compressJob e block (e.jobsFrom cctx blocks).2).2) := by
  -- The induction is on the blocks, with the context that the ones before have left.
  induction blocks generalizing cctx with
  | nil => rfl
  | cons first rest ih =>
    rw [List.cons_append, Encoder.jobsFrom, Encoder.jobsFrom]
    dsimp only
    rw [ih]
    rfl

/-- What holds of every job holds of those of a run. -/
theorem Encoder.jobsFrom_made {e : Encoder} {Good : Cctx → Prop} {Made : Bytes → EncJob → Prop}
    (compresses : e.Compresses Good Made) {cctx : Cctx} (good : Good cctx) (blocks : List Bytes) :
    List.Forall₂ Made blocks (e.jobsFrom cctx blocks).1 := by
  -- The induction is on the blocks, since each leaves the context good for the next.
  induction blocks generalizing cctx with
  | nil => exact .nil
  | cons block rest ih =>
    obtain ⟨made, kept⟩ := compresses cctx block good
    exact .cons made (ih kept)

end Compression

section Sequential

variable {e₀ : Encoder} {Good : Cctx → Prop} {Made : Bytes → EncJob → Prop}

/-- The jobs a single-threaded encoder makes of blocks, from the context it starts with. -/
def Encoder.jobs (e : Encoder) (blocks : List Bytes) : List EncJob := (e.jobsFrom e.cctx blocks).1

/-- What writing `xs` has come to: the jobs of the full blocks have been fed, as far as nothing
failed, and the rest has been gathered. -/
structure Encoder.Gathered (e₀ : Encoder) (xs : Bytes) (r : XqStatus × Encoder) : Prop where
  fed : ∃ blocks, blocks <+: fullBlocks e₀.blockSize xs ∧
    settle r = Encoder.feed (e₀.jobs blocks) e₀.settled ∧
    r.2.cctx = (e₀.jobsFrom e₀.cctx blocks).2 ∧
    (r.1 = .ok → blocks = fullBlocks e₀.blockSize xs)
  rest : r.1 = .ok → r.2.raw = leftover e₀.blockSize xs

/-- Nothing has been written to a new encoder. -/
theorem Encoder.Gathered.start (fresh : e₀.raw = []) : e₀.Gathered [] (.ok, e₀) where
  fed := ⟨[], List.nil_prefix, rfl, rfl, fun _ => (fullBlocks_nil).symm⟩
  rest _ := by rw [fresh, leftover_nil]

/-- What has been fed keeps the setup, and the status sticks. -/
theorem Encoder.feed_keeps (good : e₀.sticky = .ok) {jobs : List EncJob} {r : XqStatus × Encoder}
    (fed : settle r = Encoder.feed jobs e₀.settled) :
    r.2.settled.setup = e₀.settled.setup ∧ r.2.sticky = r.1 ∧
      r.2.finished = e₀.finished := by
  -- The lemma on two lists of jobs, at one list and itself.
  have themselves : List.Forall₂ (fun j j' : EncJob => j.st = .ok → j = j') jobs jobs :=
    List.forall₂_same.mpr fun _ _ _ => rfl
  have emits := Encoder.feed_emits (e := e₀.settled) good themselves
  have finished := Encoder.feed_finished (e := e₀.settled) (b := e₀.finished) rfl jobs
  rw [← fed] at emits finished
  exact ⟨emits.setup, emits.sticky, finished⟩

/-- A block that is flushed is compressed and fed. -/
theorem Encoder.flushBlock_fed {e : Encoder} (setup : e.settled.setup = e₀.settled.setup)
    (open_ : e.sticky = .ok) (some_raw : e.raw ≠ []) :
    settle e.flushBlock = e.settled.emitJob (compressJob e₀ e.raw e.cctx).1 ∧
      e.flushBlock.2.cctx = (compressJob e₀ e.raw e.cctx).2 := by
  -- A block is compressed with the setup the encoder began with.
  have same := compressJob_setup setup e.raw e.cctx
  rw [← same, Encoder.flushBlock, if_neg some_raw, if_neg (not_not.mpr open_)]
  generalize compressJob e e.raw e.cctx = r
  obtain ⟨j, cctx⟩ := r
  refine ⟨(Encoder.emitJob_settled { e with cctx := cctx } j).symm, ?_⟩
  have emits := Encoder.emitJob_emits (e := { e with cctx := cctx }) open_ j
  exact congrArg Setup.cctx emits.setup

/-- The jobs of one more block are fed behind those before. -/
theorem Encoder.feed_concat {jobs : List EncJob} {e : Encoder} (j : EncJob)
    (fed : settle (.ok, e) = Encoder.feed jobs e₀.settled) :
    Encoder.feed (jobs ++ [j]) e₀.settled = e.settled.emitJob j := by
  rw [Encoder.feed_append, ← fed]
  show andThen (e.settled.emitJob j) (Encoder.feed []) = _
  by_cases fine : (e.settled.emitJob j).1 = .ok
  · rw [andThen, if_pos fine, Encoder.feed, ← fine]
  · -- A failing job is the last one either way.
    rw [andThen_failed fine]

/-- One more block is flushed behind those that have been fed. -/
theorem Encoder.flushBlock_next {blocks : List Bytes} {e e' : Encoder}
    (setup : e.settled.setup = e₀.settled.setup) (open_ : e.sticky = .ok) (some_raw : e.raw ≠ [])
    (fed : settle (.ok, e') = Encoder.feed (e₀.jobs blocks) e₀.settled)
    (same : e.settled = e'.settled) (context : e.cctx = (e₀.jobsFrom e₀.cctx blocks).2) :
    settle e.flushBlock = Encoder.feed (e₀.jobs (blocks ++ [e.raw])) e₀.settled ∧
      e.flushBlock.2.cctx = (e₀.jobsFrom e₀.cctx (blocks ++ [e.raw])).2 := by
  -- The context is the one that the jobs before have left, so the next job is the next of the run.
  obtain ⟨flushed, after⟩ := Encoder.flushBlock_fed setup open_ some_raw
  rw [Encoder.jobs, Encoder.jobsFrom_snoc, flushed, after, context]
  refine ⟨?_, rfl⟩
  rw [same]
  exact (Encoder.feed_concat _ fed).symm

/-- The copying loop, on what has been gathered before. -/
theorem Encoder.Gathered.writeLoop (open_ : e₀.sticky = .ok) (positive : 0 < e₀.blockSize)
    {xs : Bytes} {e : Encoder} (gathered : e₀.Gathered xs (.ok, e)) (fuel : Nat) {buf : Bytes}
    (enough : buf.length ≤ fuel) :
    e₀.Gathered (xs ++ buf) (Encoder.writeLoop fuel buf e) := by
  -- Round by round; a round either ends within the block or fills it.
  induction fuel generalizing xs e buf with
  | zero =>
    obtain rfl : buf = [] := List.length_eq_zero_iff.mp (Nat.le_zero.mp enough)
    rwa [List.append_nil, Encoder.writeLoop]
  | succ fuel ih =>
    by_cases empty : buf = []
    · subst empty
      rwa [List.append_nil, Encoder.writeLoop_nil]
    obtain ⟨⟨blocks, _, fed, context, whole⟩, rest⟩ := gathered
    obtain rfl := whole rfl
    have raw := rest rfl
    dsimp only at raw context
    obtain ⟨setup, sticky, _⟩ := Encoder.feed_keeps open_ fed
    have size : e.blockSize = e₀.blockSize := congrArg Setup.blockSize setup
    have short : e.raw.length < e.blockSize := by
      rw [raw, size]
      exact leftover_short xs positive
    have some_byte := List.length_pos_of_ne_nil empty
    rw [Encoder.writeLoop, if_neg empty]
    dsimp only
    -- A round takes a piece, as much as the block has room for.
    generalize taken : (if buf.length < e.blockSize - e.raw.length then buf.length
      else e.blockSize - e.raw.length) = take
    have bounds : 0 < take ∧ take ≤ buf.length ∧ take ≤ e.blockSize - e.raw.length := by
      subst taken
      split <;> omega
    have piece : (buf.take take).length = take := by
      rw [List.length_take]
      omega
    have whole : xs ++ buf = xs ++ buf.take take ++ buf.drop take := by
      rw [List.append_assoc, List.take_append_drop]
    have behind : (buf.drop take).length ≤ fuel := by
      rw [List.length_drop]
      omega
    by_cases fills : (e.raw ++ buf.take take).length = e.blockSize
    · rw [if_pos fills, whole]
      obtain ⟨blocks, none_left⟩ := blocks_filled xs positive
        (show (leftover e₀.blockSize xs).length + (buf.take take).length = e₀.blockSize by
          rw [← raw, ← size, ← fills, List.length_append])
      rw [← raw] at blocks
      -- The block is full: it is compressed and emitted before the loop goes on.
      obtain ⟨flushed, after⟩ := Encoder.flushBlock_next
        (e := { e with raw := e.raw ++ buf.take take }) setup sticky
        (List.ne_nil_of_length_pos (by rw [List.length_append]; omega)) fed rfl context
      dsimp only at flushed after
      rw [← blocks] at flushed after
      have emptied := (Encoder.flushBlock_flushed
        (e := { e with raw := e.raw ++ buf.take take }) sticky).emptied
      generalize Encoder.flushBlock { e with raw := e.raw ++ buf.take take } = r
        at flushed after emptied
      by_cases fine : r.1 = .ok
      · rw [andThen, if_pos fine]
        refine ih ⟨⟨_, List.prefix_rfl, ?_, after, fun _ => rfl⟩, fun _ => ?_⟩ behind
        · rw [← flushed, ← fine]
        · rw [none_left]
          exact emptied fine
      · -- The emission has failed, and the loop with it.
        rw [andThen_failed fine]
        exact ⟨⟨_, fullBlocks_front _ _, flushed, after, fun done => (fine done).elim⟩,
          fun done => (fine done).elim⟩
    · -- The piece ends within the block and is only gathered.
      rw [if_neg fills, whole]
      rw [List.length_append] at fills
      obtain ⟨blocks, left⟩ := blocks_short xs
        (show (leftover e₀.blockSize xs).length + (buf.take take).length < e₀.blockSize by
          rw [← raw, ← size]
          omega)
      rw [← raw] at left
      refine ih (e := { e with raw := e.raw ++ buf.take take })
        ⟨⟨_, List.prefix_rfl, ?_, ?_, fun _ => rfl⟩, fun _ => left.symm⟩ behind
      · rwa [blocks]
      · rwa [blocks]

/-- A call that writes, on what has been gathered before. -/
theorem Encoder.Gathered.write (open_ : e₀.sticky = .ok) (unfinished : e₀.finished = false)
    (positive : 0 < e₀.blockSize) {xs : Bytes} {e : Encoder} (gathered : e₀.Gathered xs (.ok, e))
    (buf : Bytes) : e₀.Gathered (xs ++ buf) (e.write buf) := by
  -- What has been fed has left the encoder neither failed nor finished.
  obtain ⟨_, _, fed, _⟩ := gathered.fed
  obtain ⟨_, sticky, finished⟩ := Encoder.feed_keeps open_ fed
  rw [Encoder.write, if_neg (not_not.mpr sticky), if_neg (by rw [finished, unfinished]; simp)]
  exact gathered.writeLoop open_ positive buf.length le_rfl

/-- What a single-threaded run over `xs` has come to: the jobs of all its blocks have been fed, and
the end of the file behind them, as far as nothing failed. -/
structure Encoder.RanAlone (e₀ : Encoder) (xs : Bytes) (r : XqStatus × Encoder) : Prop where
  fed : ∃ blocks, blocks <+: allBlocks e₀.blockSize xs ∧
    settle r = andThen (Encoder.feed (e₀.jobs blocks) e₀.settled) Encoder.finishTail ∧
    ((Encoder.feed (e₀.jobs blocks) e₀.settled).1 = .ok → blocks = allBlocks e₀.blockSize xs)

/-- The last call of a run: the rest is a block of its own, unless it is empty. -/
theorem Encoder.Gathered.finish (open_ : e₀.sticky = .ok) (unfinished : e₀.finished = false)
    {xs : Bytes} {e : Encoder} (gathered : e₀.Gathered xs (.ok, e)) :
    e₀.RanAlone xs e.finish := by
  obtain ⟨⟨blocks, _, fed, context, whole⟩, rest⟩ := gathered
  obtain rfl := whole rfl
  have raw := rest rfl
  dsimp only at raw context
  obtain ⟨setup, sticky, finished⟩ := Encoder.feed_keeps open_ fed
  rw [Encoder.finish, if_neg (not_not.mpr sticky), if_neg (by rw [finished, unfinished]; simp)]
  by_cases empty : e.raw = []
  · -- Nothing is left over, and the end of the file follows.
    have all : allBlocks e₀.blockSize xs = fullBlocks e₀.blockSize xs := by
      rw [allBlocks, if_pos (raw ▸ empty), List.append_nil]
    rw [Encoder.flushBlock, if_pos empty, andThen_ok]
    refine ⟨⟨_, by rw [all], ?_, fun _ => all.symm⟩⟩
    rw [← fed]
    exact (e.finishTail_settled).symm
  · obtain ⟨flushed, _⟩ := Encoder.flushBlock_next setup sticky empty fed rfl context
    have all : allBlocks e₀.blockSize xs =
        fullBlocks e₀.blockSize xs ++ [leftover e₀.blockSize xs] := by
      rw [allBlocks, if_neg (raw ▸ empty)]
    rw [raw, ← all] at flushed
    exact ⟨⟨_, List.prefix_rfl, (settle_andThen flushed.symm Encoder.finishTail_settled).symm,
      fun _ => rfl⟩⟩

/-- A failure has fed some blocks, and the calls behind it only report it. -/
theorem Encoder.Gathered.failed (open_ : e₀.sticky = .ok) {xs : Bytes} {r : XqStatus × Encoder}
    (gathered : e₀.Gathered xs r) (broken : r.1 ≠ .ok) : e₀.RanAlone xs r.2.finish := by
  -- The blocks fed are a front of all of them, and the sticky status is what a finish reports.
  obtain ⟨blocks, front, fed, _⟩ := gathered.fed
  obtain ⟨_, sticky, _⟩ := Encoder.feed_keeps open_ fed
  have failed : (Encoder.feed (e₀.jobs blocks) e₀.settled).1 ≠ .ok := by
    rw [← fed]
    exact broken
  have all := front.trans (List.prefix_append (fullBlocks e₀.blockSize xs)
    (if leftover e₀.blockSize xs = [] then [] else [leftover e₀.blockSize xs]))
  refine ⟨⟨blocks, all, ?_, fun done => (failed done).elim⟩⟩
  rw [andThen_failed failed, ← fed, Encoder.finish, if_pos (by rwa [sticky]), sticky]

/-- Whatever a run comes to, over whichever pieces, it has fed the blocks of all of them. -/
theorem Encoder.writes_ranAlone (open_ : e₀.sticky = .ok) (writable : e₀.Writable)
    (fresh : e₀.raw = []) (pieces : List Bytes) :
    e₀.RanAlone pieces.flatten (e₀.writes pieces).finish := by
  -- Writing the pieces is writing their concatenation.
  have gathered := (Encoder.Gathered.start fresh).write open_ writable.unfinished
    (Nat.zero_lt_of_lt writable.room) pieces.flatten
  rw [List.nil_append] at gathered
  rw [Encoder.writes_eq writable]
  generalize e₀.write pieces.flatten = r at gathered
  by_cases fine : r.1 = .ok
  · obtain ⟨st, e⟩ := r
    obtain rfl : st = .ok := fine
    exact gathered.finish open_ writable.unfinished
  · exact gathered.failed open_ fine

end Sequential

section Runs

variable {e₀ : Encoder} {Good : Cctx → Prop} {Made : Bytes → EncJob → Prop}

/-- What a whole run over `xs` has come to: all its blocks have been made and fed, and the end of
the file behind them, as far as nothing failed. -/
structure Encoder.Ran (e₀ : Encoder) (Made : Bytes → EncJob → Prop) (xs : Bytes)
    (r : XqStatus × Encoder) : Prop where
  fed : ∃ blocks jobs, blocks <+: allBlocks e₀.blockSize xs ∧ List.Forall₂ Made blocks jobs ∧
    settle r = andThen (Encoder.feed jobs e₀.settled) Encoder.finishTail ∧
    ((Encoder.feed jobs e₀.settled).1 = .ok → blocks = allBlocks e₀.blockSize xs)

theorem Encoder.writes_ran (compresses : e₀.Compresses Good Made) (open_ : e₀.sticky = .ok)
    (writable : e₀.Writable) (fresh : e₀.raw = []) (good : Good e₀.cctx) (pieces : List Bytes) :
    e₀.Ran Made pieces.flatten (e₀.writes pieces).finish := by
  -- The contexts stay good from block to block.
  obtain ⟨blocks, front, fed, all⟩ := (Encoder.writes_ranAlone open_ writable fresh pieces).fed
  exact ⟨⟨blocks, _, front, Encoder.jobsFrom_made compresses good blocks, fed, all⟩⟩

/-- Jobs of a function of their blocks. -/
theorem made_map {f : Bytes → EncJob} {blocks : List Bytes} {jobs : List EncJob}
    (made : List.Forall₂ (fun block j => j = f block) blocks jobs) : jobs = blocks.map f := by
  -- The induction is on the blocks.
  induction made with
  | nil => rfl
  | cons here _ ih => rw [List.map_cons, here, ih]

/-- Where a job is a function of its block, all runs over the same bytes come to the same. -/
theorem Encoder.Ran.determined {f : Bytes → EncJob} {xs : Bytes} {r : XqStatus × Encoder}
    (ran : e₀.Ran (fun block j => j = f block) xs r) :
    settle r = andThen (Encoder.feed ((allBlocks e₀.blockSize xs).map f) e₀.settled)
      Encoder.finishTail := by
  obtain ⟨blocks, jobs, ⟨more, whole⟩, made, fed, all⟩ := ran.fed
  obtain rfl := made_map made
  by_cases fine : (Encoder.feed (blocks.map f) e₀.settled).1 = .ok
  · -- Nothing failed, so all blocks have been fed.
    rw [fed, all fine]
  · -- A failure among the blocks fed is one among all of them.
    rw [fed, ← whole, List.map_append, Encoder.feed_append, andThen_failed fine,
      andThen_failed fine, andThen_failed fine]

end Runs

end Xq
