import Xq.Proofs.Core.FinishedFile

/-! Failures of an encoder, single-threaded or parallel: what has been emitted is the front of the
file without failures, and every later call reports the failure again. -/

namespace Xq

open Lib

section Runs

/-- A call of a client on a single-threaded encoder. -/
def Encoder.answer (e : Encoder) : EncCall → XqStatus × Encoder
  | .write buf => e.write buf
  | .finish => e.finish
  | .free => (.ok, e)

/-- What calls in a row return, and the encoder behind them. -/
def Encoder.answers (e : Encoder) (calls : List EncCall) : List XqStatus × Encoder :=
  calls.foldl (fun r c => (r.1 ++ [(r.2.answer c).1], (r.2.answer c).2)) ([], e)

theorem Encoder.answers_snoc (e : Encoder) (calls : List EncCall) (c : EncCall) :
    e.answers (calls ++ [c]) =
      ((e.answers calls).1 ++ [((e.answers calls).2.answer c).1],
        ((e.answers calls).2.answer c).2) := by
  -- The last call is answered behind the others.
  rw [Encoder.answers, List.foldl_append]
  rfl

/-- The states of an encoder on its way through the calls of a client: what the calls so far have
returned, the encoder, and whether the compression of a block has failed. -/
inductive Encoder.Run (e : Encoder) (Good : Cctx → Prop) (issued : List EncCall) :
    List XqStatus → Encoder → Prop → Prop
  | single (n : Nat) :
    Encoder.Run e Good issued (e.answers (issued.take n)).1 (e.answers (issued.take n)).2
      (∃ j ∈ e.jobs (allBlocks e.blockSize (writtenBy issued)), j.st ≠ .ok)
  | parallel {nthreads : Nat} {cctxs : Fin nthreads → Cctx} {s : EncMt Cctx nthreads} :
    2 ≤ nthreads → (∀ i, Good (cctxs i)) →
    EncMt.Reachable (fun cctx block => compressJob e block cctx) (EncMt.init e cctxs issued) s →
    Encoder.Run e Good issued s.results s.enc (∃ i, (s.slots i).job.st ≠ .ok)

/-- The sink, a request for memory or the emission of a block has failed. -/
def Encoder.Failed (e e' : Encoder) : Prop :=
  e'.sticky ≠ .ok ∨ (∃ v ∈ e'.verdicts, v ≠ .ok) ∨
    ∃ n, e.heap.next ≤ n ∧ n < e'.heap.next ∧ e.heap.grants n = false

/-- The run over `xs` in which nothing fails, and `f` makes the jobs. -/
def Encoder.failureFree (e : Encoder) (f : Bytes → EncJob) (xs : Bytes) : XqStatus × Encoder :=
  andThen (Encoder.feed ((allBlocks e.blockSize xs).map f)
    { e with sink := fun _ _ _ => .ok, heap := { e.heap with grants := fun _ => true } })
    Encoder.finishTail

/-- Some calls have written with success, and all calls behind them have reported a failure. -/
def StickyReports (issued : List EncCall) (results : List XqStatus) (sticky : XqStatus) : Prop :=
  ∃ (pieces : List Bytes) (later : List EncCall) (m : Nat),
    issued = pieces.map .write ++ later ∧
      results = List.replicate pieces.length .ok ++ List.replicate m sticky ∧
      (0 < m → sticky ≠ .ok)

end Runs

section Emission

variable {zstd : Option CodecVt} {sink : Nat → Bytes → Bytes → XqStatus} {p : XqParams}
  {rawSizeHint : UInt64} {e e' : Encoder} {record : Option FileDict}

theorem Encoder.Created.settled (fresh : e.Created zstd sink p rawSizeHint record) :
    e.settled.Created zstd sink p rawSizeHint record :=
  { accepted := fresh.accepted, codec := fresh.codec, sink := fresh.sink, params := fresh.params
    blockSize := fresh.blockSize, blockSizeLog := fresh.blockSizeLog
    checksumLen := fresh.checksumLen, cbufCap := fresh.cbufCap, sticky := fresh.sticky
    finished := fresh.finished, raw := rfl, out := fresh.out, fileOffset := fresh.fileOffset
    books := fresh.books, indexed := fresh.indexed, dict := fresh.dict, cdict := fresh.cdict
    verdicts := fresh.verdicts }

/-- What a run over `xs` has come to in some state: the jobs of some of its blocks have been fed, or
those of all of them and the end of the file. -/
structure Encoder.Came (e : Encoder) (Made : Bytes → EncJob → Prop) (xs : Bytes) (e' : Encoder) :
    Prop where
  fed : ∃ blocks jobs, blocks <+: allBlocks e.blockSize xs ∧ List.Forall₂ Made blocks jobs ∧
    (Encoder.feed jobs e.settled = (e'.sticky, e'.settled) ∨
      blocks = allBlocks e.blockSize xs ∧ ∃ e₁, Encoder.feed jobs e.settled = (.ok, e₁) ∧
        e₁.finishTail = (e'.sticky, e'.settled))

/-- A run over `xs` has come to its end with success. -/
structure Encoder.Ended (e : Encoder) (Made : Bytes → EncJob → Prop) (xs : Bytes) (e' : Encoder) :
    Prop where
  sticky : e'.sticky = .ok
  ran : ∃ jobs e₁, List.Forall₂ Made (allBlocks e.blockSize xs) jobs ∧
    Encoder.feed jobs e.settled = (.ok, e₁) ∧ e₁.finishTail = (.ok, e'.settled)

theorem Encoder.Ended.came {Made : Bytes → EncJob → Prop} {xs : Bytes}
    (ended : e.Ended Made xs e') : e.Came Made xs e' := by
  -- All blocks have been fed, and the tail behind them.
  obtain ⟨jobs, e₁, made, fed, tail⟩ := ended.ran
  refine ⟨_, jobs, List.prefix_rfl, made, .inr ⟨rfl, e₁, fed, ?_⟩⟩
  rw [tail, ended.sticky]

variable {f : Bytes → EncJob} {xs : Bytes}

/-- The jobs that a function makes when nothing fails; a job that fails may be any. -/
def MadeBy (f : Bytes → EncJob) (block : Bytes) (j : EncJob) : Prop := j.st = .ok → j = f block

theorem MadeBy.agree {blocks : List Bytes} {jobs : List EncJob}
    (made : List.Forall₂ (MadeBy f) blocks jobs) :
    List.Forall₂ (fun j j' : EncJob => j.st = .ok → j = j') jobs (blocks.map f) := by
  -- The induction is on the blocks.
  induction made with
  | nil => exact .nil
  | cons here _ ih => exact .cons here ih

/-- Jobs none of which has failed are those of the function. -/
theorem MadeBy.all {blocks : List Bytes} {jobs : List EncJob}
    (made : List.Forall₂ (MadeBy f) blocks jobs) (fine : ∀ j ∈ jobs, j.st = .ok) :
    jobs = blocks.map f := by
  -- The induction is on the blocks.
  induction made with
  | nil => rfl
  | @cons block j _ _ here _ ih =>
    obtain ⟨one, rest⟩ := List.forall_mem_cons.mp fine
    rw [List.map_cons, here one, ih rest]

/-- The container only depends on the parameters. -/
theorem Encoder.container_same (params : e'.p = e.p) (cdict : e'.cdict = e.cdict)
    (length : e'.checksumLen = e.checksumLen) (log : e'.blockSizeLog = e.blockSizeLog)
    (dict : e'.dict = e.dict) (rawSizeHint : UInt64) (record : Option FileDict)
    (jobs : List EncJob) :
    e'.container rawSizeHint record jobs = e.container rawSizeHint record jobs := by
  -- The header and the blocks are made from the parameters and the digest.
  rw [Encoder.container, Encoder.container, Encoder.fileHeader, Encoder.fileHeader,
    Encoder.fileBlocks_same cdict params length, params, log, dict]

theorem Encoder.container_settled (e : Encoder) (rawSizeHint : UInt64) (record : Option FileDict)
    (jobs : List EncJob) :
    e.settled.container rawSizeHint record jobs = e.container rawSizeHint record jobs := by
  -- Settling clears only what has been gathered and the workers.
  refine Encoder.container_same ?_ ?_ ?_ ?_ ?_ _ _ _
  all_goals rfl

/-- The run without failures emits the container of all blocks. -/
theorem Encoder.Created.failureFree_out (fresh : e.Created zstd sink p rawSizeHint record)
    (done : (e.failureFree f xs).1 = .ok) :
    (e.failureFree f xs).2.out =
      (e.container rawSizeHint record ((allBlocks e.blockSize xs).map f)).bytes := by
  obtain ⟨lucky, same⟩ : ∃ lucky : Encoder, lucky =
      { e with sink := fun _ _ _ => .ok, heap := { e.heap with grants := fun _ => true } } :=
    ⟨_, rfl⟩
  -- With another sink and heap it is as newly created as before.
  have fresh' : lucky.Created zstd (fun _ _ _ => .ok) p rawSizeHint record := by
    subst same
    exact
      { accepted := fresh.accepted, codec := fresh.codec, sink := rfl, params := fresh.params
        blockSize := fresh.blockSize, blockSizeLog := fresh.blockSizeLog
        checksumLen := fresh.checksumLen, cbufCap := fresh.cbufCap, sticky := fresh.sticky
        finished := fresh.finished, raw := fresh.raw, out := fresh.out
        fileOffset := fresh.fileOffset, books := fresh.books, indexed := fresh.indexed
        dict := fresh.dict, cdict := fresh.cdict, verdicts := fresh.verdicts }
  -- Neither shows in the container.
  have container : lucky.container rawSizeHint record ((allBlocks e.blockSize xs).map f) =
      e.container rawSizeHint record ((allBlocks e.blockSize xs).map f) := by
    refine Encoder.container_same ?_ ?_ ?_ ?_ ?_ _ _ _
    all_goals rw [same]
  rw [Encoder.failureFree, ← same] at done ⊢
  rw [← container]
  exact (fresh'.whole (Prod.ext done rfl)).1

/-- Whatever a run has come to, it has emitted the front of the file without failures. -/
theorem Encoder.Came.front (fresh : e.Created zstd sink p rawSizeHint record)
    (came : e.Came (MadeBy f) xs e') :
    e'.out <+: (e.container rawSizeHint record ((allBlocks e.blockSize xs).map f)).bytes := by
  obtain ⟨blocks, jobs, ⟨more, whole⟩, made, fed⟩ := came.fed
  have settled := fresh.settled
  have start : e.settled.rawOffset = 0 := congrArg Books.rawOffset fresh.books
  have emits := Encoder.feed_emits settled.sticky (MadeBy.agree made)
  rw [start] at emits
  have same := e.container_settled rawSizeHint record ((allBlocks e.blockSize xs).map f)
  have out : e.settled.out = (e.settled.container rawSizeHint record
      ((allBlocks e.blockSize xs).map f)).front := (settled.front _).symm
  rw [← same, Container.bytes_eq]
  rcases fed with fed | ⟨all, e₁, fed, tail⟩
  · -- The blocks stopped it: what is out is a front of theirs.
    rw [fed] at emits
    obtain ⟨part, within, emitted⟩ := emits.part
    have blockBytes : (e.settled.container rawSizeHint record
        ((allBlocks e.blockSize xs).map f)).blockBytes =
        (e.settled.fileBlocks 0 (blocks.map f)).flatMap FileBlock.bytes ++
          (e.settled.fileBlocks (0 + ((blocks.map f).map fun j => j.raw.length).sum)
            (more.map f)).flatMap FileBlock.bytes := by
      rw [← List.flatMap_append, ← Encoder.fileBlocks_append, ← List.map_append, whole]
      rfl
    have front : e'.out = e.settled.out ++ part := emitted
    rw [front, out, blockBytes, List.append_assoc]
    refine (List.prefix_append_right_inj _).mpr (within.trans ?_)
    rw [List.append_assoc]
    exact List.prefix_append _ _
  · -- All blocks are out, and then a front of the tail.
    have fine := Encoder.feed_made settled.sticky (congrArg Prod.fst fed)
    obtain rfl := MadeBy.all made fine
    rw [all] at fed
    obtain ⟨_, before⟩ := settled.behind fed
    have emits := settled.tail_emits fed
    rw [tail] at emits
    obtain ⟨part, within, emitted⟩ := emits.part
    have front : e'.out = e₁.out ++ part := emitted
    rw [front, before]
    exact (List.prefix_append_right_inj _).mpr within

/-- The answers of the sink, when those before were good. -/
theorem Encoder.Emits.verdicts {planned : Bytes} {books : Books} {r : XqStatus × Encoder}
    (emits : e.Emits planned books r) (good : ∀ v ∈ e.verdicts, v = .ok) :
    (∀ v ∈ r.2.verdicts.dropLast, v = .ok) ∧ (r.1 = .ok → ∀ v ∈ r.2.verdicts, v = .ok) := by
  obtain ⟨answers, verdicts, early, all⟩ := emits.answers
  rw [verdicts]
  refine ⟨fun v member => ?_, fun fine => List.forall_mem_append.mpr ⟨good, all fine⟩⟩
  -- The last answer of all is the last of this emission, if there is one.
  rcases List.eq_nil_or_concat answers with rfl | ⟨front, last, rfl⟩
  · rw [List.append_nil] at member
    exact good v (List.dropLast_subset _ member)
  · rw [List.concat_eq_append] at member early
    rw [← List.append_assoc, List.dropLast_concat] at member
    rw [List.dropLast_concat] at early
    rcases List.mem_append.mp member with before | after
    · exact good v before
    · exact early v after

/-- No sink call follows one that has failed. -/
theorem Encoder.Came.verdicts {Made : Bytes → EncJob → Prop}
    (fresh : e.Created zstd sink p rawSizeHint record) (came : e.Came Made xs e') :
    ∀ v ∈ e'.verdicts.dropLast, v = .ok := by
  obtain ⟨blocks, jobs, _, _, fed⟩ := came.fed
  have settled := fresh.settled
  have themselves : List.Forall₂ (fun j j' : EncJob => j.st = .ok → j = j') jobs jobs :=
    List.forall₂_same.mpr fun _ _ _ => rfl
  have emits := Encoder.feed_emits settled.sticky themselves
  -- Either the blocks stopped it, or the tail came behind all of them.
  rcases fed with fed | ⟨_, e₁, fed, tail⟩
  · rw [fed] at emits
    exact (emits.verdicts settled.verdicts).1
  · have last := settled.tail_emits fed
    rw [fed] at emits
    rw [tail] at last
    exact (last.verdicts ((emits.verdicts settled.verdicts).2 rfl)).1

/-- A run that has come to its end with success has not failed anywhere. -/
theorem Encoder.Ended.flawless {Made : Bytes → EncJob → Prop}
    (fresh : e.Created zstd sink p rawSizeHint record) (ended : e.Ended Made xs e') :
    ¬ e.Failed e' := by
  obtain ⟨jobs, e₁, _, fed, tail⟩ := ended.ran
  have settled := fresh.settled
  have themselves : List.Forall₂ (fun j j' : EncJob => j.st = .ok → j = j') jobs jobs :=
    List.forall₂_same.mpr fun _ _ _ => rfl
  have emits := Encoder.feed_emits settled.sticky themselves
  have last := settled.tail_emits fed
  rw [fed] at emits
  rw [tail] at last
  -- A failure is a sticky status, a refused sink call or a refused allocation.
  rintro (broken | ⟨v, member, bad⟩ | ⟨n, above, below, refused⟩)
  · exact broken ended.sticky
  · exact bad ((last.verdicts ((emits.verdicts settled.verdicts).2 rfl)).2 rfl v member)
  · have same : e₁.heap.grants = e.heap.grants := congrArg Setup.grants emits.setup
    have granted : e.heap.grants n = true := by
      rcases Nat.lt_or_ge n e₁.heap.next with here | there
      · exact emits.memory.2 rfl n above here
      · rw [← same]
        exact last.memory.2 rfl n there below
    rw [refused] at granted
    cases granted

end Emission

section Parallel

variable {zstd : Option CodecVt} {sink : Nat → Bytes → Bytes → XqStatus} {p : XqParams}
  {rawSizeHint : UInt64} {e : Encoder} {record : Option FileDict} {γ : Type} {nthreads : Nat}
  {Good : γ → Prop} {Made : Bytes → EncJob → Prop} {issued : List EncCall} {inputs : List Bytes}
  {outputs : List EncJob} {s : EncMt γ nthreads}

theorem EncMt.Sound.came (ready : e.Ready)
    (sound : s.Sound Good Made e issued inputs outputs) : e.Came Made (writtenBy issued) s.enc := by
  -- The emission so far is that of the settled encoder.
  obtain ⟨blocks, jobs, front, made, emitted⟩ := (sound.emitted ready).fed
  refine ⟨blocks, jobs, front, made, ?_⟩
  rcases emitted with fed | ⟨_, all, e₁, fed, tail⟩
  · refine .inl ?_
    rw [Encoder.feed_settled, fed]
    rfl
  · refine .inr ⟨all, e₁.settled, ?_, ?_⟩
    · rw [Encoder.feed_settled, fed]
      rfl
    · rw [Encoder.finishTail_settled, tail]
      rfl

/-- All calls so far have written with success, or the encoder has stopped. -/
theorem EncMt.Sound.open_or_stopped (sound : s.Sound Good Made e issued inputs outputs) :
    s.Open issued ∨ s.Stopped e issued inputs outputs := by
  -- Everywhere but between two calls the invariant says that the encoder is open.
  have stage := sound.stage
  cases place : s.producer with
  | idle =>
    rw [place] at stage
    rcases stage with ⟨open_, _⟩ | stopped
    · exact .inl open_
    · exact .inr stopped
  | joining =>
    rw [place] at stage
    exact stage.elim
  | _ =>
    rw [place] at stage
    exact .inl stage.1

/-- A parallel encoder has finished, or it reports a failure from then on. -/
theorem EncMt.Sound.outcome (sound : s.Sound Good Made e issued inputs outputs) :
    StickyReports issued s.results s.enc.sticky ∨
      e.Ended Made (writtenBy issued) s.enc ∧ ∀ i, (s.slots i).job.st = .ok := by
  rcases sound.open_or_stopped with open_ | stopped
  · obtain ⟨pieces, issues, told⟩ := open_.writes
    exact .inl ⟨pieces, s.calls, 0, issues, by rw [told]; exact (List.append_nil _).symm,
      fun wrong => absurd wrong (Nat.not_lt_zero 0)⟩
  rcases stopped.told with ⟨broken, pieces, later, m, issues, results⟩ | ⟨fine, _⟩
  · exact .inl ⟨pieces, later, m, issues, results, fun _ => broken⟩
  rcases stopped.fed with ⟨broken, _⟩ | ⟨_, blocks, all, e₁, fed, tail⟩
  · exact (broken fine).elim
  refine .inr ⟨⟨fine, outputs, e₁.settled, ?_, ?_, ?_⟩, fun i => ?_⟩
  · have released := sound.lively.ring.released
    rwa [List.take_of_length_le (by rw [sound.lively.ring.taken]; exact all.symm.le), blocks]
      at released
  · rw [Encoder.feed_settled, fed]
    rfl
  · rw [Encoder.finishTail_settled, tail, fine]
    rfl
  · -- A job that failed would be in a slot that waits, and none does.
    by_contra bad
    rcases sound.lively.jobs i bad with broken | ⟨seq, live, early, _⟩
    · exact broken fine
    · have work := sound.lively.ring.work_le
      change s.workSeq ≤ s.fillSeq at work
      omega

end Parallel

section Alone

variable {zstd : Option CodecVt} {sink : Nat → Bytes → Bytes → XqStatus} {p : XqParams}
  {rawSizeHint : UInt64} {e e' : Encoder} {record : Option FileDict} {Good : Cctx → Prop}
  {Made : Bytes → EncJob → Prop} {issued done : List EncCall} {results : List XqStatus}

/-- What a single-threaded encoder has come to behind some of the issued calls. -/
inductive Encoder.Alone (e : Encoder) (Made : Bytes → EncJob → Prop)
    (issued done : List EncCall) : List XqStatus → Encoder → Prop
  | going {pieces : List Bytes} {e' : Encoder} : done = pieces.map .write →
    e.Gathered pieces.flatten (.ok, e') →
    Encoder.Alone e Made issued done (List.replicate pieces.length .ok) e'
  | failed {pieces : List Bytes} {later : List EncCall} {m : Nat} {e' : Encoder} :
    e'.sticky ≠ .ok → done = pieces.map .write ++ later → e.Came Made (writtenBy issued) e' →
    Encoder.Alone e Made issued done
      (List.replicate pieces.length .ok ++ List.replicate m e'.sticky) e'
  | finished {results : List XqStatus} {e' e₁ : Encoder} : e'.sticky = .ok → e'.finished = true →
    Encoder.feed (e.jobs (allBlocks e.blockSize (writtenBy issued))) e.settled = (.ok, e₁) →
    e₁.finishTail = (.ok, e'.settled) → Encoder.Alone e Made issued done results e'

/-- What has been gathered is some of the blocks that are written in the end. -/
theorem Encoder.Gathered.came (compresses : e.Compresses Good Made) (own : Good e.cctx)
    (ready : e.Ready) {xs : Bytes} {r : XqStatus × Encoder} (gathered : e.Gathered xs r)
    (later : Bytes) :
    r.2.sticky = r.1 ∧ e.Came Made (xs ++ later) r.2 := by
  -- The full blocks of a front are a front of all blocks.
  obtain ⟨blocks, front, fed, _⟩ := gathered.fed
  obtain ⟨_, sticky, _⟩ := Encoder.feed_keeps ready.good fed
  refine ⟨sticky, ⟨blocks, _, front.trans (fullBlocks_front_all xs later),
    Encoder.jobsFrom_made compresses own blocks, .inl ?_⟩⟩
  rw [sticky]
  exact fed.symm

/-- A whole run reports what it has come to, and a success is the end of the file. -/
theorem Encoder.RanAlone.ended (compresses : e.Compresses Good Made) (own : Good e.cctx)
    (ready : e.Ready) {xs : Bytes} {r : XqStatus × Encoder} (ran : e.RanAlone xs r) :
    r.2.sticky = r.1 ∧ (r.2.sticky ≠ .ok ∧ e.Came Made xs r.2 ∨
      r.2.sticky = .ok ∧ r.2.finished = true ∧ ∃ e₁,
        Encoder.feed (e.jobs (allBlocks e.blockSize xs)) e.settled = (.ok, e₁) ∧
          e₁.finishTail = (.ok, r.2.settled)) := by
  obtain ⟨blocks, front, ran, all⟩ := ran.fed
  have made := Encoder.jobsFrom_made compresses own blocks
  have themselves : List.Forall₂ (fun j j' : EncJob => j.st = .ok → j = j')
      (e.jobs blocks) (e.jobs blocks) := List.forall₂_same.mpr fun _ _ _ => rfl
  have sticky := (Encoder.feed_emits (e := e.settled) ready.good themselves).sticky
  have unfinished := Encoder.feed_finished (e := e.settled) (b := false) ready.unfinished
    (e.jobs blocks)
  generalize fed : Encoder.feed (e.jobs blocks) e.settled = r₁ at ran all sticky unfinished
  by_cases fine : r₁.1 = .ok
  · -- All blocks have been fed, and the end of the file decides.
    obtain ⟨_, e₁⟩ := r₁
    obtain rfl := fine
    obtain rfl := all rfl
    rw [andThen_ok] at ran
    have reported := Encoder.finishTail_sticky sticky
    have concluded := Encoder.finishTail_finished unfinished
    rw [← ran] at reported concluded
    refine ⟨reported, ?_⟩
    have tail : e₁.finishTail = (r.2.sticky, r.2.settled) := by
      rw [← ran, show r.2.sticky = r.1 from reported]
      rfl
    by_cases done : r.2.sticky = .ok
    · rw [done] at tail
      exact .inr ⟨done, concluded.trans (decide_eq_true (reported.symm.trans done)), e₁, fed, tail⟩
    · exact .inl ⟨done, ⟨_, _, List.prefix_rfl, made, .inr ⟨rfl, e₁, fed, tail⟩⟩⟩
  · rw [andThen_failed fine] at ran
    rw [← ran] at sticky fine
    refine ⟨sticky, .inl ⟨fun wrong => fine (sticky.symm.trans wrong),
      ⟨blocks, _, front, made, .inl ?_⟩⟩⟩
    refine fed.trans ?_
    rw [← ran, show r.2.sticky = r.1 from sticky]
    rfl

/-- One more call, behind those that have written. -/
theorem Encoder.Alone.step (compresses : e.Compresses Good Made) (own : Good e.cctx)
    (ready : e.Ready) {c : EncCall} {rest : List EncCall} (issues : issued = done ++ c :: rest)
    (no_free : c ≠ .free) (alone : e.Alone Made issued done results e') :
    e.Alone Made issued (done ++ [c]) (results ++ [(e'.answer c).1]) (e'.answer c).2 := by
  cases alone with
  | @going pieces _ writes gathered =>
    subst writes
    cases c with
    | free => exact (no_free rfl).elim
    | write buf =>
      have written : writtenBy issued = pieces.flatten ++ buf ++ writtenBy rest := by
        rw [issues, writtenBy_writes, writtenBy, List.append_assoc]
      have next := gathered.write ready.good ready.unfinished ready.positive buf
      show e.Alone Made issued _ (_ ++ [(e'.write buf).1]) (e'.write buf).2
      generalize e'.write buf = r at next
      by_cases fine : r.1 = .ok
      · -- The call succeeds, and one more piece has been written.
        have whole : (pieces ++ [buf]).flatten = pieces.flatten ++ buf := by
          rw [List.flatten_append, List.flatten_singleton]
        have going : e.Gathered (pieces ++ [buf]).flatten (.ok, r.2) := by
          rw [whole, ← fine]
          exact next
        have results : List.replicate pieces.length XqStatus.ok ++ [r.1] =
            List.replicate (pieces ++ [buf]).length .ok := by
          rw [fine, List.length_append, List.length_singleton, List.replicate_succ']
        rw [results]
        exact .going (by rw [List.map_append]; rfl) going
      · -- The call fails, and the failure is kept.
        obtain ⟨sticky, came⟩ := next.came compresses own ready (writtenBy rest)
        rw [← written] at came
        rw [← sticky] at fine ⊢
        exact .failed (m := 1) fine rfl came
    | finish =>
      -- The leftover and the tail follow the pieces written.
      have written : writtenBy issued = pieces.flatten := by
        rw [issues, writtenBy_writes]
        exact List.append_nil _
      have ran := gathered.finish ready.good ready.unfinished
      show e.Alone Made issued _ (_ ++ [e'.finish.1]) e'.finish.2
      generalize e'.finish = r at ran
      obtain ⟨reported, ended⟩ := ran.ended compresses own ready
      rcases ended with ⟨broken, came⟩ | ⟨fine, closed, e₁, fed, tail⟩
      · rw [← reported]
        exact .failed (m := 1) broken rfl (written ▸ came)
      · rw [← written] at fed
        exact .finished fine closed fed tail
  | @failed pieces later m _ broken writes came =>
    -- Both calls look at the sticky status first.
    have answered : e'.answer c = (e'.sticky, e') := by
      cases c with
      | free => exact (no_free rfl).elim
      | write buf => rw [Encoder.answer, Encoder.write, if_pos broken]
      | finish => rw [Encoder.answer, Encoder.finish, if_pos broken]
    rw [answered, List.append_assoc, ← List.replicate_succ']
    exact .failed broken (by rw [writes, List.append_assoc]) came
  | finished fine closed fed tail =>
    -- A finished encoder refuses every call and does not change.
    have answered : (e'.answer c).2 = e' := by
      cases c with
      | free => exact (no_free rfl).elim
      | write buf =>
        rw [Encoder.answer, Encoder.write, if_neg (not_not.mpr fine), if_pos closed]
      | finish => rw [Encoder.answer, Encoder.finish, if_neg (not_not.mpr fine), if_pos closed]
    rw [answered]
    exact .finished fine closed fed tail

/-- What a single-threaded encoder has come to behind the first calls of a client. -/
theorem Encoder.answers_alone (compresses : e.Compresses Good Made) (own : Good e.cctx)
    (ready : e.Ready) (fresh : e.raw = []) (no_free : .free ∉ issued) (n : Nat) :
    e.Alone Made issued (issued.take n) (e.answers (issued.take n)).1
      (e.answers (issued.take n)).2 := by
  -- The induction is on the number of calls made so far.
  induction n with
  | zero => exact @Encoder.Alone.going _ _ _ _ [] _ rfl (.start fresh)
  | succ n ih =>
    rcases Nat.lt_or_ge n issued.length with within | behind
    · rw [List.take_succ_eq_append_getElem within, Encoder.answers_snoc]
      have issues : issued = issued.take n ++ issued[n] :: issued.drop (n + 1) := by
        rw [List.getElem_cons_drop, List.take_append_drop]
      refine Encoder.Alone.step compresses own ready issues ?_ ih
      exact fun wrong => no_free (wrong ▸ List.getElem_mem within)
    · rw [List.take_of_length_le behind] at ih
      rwa [List.take_of_length_le (Nat.le_succ_of_le behind)]

/-- A single-threaded encoder has finished, or it reports a failure from then on. -/
theorem Encoder.Alone.outcome (compresses : e.Compresses Good Made) (own : Good e.cctx)
    (ready : e.Ready) (part : done <+: issued) (alone : e.Alone Made issued done results e') :
    StickyReports issued results e'.sticky ∨ e.Ended Made (writtenBy issued) e' ∧
      ∀ j ∈ e.jobs (allBlocks e.blockSize (writtenBy issued)), j.st = .ok := by
  -- An encoder that is still going has reported no failure, and no call has come behind one.
  obtain ⟨rest, issues⟩ := part
  cases alone with
  | @going pieces _ writes gathered =>
    exact .inl ⟨pieces, rest, 0, by rw [← issues, writes], (List.append_nil _).symm,
      fun wrong => absurd wrong (Nat.not_lt_zero 0)⟩
  | @failed pieces later m _ broken writes came =>
    exact .inl ⟨pieces, later ++ rest, m, by rw [← issues, writes, List.append_assoc], rfl,
      fun _ => broken⟩
  | finished fine closed fed tail =>
    exact .inr ⟨⟨fine, _, _, Encoder.jobsFrom_made compresses own _, fed, tail⟩,
      Encoder.feed_made (e := e.settled) ready.good (congrArg Prod.fst fed)⟩

theorem Encoder.Alone.came (compresses : e.Compresses Good Made) (own : Good e.cctx)
    (ready : e.Ready) (part : done <+: issued) (alone : e.Alone Made issued done results e') :
    e.Came Made (writtenBy issued) e' := by
  -- In each case the bytes written are in front of those that the client will have written.
  cases alone with
  | @going pieces _ writes gathered =>
    obtain ⟨rest, rfl⟩ := part
    rw [writes, writtenBy_writes]
    exact (gathered.came compresses own ready _).2
  | failed broken writes came => exact came
  | finished fine closed fed tail =>
    have ended : e.Ended Made (writtenBy issued) e' :=
      ⟨fine, _, _, Encoder.jobsFrom_made compresses own _, fed, tail⟩
    exact ended.came

end Alone

section Failures

variable {zstd : Option CodecVt} {sink : Nat → Bytes → Bytes → XqStatus} {p : XqParams}
  {rawSizeHint : UInt64} {e e' : Encoder} {record : Option FileDict} {Good : Cctx → Prop}
  {Made : Bytes → EncJob → Prop} {issued : List EncCall} {results : List XqStatus} {broken : Prop}

/-- What any run of an encoder has come to. -/
theorem Encoder.Run.outcome (fresh : e.Created zstd sink p rawSizeHint record)
    (compresses : e.Compresses Good Made) (own : Good e.cctx) (no_free : .free ∉ issued)
    (run : e.Run Good issued results e' broken) :
    e.Came Made (writtenBy issued) e' ∧
      (StickyReports issued results e'.sticky ∨
        e.Ended Made (writtenBy issued) e' ∧ ¬ broken) := by
  have ready := fresh.ready
  cases run with
  | single n =>
    have alone := Encoder.answers_alone compresses own ready fresh.raw no_free n
    have part := List.take_prefix n issued
    refine ⟨alone.came compresses own ready part, ?_⟩
    rcases alone.outcome compresses own ready part with reports | ⟨ended, made⟩
    · exact .inl reports
    · refine .inr ⟨ended, ?_⟩
      rintro ⟨j, member, bad⟩
      exact bad (made j member)
  | @parallel nthreads cctxs s many contexts reached =>
    have : NeZero nthreads := ⟨by omega⟩
    -- A job carries the block it was made of.
    have carries (cctx : Cctx) (block : Bytes) :
        ({ (compressJob e block cctx).1 with raw := block } : EncJob) =
          (compressJob e block cctx).1 := by
      have raw := compressJob_raw e block cctx
      generalize (compressJob e block cctx).1 = j at raw
      subst raw
      rfl
    have compresses : Xq.Compresses (fun cctx block => compressJob e block cctx) Good Made := by
      intro cctx block good
      dsimp only
      rw [carries]
      exact compresses cctx block good
    obtain ⟨inputs, outputs, sound⟩ := reached.sound compresses ready no_free contexts
    refine ⟨sound.came ready, ?_⟩
    rcases sound.outcome with reports | ⟨ended, made⟩
    · exact .inl reports
    · refine .inr ⟨ended, ?_⟩
      rintro ⟨i, bad⟩
      exact bad (made i)

/--
Whatever fails in a run of an encoder, single-threaded or parallel and in any interleaving, what has
been emitted is the front of the file that the run without failures emits, no sink call has followed
one that failed, and the calls behind the failure report it: no later one succeeds.

Compression is taken to be a function of a block's bytes where it succeeds, in contexts that it keeps
good.
-/
theorem failures_sticky {zstd : Option CodecVt} {m : Machine}
    {sink : Nat → Bytes → Bytes → XqStatus} {p : XqParams} {rawSizeHint : UInt64}
    {dict : Option XqDict} {e : Encoder}
    (created : encoderCreate zstd m sink p rawSizeHint dict = .ok e) {Good : Cctx → Prop}
    {f : Bytes → EncJob}
    (compression : ∀ cctx block, Good cctx →
      ((compressJob e block cctx).1.st = .ok → (compressJob e block cctx).1 = f block) ∧
        Good (compressJob e block cctx).2)
    (own : Good e.cctx) {issued : List EncCall} (no_free : .free ∉ issued)
    {results : List XqStatus} {e' : Encoder} {broken : Prop}
    (run : e.Run Good issued results e' broken) :
    ((e.failureFree f (writtenBy issued)).1 = .ok →
        e'.out <+: (e.failureFree f (writtenBy issued)).2.out) ∧
      (∀ v ∈ e'.verdicts.dropLast, v = .ok) ∧
      (e.Failed e' ∨ broken → StickyReports issued results e'.sticky) := by
  obtain ⟨record, fresh⟩ := encoderCreate_ok created
  have compresses : e.Compresses Good (MadeBy f) := compression
  obtain ⟨came, outcome⟩ := run.outcome fresh compresses own no_free
  refine ⟨fun done => ?_, came.verdicts fresh, fun failed => ?_⟩
  · rw [fresh.failureFree_out done]
    exact came.front fresh
  · -- A run that ends with success has no failure in it.
    rcases outcome with reports | ⟨ended, whole⟩
    · exact reports
    · exact (failed.elim (ended.flawless fresh) whole).elim

/-- A sink that only accepts the file header. -/
def headerSink (n : Nat) (_ _ : Bytes) : XqStatus := if n = 0 then .ok else .io

/-- Three bytes are written, and the sink refuses their block. -/
theorem failures_sticky_sink : ∃ e,
    encoderCreate none openMachine headerSink storedParams 3 none = .ok e ∧
      ((e.failureFree (fun block => (compressJob e block .null).1) [1, 2, 3]).1 = .ok →
        (e.answers [.write [1, 2, 3], .finish, .write [4]]).2.out <+:
          (e.failureFree (fun block => (compressJob e block .null).1) [1, 2, 3]).2.out) ∧
      (∀ v ∈ (e.answers [.write [1, 2, 3], .finish, .write [4]]).2.verdicts.dropLast, v = .ok) ∧
      StickyReports [.write [1, 2, 3], .finish, .write [4]]
        (e.answers [.write [1, 2, 3], .finish, .write [4]]).1
        (e.answers [.write [1, 2, 3], .finish, .write [4]]).2.sticky := by
  -- The run is evaluated: the status behind it is that of the sink.
  have broken : (encoderCreate none openMachine headerSink storedParams 3 none).toOption.map
      (fun e => (e.answers [.write [1, 2, 3], .finish, .write [4]]).2.sticky) = some .io := by
    decide +kernel
  cases created : encoderCreate none openMachine headerSink storedParams 3 none with
  | error failed =>
    rw [created] at broken
    cases broken
  | ok e =>
    rw [created] at broken
    have sticky := Option.some.inj broken
    obtain ⟨_, fresh⟩ := encoderCreate_ok created
    have codec : e.codec = storedVt := (Option.some.inj fresh.codec).symm
    have compression (cctx : Cctx) (block : Bytes) (_ : True) :
        ((compressJob e block cctx).1.st = .ok →
          (compressJob e block cctx).1 = (compressJob e block .null).1) ∧ True := by
      refine ⟨fun _ => compressJob_answer ?_, trivial⟩
      rw [codec]
      rfl
    have no_free : EncCall.free ∉ [.write [1, 2, 3], .finish, .write [4]] := by simp
    obtain ⟨front, verdicts, reports⟩ := failures_sticky created compression trivial no_free
      (.single 3)
    exact ⟨e, rfl, front, verdicts, reports (.inl (.inl (sticky.trans_ne (by decide))))⟩

end Failures

end Xq
