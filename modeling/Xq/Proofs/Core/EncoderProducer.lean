import Xq.Proofs.Core.Blocking
import Xq.Proofs.Core.EncoderWorkers

/-! The producer of a parallel encoder: at each of its places, what it has submitted are the blocks of
what has been written, and what it has emitted are their jobs in order. -/

namespace Xq

open Lib

variable {γ : Type} {nthreads : Nat}

section Stages

variable {e₀ : Encoder} {issued : List EncCall} {inputs : List Bytes} {outputs : List EncJob}
  {s s' : EncMt γ nthreads}

/-- The bytes written in front of the first call that does not write. -/
def writtenBy : List EncCall → Bytes
  | .write buf :: rest => buf ++ writtenBy rest
  | .finish :: _ => []
  | .free :: _ => []
  | [] => []

theorem writtenBy_writes (pieces : List Bytes) (rest : List EncCall) :
    writtenBy (pieces.map .write ++ rest) = pieces.flatten ++ writtenBy rest := by
  -- The induction is on the pieces.
  induction pieces with
  | nil => rfl
  | cons piece pieces ih =>
    rw [List.map_cons, List.cons_append, writtenBy, ih, List.flatten_cons, List.append_assoc]

/-- All calls so far have written, and have succeeded. -/
structure EncMt.Open (issued : List EncCall) (s : EncMt γ nthreads) : Prop where
  writes : ∃ pieces : List Bytes, issued = pieces.map .write ++ s.calls ∧
    s.results = List.replicate pieces.length .ok

/-- What is being gathered in the current slot's buffer, when `xs` has been written. -/
structure EncMt.Gathering (size : Nat) (xs : Bytes) (inputs : List Bytes)
    (s : EncMt γ nthreads) : Prop where
  blocks : inputs = fullBlocks size xs
  buffer : (s.slots s.cur).raw.take s.rawLen = leftover size xs
  rawLen : s.rawLen = (leftover size xs).length
  cur : s.cur = s.fillSeq % s.nslots
  room : s.fillSeq < s.emitSeq + s.nslots

/-- What has been submitted when `flush_block` returns to its caller. -/
def EncMt.Pending (size : Nat) (issued : List EncCall) (inputs : List Bytes)
    (s : EncMt γ nthreads) : FlushFrom → Prop
  | .write rest => ∃ buf later xs, s.calls = .write buf :: later ∧
    xs ++ rest ++ writtenBy later = writtenBy issued ∧ inputs = fullBlocks size xs ∧
    leftover size xs = [] ∧ s.rawLen = 0
  | .finish => ∃ later, s.calls = .finish :: later ∧ inputs = allBlocks size (writtenBy issued)

def EmitFrom.flush : EmitFrom → FlushFrom
  | .submit k => k
  | .drain => .finish

/-- The encoder has failed, or it has finished. -/
structure EncMt.Stopped (e₀ : Encoder) (issued : List EncCall) (inputs : List Bytes)
    (outputs : List EncJob) (s : EncMt γ nthreads) : Prop where
  calls : s.calls = issued.drop s.results.length
  within : inputs <+: allBlocks e₀.blockSize (writtenBy issued)
  fed : s.enc.sticky ≠ .ok ∧ Encoder.feed outputs e₀ = (s.enc.sticky, s.enc) ∨
    EncCall.finish ∈ issued ∧ inputs = allBlocks e₀.blockSize (writtenBy issued) ∧
      s.emitSeq = s.fillSeq ∧
      ∃ e, Encoder.feed outputs e₀ = (.ok, e) ∧ e.finishTail = (s.enc.sticky, s.enc)
  told : (s.enc.sticky ≠ .ok ∧ ∃ (pieces : List Bytes) (later : List EncCall) (m : Nat),
      issued = pieces.map .write ++ later ∧ s.results =
        List.replicate pieces.length .ok ++ List.replicate m s.enc.sticky) ∨
    (s.enc.sticky = .ok ∧ s.enc.finished = true)

/-- What holds at each of the producer's places. -/
def EncMt.Stage (e₀ : Encoder) (issued : List EncCall) (inputs : List Bytes)
    (outputs : List EncJob) (s : EncMt γ nthreads) : Producer → Prop
  | .idle => (s.Open issued ∧ Encoder.feed outputs e₀ = (.ok, s.enc) ∧
      ∃ xs, xs ++ writtenBy s.calls = writtenBy issued ∧ s.Gathering e₀.blockSize xs inputs) ∨
    s.Stopped e₀ issued inputs outputs
  | .copying rest => s.Open issued ∧ Encoder.feed outputs e₀ = (.ok, s.enc) ∧
    ∃ buf later xs, s.calls = .write buf :: later ∧
      xs ++ rest ++ writtenBy later = writtenBy issued ∧ s.Gathering e₀.blockSize xs inputs
  | .submitting n k => s.Open issued ∧ Encoder.feed outputs e₀ = (.ok, s.enc) ∧
    s.cur = s.fillSeq % s.nslots ∧ s.fillSeq < s.emitSeq + s.nslots ∧
    s.Pending e₀.blockSize issued (inputs ++ [(s.slots s.cur).raw.take n]) k
  | .checking k => s.Open issued ∧ Encoder.feed outputs e₀ = (.ok, s.enc) ∧
    s.Pending e₀.blockSize issued inputs k
  | .taking k => s.Open issued ∧ Encoder.feed outputs e₀ = (.ok, s.enc) ∧
    s.Pending e₀.blockSize issued inputs k.flush ∧ s.emitSeq < s.fillSeq
  | .waiting k => s.Open issued ∧ Encoder.feed outputs e₀ = (.ok, s.enc) ∧
    s.Pending e₀.blockSize issued inputs k.flush ∧ s.emitSeq < s.fillSeq ∧
    (s.slot s.emitSeq).state ≠ .done
  | .woken k => s.Open issued ∧ Encoder.feed outputs e₀ = (.ok, s.enc) ∧
    s.Pending e₀.blockSize issued inputs k.flush ∧ s.emitSeq < s.fillSeq
  | .emitting k => s.Open issued ∧ Encoder.feed outputs e₀ = (.ok, s.enc) ∧
    s.Pending e₀.blockSize issued inputs k.flush ∧ s.emitSeq < s.fillSeq ∧
    (s.slot s.emitSeq).state = .done
  | .freeing st k => s.Open issued ∧
    Encoder.feed (outputs ++ [(s.slot s.emitSeq).finished]) e₀ = (st, s.enc) ∧
    s.Pending e₀.blockSize issued inputs k.flush ∧ s.emitSeq < s.fillSeq ∧
    (s.slot s.emitSeq).state = .done
  | .draining => s.Open issued ∧ Encoder.feed outputs e₀ = (.ok, s.enc) ∧
    s.Pending e₀.blockSize issued inputs .finish
  | .closing => s.Open issued ∧ Encoder.feed outputs e₀ = (.ok, s.enc) ∧
    s.Pending e₀.blockSize issued inputs .finish ∧ s.emitSeq = s.fillSeq
  | .joining => False

theorem EncMt.Open.frame (open_ : s.Open issued) (calls : s'.calls = s.calls)
    (results : s'.results = s.results) : s'.Open issued := by
  -- Both fields are about the calls and the results alone.
  obtain ⟨pieces, issues, told⟩ := open_.writes
  exact ⟨pieces, by rw [issues, calls], by rw [results, told]⟩

theorem EncMt.Pending.frame {size : Nat} {k : FlushFrom} (pending : s.Pending size issued inputs k)
    (calls : s'.calls = s.calls) (rawLen : s'.rawLen = s.rawLen) :
    s'.Pending size issued inputs k := by
  -- What is pending is read off the calls and the gathered length.
  cases k with
  | write rest =>
    obtain ⟨buf, later, xs, here, whole, blocks, none_left, empty⟩ := pending
    exact ⟨buf, later, xs, calls.trans here, whole, blocks, none_left, rawLen.trans empty⟩
  | finish =>
    obtain ⟨later, here, blocks⟩ := pending
    exact ⟨later, calls.trans here, blocks⟩

/-- What is submitted are blocks of what is written. -/
theorem EncMt.Pending.within {size : Nat} {k : FlushFrom}
    (pending : s.Pending size issued inputs k) :
    inputs <+: allBlocks size (writtenBy issued) := by
  cases k with
  | write rest =>
    -- Blocks of what has been copied so far are blocks at the front of the whole.
    obtain ⟨_, later, xs, _, whole, rfl, _, _⟩ := pending
    rw [← whole, List.append_assoc]
    exact fullBlocks_front_all xs _
  | finish =>
    -- Behind the last flush everything is in the ring.
    obtain ⟨_, _, rfl⟩ := pending
    exact List.prefix_rfl

theorem EncMt.Gathering.worker {size : Nat} {xs : Bytes} (gathering : s.Gathering size xs inputs)
    (frame : s.WorkerFrame s') : s'.Gathering size xs inputs := by
  -- The producer's counters and the buffer of the current slot are as they were.
  refine ⟨gathering.blocks, ?_, frame.rawLen.trans gathering.rawLen, ?_, ?_⟩
  · rw [frame.cur, frame.rawLen, (frame.raw s.cur).1]
    exact gathering.buffer
  · rw [frame.cur, frame.fillSeq]
    exact gathering.cur
  · rw [frame.fillSeq, frame.emitSeq]
    exact gathering.room

theorem EncMt.Stopped.worker (stopped : s.Stopped e₀ issued inputs outputs)
    (frame : s.WorkerFrame s') : s'.Stopped e₀ issued inputs outputs := by
  -- All of it is about the encoder, the results and the ring's two outer counters.
  refine ⟨?_, stopped.within, ?_, ?_⟩
  · rw [frame.calls, frame.results]
    exact stopped.calls
  · rw [frame.enc, frame.emitSeq, frame.fillSeq]
    exact stopped.fed
  · rw [frame.enc, frame.results]
    exact stopped.told

theorem EncMt.WorkerFrame.some_left (frame : s.WorkerFrame s') (left : s.emitSeq < s.fillSeq) :
    s'.emitSeq < s'.fillSeq := by
  -- A worker moves neither counter.
  rw [frame.emitSeq, frame.fillSeq]
  exact left

/-- The producer's view of a state in which it stays where it is. -/
theorem EncMt.Stage.stays (stage : s.Stage e₀ issued inputs outputs s.producer)
    (frame : s.WorkerFrame s')
    (waits : ∀ k, s.producer = .waiting k →
      (s'.slot s.emitSeq).state = (s.slot s.emitSeq).state) :
    s'.Stage e₀ issued inputs outputs s.producer := by
  -- At every place the calls made and the jobs fed are the same, and so is what is pending.
  have open_ (kept : s.Open issued) : s'.Open issued := kept.frame frame.calls frame.results
  have fed {jobs : List EncJob} {st : XqStatus} (kept : Encoder.feed jobs e₀ = (st, s.enc)) :
      Encoder.feed jobs e₀ = (st, s'.enc) := frame.enc ▸ kept
  have pending {blocks : List Bytes} {k : FlushFrom}
      (kept : s.Pending e₀.blockSize issued blocks k) : s'.Pending e₀.blockSize issued blocks k :=
    kept.frame frame.calls frame.rawLen
  cases place : s.producer with
  | idle =>
    rw [place] at stage
    rcases stage with ⟨opened, kept, xs, whole, gathering⟩ | stopped
    · exact .inl ⟨open_ opened, fed kept, xs, frame.calls ▸ whole, gathering.worker frame⟩
    · exact .inr (stopped.worker frame)
  | copying rest =>
    rw [place] at stage
    obtain ⟨opened, kept, buf, later, xs, here, whole, gathering⟩ := stage
    exact ⟨open_ opened, fed kept, buf, later, xs, frame.calls.trans here, whole,
      gathering.worker frame⟩
  | submitting n k =>
    -- The block about to be submitted is still in the current slot.
    rw [place] at stage
    obtain ⟨opened, kept, here, room, waiting⟩ := stage
    refine ⟨open_ opened, fed kept, ?_, ?_, ?_⟩
    · rw [frame.cur, frame.fillSeq]
      exact here
    · rw [frame.fillSeq, frame.emitSeq]
      exact room
    · rw [frame.cur, (frame.raw s.cur).1]
      exact pending waiting
  | checking k =>
    rw [place] at stage
    obtain ⟨opened, kept, waiting⟩ := stage
    exact ⟨open_ opened, fed kept, pending waiting⟩
  | taking k =>
    rw [place] at stage
    obtain ⟨opened, kept, waiting, left⟩ := stage
    exact ⟨open_ opened, fed kept, pending waiting, frame.some_left left⟩
  | waiting k =>
    -- A producer that still waits has been told of nothing, so the front is not done.
    rw [place] at stage
    obtain ⟨opened, kept, waiting, left, undone⟩ := stage
    refine ⟨open_ opened, fed kept, pending waiting, frame.some_left left, ?_⟩
    rw [frame.emitSeq, waits k place]
    exact undone
  | woken k =>
    rw [place] at stage
    obtain ⟨opened, kept, waiting, left⟩ := stage
    exact ⟨open_ opened, fed kept, pending waiting, frame.some_left left⟩
  | emitting k =>
    -- A worker does not touch a slot that is done.
    rw [place] at stage
    obtain ⟨opened, kept, waiting, left, done⟩ := stage
    refine ⟨open_ opened, fed kept, pending waiting, frame.some_left left, ?_⟩
    rw [frame.emitSeq, frame.front done]
    exact done
  | freeing st k =>
    -- Nor does it change the job that has just been emitted from it.
    rw [place] at stage
    obtain ⟨opened, kept, waiting, left, done⟩ := stage
    refine ⟨open_ opened, ?_, pending waiting, frame.some_left left, ?_⟩
    · rw [frame.emitSeq, frame.front done]
      exact fed kept
    · rw [frame.emitSeq, frame.front done]
      exact done
  | draining =>
    rw [place] at stage
    obtain ⟨opened, kept, waiting⟩ := stage
    exact ⟨open_ opened, fed kept, pending waiting⟩
  | closing =>
    rw [place] at stage
    obtain ⟨opened, kept, waiting, all⟩ := stage
    refine ⟨open_ opened, fed kept, pending waiting, ?_⟩
    rw [frame.emitSeq, frame.fillSeq]
    exact all
  | joining =>
    rw [place] at stage
    exact stage

/-- The producer's view of a state, which no step of a worker disturbs. -/
theorem EncMt.Stage.worker (stage : s.Stage e₀ issued inputs outputs s.producer)
    (frame : s.WorkerFrame s') : s'.Stage e₀ issued inputs outputs s'.producer := by
  rcases frame.producer with ⟨same, waits⟩ | ⟨k, before, after⟩
  · rw [same]
    exact stage.stays frame waits
  · -- The worker's broadcast has woken the producer, and it will look at the front again.
    rw [before] at stage
    obtain ⟨open_, fed, pending, left, _⟩ := stage
    rw [after]
    exact ⟨open_.frame frame.calls frame.results, frame.enc ▸ fed,
      pending.frame frame.calls frame.rawLen, frame.some_left left⟩

end Stages

section Producing

variable {Good : γ → Prop} {Made : Bytes → EncJob → Prop} {e₀ : Encoder} {issued : List EncCall}
  {inputs : List Bytes} {outputs : List EncJob} {s s' : EncMt γ nthreads}

/-- An encoder that may be written to. -/
structure Encoder.Ready (e : Encoder) : Prop where
  good : e.sticky = .ok
  unfinished : e.finished = false
  positive : 0 < e.blockSize

/-- What feeding jobs with success leaves of an encoder. -/
theorem Encoder.Ready.fed (ready : e₀.Ready) {jobs : List EncJob} {st : XqStatus} {e : Encoder}
    (fed : Encoder.feed jobs e₀ = (st, e)) :
    e.sticky = st ∧ e.finished = false ∧ e.blockSize = e₀.blockSize := by
  -- The lemma on two lists of jobs, at one list and itself.
  have themselves : List.Forall₂ (fun j j' : EncJob => j.st = .ok → j = j') jobs jobs :=
    List.forall₂_same.mpr fun _ _ _ => rfl
  have emits := Encoder.feed_emits ready.good themselves
  have finished := Encoder.feed_finished ready.unfinished jobs
  rw [fed] at emits finished
  exact ⟨emits.sticky, finished, congrArg Setup.blockSize emits.setup⟩

/-- One more job is emitted behind those before. -/
theorem Encoder.feed_snoc {jobs : List EncJob} {e : Encoder} (j : EncJob)
    (fed : Encoder.feed jobs e₀ = (.ok, e)) : Encoder.feed (jobs ++ [j]) e₀ = e.emitJob j := by
  -- A feed that has succeeded goes on with the next job.
  rw [Encoder.feed_append, fed]
  show andThen (e.emitJob j) (Encoder.feed []) = _
  by_cases fine : (e.emitJob j).1 = .ok
  · rw [andThen, if_pos fine, Encoder.feed, ← fine]
  · -- A failing job is the last one either way.
    rw [andThen_failed fine]

/-- The invariant of a parallel encoder. -/
structure EncMt.Sound (Good : γ → Prop) (Made : Bytes → EncJob → Prop) (e₀ : Encoder)
    (issued : List EncCall) (inputs : List Bytes) (outputs : List EncJob)
    (s : EncMt γ nthreads) : Prop where
  lively : s.Lively Good Made inputs outputs
  stage : s.Stage e₀ issued inputs outputs s.producer

/-- A step that only concerns the producer leaves ring and workers as they are. -/
theorem EncMt.Lively.producing (lively : s.Lively Good Made inputs outputs) {rawLen : Nat}
    {cur : Nat} {producer : Producer} {calls : List EncCall} {results : List XqStatus} :
    EncMt.Lively Good Made inputs outputs { s with
      rawLen := rawLen, cur := cur, producer := producer, calls := calls, results := results } :=
  ⟨lively.ring, lively.contexts, lively.awake, lively.open_, lively.working, lively.jobs⟩

/-- A call that writes returns with success. -/
theorem EncMt.Open.ret_write (open_ : s.Open issued) {buf : Bytes} {later : List EncCall}
    (calls : s.calls = .write buf :: later) : (s.ret .ok).Open issued := by
  -- The call moves from those outstanding to those that have succeeded.
  obtain ⟨pieces, issues, told⟩ := open_.writes
  refine ⟨pieces ++ [buf], ?_, ?_⟩
  · show issued = _ ++ s.calls.tail
    rw [issues, calls, List.map_append, List.append_assoc]
    rfl
  · show s.results ++ [.ok] = _
    rw [told, List.length_append, List.length_singleton, List.replicate_succ']

/-- A call fails, and the encoder with it. -/
theorem EncMt.Open.ret_failed (open_ : s.Open issued)
    (failed : s.enc.sticky ≠ .ok)
    (within : inputs <+: allBlocks e₀.blockSize (writtenBy issued))
    (fed : s.enc.sticky ≠ .ok ∧ Encoder.feed outputs e₀ = (s.enc.sticky, s.enc) ∨
      EncCall.finish ∈ issued ∧ inputs = allBlocks e₀.blockSize (writtenBy issued) ∧
        s.emitSeq = s.fillSeq ∧
        ∃ e, Encoder.feed outputs e₀ = (.ok, e) ∧ e.finishTail = (s.enc.sticky, s.enc)) :
    (s.ret s.enc.sticky).Stopped e₀ issued inputs outputs := by
  -- The failing call is the first one that does not report success.
  obtain ⟨pieces, issues, told⟩ := open_.writes
  refine ⟨?_, within, fed, .inl ⟨failed, pieces, s.calls, 1, issues, ?_⟩⟩
  · -- The calls left are those behind as many as have returned.
    show s.calls.tail = issued.drop (s.results ++ [s.enc.sticky]).length
    rw [issues, told, List.length_append, List.length_replicate, List.length_singleton,
      ← List.drop_drop, List.drop_left' (by rw [List.length_map]), List.drop_one]
  · show s.results ++ [s.enc.sticky] = _
    rw [told]
    rfl

/-- A piece has been copied behind what the current slot's buffer holds. -/
def EncMt.copied (s : EncMt γ nthreads) (piece : Bytes) : EncMt γ nthreads :=
  { s with
    slots := Function.update s.slots s.cur
      { s.slots s.cur with raw := (s.slots s.cur).raw.take s.rawLen ++ piece }
    rawLen := s.rawLen + piece.length }

/-- A round of the copying loop takes what the block has room for. -/
theorem EncMt.copy_eq {rest : Bytes} (some_byte : rest ≠ []) {take : Nat}
    (taken : (if rest.length < s.enc.blockSize - s.rawLen then rest.length
      else s.enc.blockSize - s.rawLen) = take) (piece : (rest.take take).length = take) :
    s.copy rest = if s.rawLen + take = s.enc.blockSize then
        (s.copied (rest.take take)).flush (.write (rest.drop take))
      else { s.copied (rest.take take) with producer := .copying (rest.drop take) } := by
  -- The two sides differ in how the length of the piece is written.
  rw [EncMt.copy, if_neg some_byte, EncMt.copied, piece]
  dsimp only
  rw [taken]

/-- The buffer being filled is behind all submissions, so nobody else sees it change. -/
theorem EncMt.Lively.copied (lively : s.Lively Good Made inputs outputs)
    (cur : s.cur = s.fillSeq % s.nslots) (room : s.fillSeq < s.emitSeq + s.nslots)
    (piece : Bytes) : (s.copied piece).Lively Good Made inputs outputs := by
  -- Only the buffer of one slot changes, and a job stays where it is.
  refine ⟨?_, lively.contexts, lively.awake, lively.open_, lively.working, fun i failed => ?_⟩
  · -- The ring allows scribbling on the slot behind its last submission.
    have slots := s.ring_setSlot s.fillSeq
      { s.slots s.cur with raw := (s.slots s.cur).raw.take s.rawLen ++ piece }
    have same : (s.copied piece).ring = (s.setSlot s.fillSeq
        { s.slots s.cur with raw := (s.slots s.cur).raw.take s.rawLen ++ piece }).ring := by
      rw [EncMt.setSlot, ← cur]
      rfl
    rw [same, slots]
    exact lively.ring.scribble room _
  · refine lively.jobs i ?_
    change (Function.update s.slots s.cur _ i).job.st ≠ .ok at failed
    rw [Function.update_apply] at failed
    split at failed
    · rename_i here
      rw [here]
      exact failed
    · exact failed

/-- The buffer after a piece has been copied. -/
theorem EncMt.Gathering.copied {size : Nat} {xs : Bytes} (gathering : s.Gathering size xs inputs)
    (piece : Bytes) :
    (((s.copied piece).slots s.cur).raw).take (s.rawLen + piece.length) =
      leftover size xs ++ piece := by
  -- The buffer held the leftover bytes, and the piece now stands behind them.
  show ((Function.update s.slots s.cur _ s.cur).raw).take _ = _
  rw [Function.update_self]
  show ((s.slots s.cur).raw.take s.rawLen ++ piece).take _ = _
  rw [gathering.buffer]
  refine List.take_of_length_le ?_
  rw [List.length_append, gathering.rawLen]

/-- Copying goes on with what the block has room for. -/
theorem EncMt.Sound.copy (ready : e₀.Ready) {rest : Bytes}
    (sound : s.Sound Good Made e₀ issued inputs outputs) (place : s.producer = .copying rest) :
    (s.copy rest).Sound Good Made e₀ issued inputs outputs := by
  obtain ⟨lively, stage⟩ := sound
  rw [place] at stage
  obtain ⟨open_, fed, buf, later, xs, calls, whole, gathering⟩ := stage
  obtain ⟨sticky, _, size⟩ := ready.fed fed
  by_cases empty : rest = []
  · -- All bytes of the call are copied, and it returns.
    subst empty
    rw [EncMt.copy, if_pos rfl]
    refine ⟨lively.producing, .inl ⟨open_.ret_write calls, fed, xs, ?_, ?_⟩⟩
    · show xs ++ writtenBy s.calls.tail = _
      rw [calls, ← whole, List.append_nil]
      rfl
    · exact ⟨gathering.blocks, gathering.buffer, gathering.rawLen, gathering.cur, gathering.room⟩
  -- Otherwise a piece goes into the buffer, as much as the block has room for.
  generalize taken : (if rest.length < s.enc.blockSize - s.rawLen then rest.length
    else s.enc.blockSize - s.rawLen) = take
  have short := leftover_short xs ready.positive
  have gathered := gathering.rawLen
  have bounds : take ≤ rest.length ∧ take ≤ e₀.blockSize - s.rawLen := by
    rw [size] at taken
    subst taken
    split <;> omega
  have piece : (rest.take take).length = take := by
    rw [List.length_take]
    omega
  rw [EncMt.copy_eq empty taken piece, size]
  -- The piece moves from the bytes to be copied to those that have been.
  have going : xs ++ rest.take take ++ rest.drop take ++ writtenBy later = writtenBy issued := by
    rw [List.append_assoc xs, List.take_append_drop]
    exact whole
  have lively' := lively.copied gathering.cur gathering.room (rest.take take)
  have buffer := gathering.copied (rest.take take)
  by_cases fills : s.rawLen + take = e₀.blockSize
  · -- The block is full, and goes to the ring.
    rw [if_pos fills]
    have blocks := blocks_filled xs ready.positive
      (show (leftover e₀.blockSize xs).length + (rest.take take).length = e₀.blockSize by omega)
    rw [EncMt.flush, if_neg (not_not.mpr (show (s.copied _).enc.sticky = .ok from sticky))]
    refine ⟨lively'.producing, open_.frame rfl rfl, fed, gathering.cur, gathering.room, buf, later,
      _, calls, going, ?_, blocks.2, rfl⟩
    show inputs ++ [((s.copied (rest.take take)).slots s.cur).raw.take
      (s.rawLen + (rest.take take).length)] = _
    rw [buffer, blocks.1, gathering.blocks]
  · -- The block has room left, and the piece stays in the leftover.
    rw [if_neg fills]
    have blocks := blocks_short xs
      (show (leftover e₀.blockSize xs).length + (rest.take take).length < e₀.blockSize by omega)
    refine ⟨lively'.producing, open_.frame rfl rfl, fed, buf, later, _, calls, going, ?_⟩
    refine ⟨?_, ?_, ?_, gathering.cur, gathering.room⟩
    · rw [blocks.1, gathering.blocks]
    · rw [blocks.2]
      exact buffer
    · rw [blocks.2, List.length_append]
      show s.rawLen + (rest.take take).length = _
      rw [gathered]

/-- The gathered block is handed over to the ring. -/
def EncMt.submitted (s : EncMt γ nthreads) (n : Nat) (k : FlushFrom) : EncMt γ nthreads :=
  { s.setSlot s.fillSeq { s.slot s.fillSeq with rawLen := n, state := .ready } with
    fillSeq := s.fillSeq + 1, producer := .checking k }

theorem EncMt.Sound.submitted {n : Nat} {k : FlushFrom}
    (sound : s.Sound Good Made e₀ issued inputs outputs) (place : s.producer = .submitting n k)
    (awake : ∃ i, s.workers i ≠ .asleep) :
    (s.submitted n k).Sound Good Made e₀ issued (inputs ++ [(s.slots s.cur).raw.take n])
      outputs := by
  -- The slot holds the gathered block, so the ring's list of inputs grows by it.
  obtain ⟨lively, stage⟩ := sound
  rw [place] at stage
  obtain ⟨open_, fed, cur, room, pending⟩ := stage
  have block : (s.slots s.cur).raw.take n =
      EncSlot.block { s.slot s.fillSeq with rawLen := n, state := .ready } := by
    rw [cur]
    rfl
  refine ⟨⟨?_, lively.contexts, fun _ => awake, lively.open_, lively.working, fun i failed => ?_⟩,
    open_.frame rfl rfl, fed, pending.frame rfl rfl⟩
  · -- The ring takes the block in.
    have slots := s.ring_setSlot s.fillSeq
      { s.slot s.fillSeq with rawLen := n, state := .ready }
    have taken := lively.ring.submit room
      (s := EncSlot.ringSlot { s.slot s.fillSeq with rawLen := n, state := .ready }) rfl
    rw [block]
    change SlotRing.Inv Made { s.ring.put s.fillSeq _ with fill := s.fillSeq + 1 } _ _ at taken
    rw [← slots] at taken
    exact taken
  · -- No slot's job changes.
    refine lively.jobs i ?_
    have job := EncMt.setSlot_job (s := s) s.fillSeq
      { s.slot s.fillSeq with rawLen := n, state := .ready } rfl i
    rwa [← job]

/-- Waking one worker up leaves everything else as it is. -/
theorem EncMt.Sound.roused (sound : s.Sound Good Made e₀ issued inputs outputs)
    {i : Fin nthreads} (asleep : s.workers i = .asleep) :
    EncMt.Sound Good Made e₀ issued inputs outputs
      { s with workers := Function.update s.workers i .top } := by
  -- A sleeping worker holds no claim, so the ring does not notice.
  obtain ⟨lively, stage⟩ := sound
  have free : (s.workers i).claim = none := by
    rw [asleep]
    rfl
  refine ⟨⟨?_, lively.contexts, fun _ => s.still_awake (by rintro ⟨⟩), lively.open_,
    lively.still_working (by rintro ⟨⟩), lively.jobs⟩, ?_⟩
  · rw [s.ring_idle free rfl]
    exact lively.ring
  · exact stage.worker ⟨rfl, rfl, rfl, rfl, rfl, rfl, rfl, fun _ => ⟨rfl, rfl⟩, fun _ => rfl,
      .inl ⟨rfl, fun _ _ => rfl⟩⟩

/-- Whichever worker the signal wakes up, the block is in the ring. -/
theorem EncMt.Sound.submit [NeZero nthreads] {n : Nat} {k : FlushFrom}
    {signalled : Option (Fin nthreads)}
    (sound : s.Sound Good Made e₀ issued inputs outputs) (place : s.producer = .submitting n k)
    (stepped : (s.submitted n k).signalWork signalled = some s') :
    s'.Sound Good Made e₀ issued (inputs ++ [(s.slots s.cur).raw.take n]) outputs := by
  cases signalled with
  | none =>
    rw [EncMt.signalWork] at stepped
    by_cases up : ∀ i, (s.submitted n k).workers i ≠ .asleep
    · rw [if_pos up] at stepped
      -- Nobody is asleep, and there is at least one worker.
      obtain rfl := Option.some.inj stepped
      exact sound.submitted place ⟨0, up 0⟩
    · rw [if_neg up] at stepped
      cases stepped
  | some i =>
    rw [EncMt.signalWork] at stepped
    by_cases asleep : (s.submitted n k).workers i = .asleep
    · rw [if_pos asleep] at stepped
      obtain rfl := Option.some.inj stepped
      -- It makes no difference whether the worker wakes up before the block is there.
      have roused := sound.roused (i := i) asleep
      exact roused.submitted place (s.still_awake (by rintro ⟨⟩))
    · rw [if_neg asleep] at stepped
      cases stepped

theorem EncMt.nslots_pos [NeZero nthreads] (s : EncMt γ nthreads) : 0 < s.nslots :=
  Nat.mul_pos (NeZero.pos nthreads) (by decide)

/-- `mt_submit` comes to the head of its loop. -/
theorem EncMt.Sound.check [NeZero nthreads] {k : FlushFrom}
    (sound : s.Sound Good Made e₀ issued inputs outputs) (place : s.producer = .checking k) :
    EncMt.Sound Good Made e₀ issued inputs outputs
      (if s.fillSeq - s.emitSeq ≥ s.nslots then { s with producer := .taking (.submit k) }
        else s.flushed k) := by
  -- The two tests of the loop: emit while the ring is full, and then go on in the next slot.
  obtain ⟨lively, stage⟩ := sound
  rw [place] at stage
  obtain ⟨open_, fed, pending⟩ := stage
  have work := lively.ring.emit_le
  have fill := lively.ring.work_le
  change s.emitSeq ≤ s.workSeq at work
  change s.workSeq ≤ s.fillSeq at fill
  by_cases full : s.fillSeq - s.emitSeq ≥ s.nslots
  · -- A full ring is not empty, so there is something to emit.
    rw [if_pos full]
    refine ⟨lively.producing, open_.frame rfl rfl, fed, pending.frame rfl rfl, ?_⟩
    show s.emitSeq < s.fillSeq
    have := s.nslots_pos
    omega
  · rw [if_neg full]
    cases k with
    | write rest =>
      -- The next slot is free, and nothing has been gathered in it yet.
      obtain ⟨buf, later, xs, calls, whole, blocks, none_left, empty⟩ := pending
      refine ⟨lively.producing, open_.frame rfl rfl, fed, buf, later, xs, calls, whole, blocks, ?_,
        ?_, rfl, ?_⟩
      · show List.take s.rawLen _ = _
        rw [empty, none_left, List.take_zero]
      · show s.rawLen = _
        rw [empty, none_left, List.length_nil]
      · show s.fillSeq < s.emitSeq + s.nslots
        omega
    | finish => exact ⟨lively.producing, open_.frame rfl rfl, fed, pending⟩

/-- Waiting for the front ends when it is done. -/
theorem EncMt.Sound.await {k : EmitFrom} (lively : s.Lively Good Made inputs outputs)
    (waits : s.Open issued ∧ Encoder.feed outputs e₀ = (.ok, s.enc) ∧
      s.Pending e₀.blockSize issued inputs k.flush ∧ s.emitSeq < s.fillSeq) :
    (s.awaitDone k).Sound Good Made e₀ issued inputs outputs := by
  -- Either side of the test says exactly what the next place needs.
  obtain ⟨open_, fed, pending, some_left⟩ := waits
  rw [EncMt.awaitDone]
  by_cases done : (s.slot s.emitSeq).state = .done
  · rw [if_pos done]
    exact ⟨lively.producing, open_.frame rfl rfl, fed, pending.frame rfl rfl, some_left, done⟩
  · rw [if_neg done]
    exact ⟨lively.producing, open_.frame rfl rfl, fed, pending.frame rfl rfl, some_left, done⟩

/-- The job at the front is emitted, outside the lock. -/
theorem EncMt.Sound.emit {k : EmitFrom} (ready : e₀.Ready)
    (sound : s.Sound Good Made e₀ issued inputs outputs) (place : s.producer = .emitting k) :
    EncMt.Sound Good Made e₀ issued inputs outputs
      { s with
        enc := (s.enc.emitJob (s.slot s.emitSeq).finished).2
        producer := .freeing (s.enc.emitJob (s.slot s.emitSeq).finished).1 k } := by
  -- The job fed to the encoder next is the one in the front slot.
  obtain ⟨lively, stage⟩ := sound
  rw [place] at stage
  obtain ⟨open_, fed, pending, some_left, done⟩ := stage
  refine ⟨⟨lively.ring, lively.contexts, lively.awake, lively.open_, lively.working,
    fun i failed => ?_⟩, open_.frame rfl rfl, Encoder.feed_snoc _ fed, pending.frame rfl rfl,
    some_left, done⟩
  -- While the encoder has not failed, a failed job is still in the ring.
  rcases lively.jobs i failed with stopped | live
  · exact (stopped (ready.fed fed).1).elim
  · exact .inr live

/-- The front is released, and everybody who waits for room or for work is told. -/
def EncMt.released (s : EncMt γ nthreads) : EncMt γ nthreads :=
  EncMt.broadcastWork
    { s.setSlot s.emitSeq { s.slot s.emitSeq with state := .free } with emitSeq := s.emitSeq + 1 }

theorem EncMt.Lively.released [NeZero nthreads] (lively : s.Lively Good Made inputs outputs)
    (some_left : s.emitSeq < s.fillSeq) (done : (s.slot s.emitSeq).state = .done)
    (emitted : (s.slot s.emitSeq).finished.st ≠ .ok → s.enc.sticky ≠ .ok) :
    s.released.Lively Good Made inputs (outputs ++ [(s.slot s.emitSeq).finished]) := by
  -- A broadcast leaves nobody asleep, so what matters are the ring and the failed jobs.
  have up (w : Worker) : wake w ≠ .asleep := by
    cases w
    all_goals rintro ⟨⟩
  refine ⟨?_, lively.contexts, fun _ => ⟨0, up _⟩, lively.open_, fun i => ?_, fun i failed => ?_⟩
  · -- The front is done, which is what the ring asks for to let it go.
    have slots := s.ring_setSlot s.emitSeq { s.slot s.emitSeq with state := .free }
    have freed := lively.ring.release some_left (decide_eq_true done)
      (EncSlot.ringSlot { s.slot s.emitSeq with state := .free })
    rw [EncMt.released, EncMt.ring_broadcastWork]
    change SlotRing.Inv Made { s.ring.put s.emitSeq _ with emit := s.emitSeq + 1 } _ _ at freed
    rw [← slots] at freed
    exact freed
  · -- Waking up does not make a worker leave.
    have stays := lively.working i
    show wake (s.workers i) ≠ .exited
    cases place : s.workers i
    case exited => exact (stays place).elim
    all_goals rintro ⟨⟩
  · -- A failed job was the one just emitted, or it is still ahead.
    have job := EncMt.setSlot_job (s := s) s.emitSeq
      { s.slot s.emitSeq with state := .free } rfl i
    have failed' : (s.slots i).job.st ≠ .ok := by rwa [← job]
    rcases lively.jobs i failed' with stopped | ⟨seq, live, early, here⟩
    · exact .inl stopped
    by_cases front : seq = s.emitSeq
    · refine .inl (emitted ?_)
      subst front
      rw [← here] at failed'
      exact failed'
    · exact .inr ⟨seq, by show s.emitSeq + 1 ≤ seq; omega, early, here⟩

/-- The front is free again, and the producer goes on, or its call has failed. -/
theorem EncMt.Sound.release [NeZero nthreads] {st : XqStatus} {k : EmitFrom} (ready : e₀.Ready)
    (sound : s.Sound Good Made e₀ issued inputs outputs) (place : s.producer = .freeing st k) :
    EncMt.Sound Good Made e₀ issued inputs (outputs ++ [(s.slot s.emitSeq).finished])
      (if st ≠ .ok then s.released.ret st else s.released.emitted k) := by
  -- A job that failed has failed the encoder with it, since an encoder reports the first failure.
  obtain ⟨lively, stage⟩ := sound
  rw [place] at stage
  obtain ⟨open_, fed, pending, some_left, done⟩ := stage
  obtain ⟨sticky, _, _⟩ := ready.fed fed
  have lively' := lively.released some_left done fun failed => by
    rw [sticky]
    intro fine
    subst fine
    have made := Encoder.feed_made ready.good (congrArg Prod.fst fed)
    exact failed (made _ (List.mem_append_right _ (List.mem_singleton_self _)))
  by_cases failed : st ≠ .ok
  · -- The call returns the failure.
    rw [if_pos failed]
    refine ⟨lively'.producing, .inr ?_⟩
    subst sticky
    exact EncMt.Open.ret_failed (s := s.released) (open_.frame rfl rfl) failed pending.within
      (.inl ⟨failed, fed⟩)
  · -- The producer goes back to the loop that asked for the emission.
    obtain rfl := not_not.mp failed
    rw [if_neg failed]
    cases k with
    | submit k => exact ⟨lively'.producing, open_.frame rfl rfl, fed, pending.frame rfl rfl⟩
    | drain => exact ⟨lively'.producing, open_.frame rfl rfl, fed, pending.frame rfl rfl⟩

/-- `mt_drain_all` comes to the head of its loop. -/
theorem EncMt.Sound.drain (sound : s.Sound Good Made e₀ issued inputs outputs)
    (place : s.producer = .draining) :
    EncMt.Sound Good Made e₀ issued inputs outputs
      (if s.emitSeq < s.fillSeq then { s with producer := .taking .drain }
        else { s with producer := .closing }) := by
  obtain ⟨lively, stage⟩ := sound
  rw [place] at stage
  obtain ⟨open_, fed, pending⟩ := stage
  by_cases some_left : s.emitSeq < s.fillSeq
  · -- The front is next.
    rw [if_pos some_left]
    exact ⟨lively.producing, open_.frame rfl rfl, fed, pending.frame rfl rfl, some_left⟩
  · -- Everything submitted has been emitted.
    rw [if_neg some_left]
    refine ⟨lively.producing, open_.frame rfl rfl, fed, pending.frame rfl rfl, ?_⟩
    exact Nat.le_antisymm (lively.ring.emit_le.trans lively.ring.work_le) (Nat.not_lt.mp some_left)

/-- The end of the file is written, and the encoder has finished, or it has failed. -/
theorem EncMt.Sound.close (ready : e₀.Ready)
    (sound : s.Sound Good Made e₀ issued inputs outputs) (place : s.producer = .closing) :
    EncMt.Sound Good Made e₀ issued inputs outputs
      (EncMt.ret { s with enc := s.enc.finishTail.2 } s.enc.finishTail.1) := by
  -- The whole input has been fed; what is left is to follow the status of the tail.
  obtain ⟨lively, stage⟩ := sound
  rw [place] at stage
  obtain ⟨open_, fed, ⟨later, calls, blocks⟩, all⟩ := stage
  obtain ⟨good, unfinished, _⟩ := ready.fed fed
  have sticky := Encoder.finishTail_sticky good
  have finished := Encoder.finishTail_finished unfinished
  have asked : EncCall.finish ∈ issued := by
    obtain ⟨pieces, issues, _⟩ := open_.writes
    rw [issues, calls]
    exact List.mem_append_right _ List.mem_cons_self
  have tail : ∃ e, Encoder.feed outputs e₀ = (.ok, e) ∧
      e.finishTail = (s.enc.finishTail.2.sticky, s.enc.finishTail.2) :=
    ⟨s.enc, fed, Prod.ext sticky.symm rfl⟩
  -- The ring is empty, so no failed job is pending.
  have lively' : EncMt.Lively Good Made inputs outputs { s with enc := s.enc.finishTail.2 } := by
    refine ⟨lively.ring, lively.contexts, lively.awake, lively.open_, lively.working,
      fun i failed => ?_⟩
    rcases lively.jobs i failed with stopped | live
    · exact (stopped good).elim
    · exact .inr live
  have whole : inputs <+: allBlocks e₀.blockSize (writtenBy issued) := by rw [blocks]
  refine ⟨lively'.producing, .inr ?_⟩
  by_cases failed : s.enc.finishTail.1 = .ok
  · -- The tail is written, and the encoder has finished.
    obtain ⟨pieces, issues, told⟩ := open_.writes
    refine ⟨?_, whole, .inr ⟨asked, blocks, all, tail⟩, .inr ⟨sticky.trans failed, ?_⟩⟩
    · show s.calls.tail = issued.drop (s.results ++ [_]).length
      rw [issues, told, List.length_append, List.length_replicate, List.length_singleton,
        ← List.drop_drop, List.drop_left' (by rw [List.length_map]), List.drop_one]
    · rw [Encoder.Concluded, decide_eq_true failed] at finished
      exact finished
  · -- The tail has failed, and the encoder stops with its status.
    have failed' : s.enc.finishTail.2.sticky ≠ .ok := by rwa [sticky]
    rw [← sticky]
    exact EncMt.Open.ret_failed (s := { s with enc := s.enc.finishTail.2 })
      (open_.frame rfl rfl) failed' whole (.inr ⟨asked, blocks, all, tail⟩)

/-- Once the encoder has stopped, calls only report so. -/
theorem EncMt.Stopped.ret (stopped : s.Stopped e₀ issued inputs outputs) {st : XqStatus}
    (reported : s.enc.sticky ≠ .ok → st = s.enc.sticky) :
    (s.ret st).Stopped e₀ issued inputs outputs := by
  -- Calls past the failure add copies of the sticky status, calls past the end add nothing to show.
  obtain ⟨calls, within, fed, told⟩ := stopped
  refine ⟨?_, within, fed, ?_⟩
  · show s.calls.tail = issued.drop (s.results ++ [st]).length
    rw [calls, List.tail_drop, List.length_append, List.length_singleton]
  · rcases told with ⟨failed, pieces, later, m, issues, results⟩ | finished
    · refine .inl ⟨failed, pieces, later, m + 1, issues, ?_⟩
      show s.results ++ [st] = _
      rw [results, reported failed, List.append_assoc, ← List.replicate_succ']
      rfl
    · exact .inr finished

theorem EncMt.call_write {buf : Bytes} {later : List EncCall}
    (calls : s.calls = .write buf :: later) :
    s.call = if s.enc.sticky ≠ .ok then some (s.ret s.enc.sticky)
      else if s.enc.finished then some (s.ret .param)
      else some { s with producer := .copying buf } := by
  rw [EncMt.call, calls]

theorem EncMt.call_finish {later : List EncCall} (calls : s.calls = .finish :: later) :
    s.call = if s.enc.sticky ≠ .ok then some (s.ret s.enc.sticky)
      else if s.enc.finished then some (s.ret .ok)
      else if s.rawLen = 0 then some { s with producer := .draining }
      else some (s.flush .finish) := by
  rw [EncMt.call, calls]

/-- A write begins on an encoder that has not failed. -/
theorem EncMt.Sound.call_write (lively : s.Lively Good Made inputs outputs) {buf : Bytes}
    {later : List EncCall} {xs : Bytes} (calls : s.calls = .write buf :: later)
    (open_ : s.Open issued) (fed : Encoder.feed outputs e₀ = (.ok, s.enc))
    (whole : xs ++ writtenBy s.calls = writtenBy issued)
    (gathering : s.Gathering e₀.blockSize xs inputs) :
    EncMt.Sound Good Made e₀ issued inputs outputs { s with producer := .copying buf } := by
  -- All of the call's bytes are still to be copied.
  rw [calls] at whole
  refine ⟨lively.producing, open_.frame rfl rfl, fed, buf, later, xs, calls, ?_,
    gathering.blocks, gathering.buffer, gathering.rawLen, gathering.cur, gathering.room⟩
  rw [List.append_assoc]
  exact whole

/-- A finish begins on an encoder that has not failed. -/
theorem EncMt.Sound.call_finish (lively : s.Lively Good Made inputs outputs)
    {later : List EncCall} {xs : Bytes} (calls : s.calls = .finish :: later)
    (open_ : s.Open issued) (fed : Encoder.feed outputs e₀ = (.ok, s.enc)) (good : s.enc.sticky = .ok)
    (whole : xs ++ writtenBy s.calls = writtenBy issued)
    (gathering : s.Gathering e₀.blockSize xs inputs) :
    EncMt.Sound Good Made e₀ issued inputs outputs
      (if s.rawLen = 0 then { s with producer := .draining } else s.flush .finish) := by
  -- Everything is in what has been gathered.
  rw [calls] at whole
  change xs ++ [] = writtenBy issued at whole
  rw [List.append_nil] at whole
  have gathered := gathering.rawLen
  by_cases empty : s.rawLen = 0
  · -- No byte is left over, and the full blocks are all there is.
    rw [if_pos empty]
    have none_left : leftover e₀.blockSize xs = [] :=
      List.length_eq_zero_iff.mp (gathered.symm.trans empty)
    refine ⟨lively.producing, open_.frame rfl rfl, fed, later, calls, ?_⟩
    rw [← whole, allBlocks, if_pos none_left, List.append_nil]
    exact gathering.blocks
  · -- The bytes left over make a last, shorter block.
    rw [if_neg empty, EncMt.flush, if_neg (not_not.mpr good)]
    have some_left : leftover e₀.blockSize xs ≠ [] := by
      intro none_left
      rw [none_left] at gathered
      exact empty gathered
    refine ⟨lively.producing, open_.frame rfl rfl, fed, gathering.cur, gathering.room, later,
      calls, ?_⟩
    show inputs ++ [(s.slots s.cur).raw.take s.rawLen] = _
    rw [← whole, allBlocks, if_neg some_left, gathering.blocks, gathering.buffer]

/-- A call on an encoder that has failed or finished only reports so. -/
theorem EncMt.Stopped.call (no_free : EncCall.free ∉ issued)
    (stopped : s.Stopped e₀ issued inputs outputs) (called : s.call = some s') :
    ∃ st, s' = s.ret st ∧ (s.enc.sticky ≠ .ok → st = s.enc.sticky) := by
  -- One that has not failed has finished.
  have finished : ¬ s.enc.sticky ≠ .ok → s.enc.finished = true := fun fine => by
    rcases stopped.told with failed | done
    · exact (fine failed.1).elim
    · exact done.2
  cases calls : s.calls with
  | nil =>
    rw [EncMt.call, calls] at called
    cases called
  | cons c later =>
    cases c with
    | write buf =>
      rw [EncMt.call_write calls] at called
      by_cases failed : s.enc.sticky ≠ .ok
      · rw [if_pos failed] at called
        exact ⟨_, (Option.some.inj called).symm, fun _ => rfl⟩
      · -- Writing after the end is a misuse.
        rw [if_neg failed, if_pos (finished failed)] at called
        exact ⟨_, (Option.some.inj called).symm, fun broken => (failed broken).elim⟩
    | finish =>
      rw [EncMt.call_finish calls] at called
      by_cases failed : s.enc.sticky ≠ .ok
      · rw [if_pos failed] at called
        exact ⟨_, (Option.some.inj called).symm, fun _ => rfl⟩
      · -- A second finish is not.
        rw [if_neg failed, if_pos (finished failed)] at called
        exact ⟨_, (Option.some.inj called).symm, fun broken => (failed broken).elim⟩
    | free =>
      have member : EncCall.free ∈ s.calls := calls ▸ List.mem_cons_self
      rw [stopped.calls] at member
      exact (no_free (List.mem_of_mem_drop member)).elim

/-- A call begins. -/
theorem EncMt.Sound.call (ready : e₀.Ready) (no_free : EncCall.free ∉ issued)
    (sound : s.Sound Good Made e₀ issued inputs outputs) (place : s.producer = .idle)
    (called : s.call = some s') : s'.Sound Good Made e₀ issued inputs outputs := by
  obtain ⟨lively, stage⟩ := sound
  rw [place] at stage
  rcases stage with ⟨open_, fed, xs, whole, gathering⟩ | stopped
  · -- The encoder is open, so neither of the first two tests of a call returns.
    obtain ⟨good, unfinished, _⟩ := ready.fed fed
    have open_calls : ¬ s.enc.sticky ≠ .ok := not_not.mpr good
    have going : ¬ s.enc.finished = true := by simp [unfinished]
    cases calls : s.calls with
    | nil =>
      rw [EncMt.call, calls] at called
      cases called
    | cons c later =>
      cases c with
      | write buf =>
        rw [EncMt.call_write calls, if_neg open_calls, if_neg going] at called
        obtain rfl := Option.some.inj called
        exact .call_write lively calls open_ fed whole gathering
      | finish =>
        rw [EncMt.call_finish calls, if_neg open_calls, if_neg going, ← apply_ite] at called
        obtain rfl := Option.some.inj called
        exact .call_finish lively calls open_ fed good whole gathering
      | free =>
        obtain ⟨pieces, issues, _⟩ := open_.writes
        rw [issues, calls] at no_free
        exact (no_free (List.mem_append_right _ List.mem_cons_self)).elim
  · -- It has stopped, and the call returns at once.
    obtain ⟨st, rfl, reported⟩ := stopped.call no_free called
    exact ⟨lively.producing, .inr (stopped.ret reported)⟩

/-- Every step of the producer keeps the invariant. -/
theorem EncMt.Sound.producer [NeZero nthreads] (ready : e₀.Ready) (no_free : EncCall.free ∉ issued)
    (sound : s.Sound Good Made e₀ issued inputs outputs) {signalled : Option (Fin nthreads)}
    (stepped : s.producerStep signalled = some s') :
    ∃ inputs' outputs', s'.Sound Good Made e₀ issued inputs' outputs' := by
  -- One lemma for each place of the producer; here only the tests of the step are followed.
  unfold EncMt.producerStep at stepped
  have stage := sound.stage
  cases place : s.producer with
  | idle =>
    rw [place] at stepped
    exact ⟨_, _, sound.call ready no_free place stepped⟩
  | copying rest =>
    rw [place] at stepped
    obtain rfl := Option.some.inj stepped
    exact ⟨_, _, sound.copy ready place⟩
  | submitting n k =>
    rw [place] at stepped
    exact ⟨_, _, sound.submit place stepped⟩
  | checking k =>
    -- Whether the ring is full decides between emitting and going on.
    rw [place] at stepped
    have checked := sound.check place
    dsimp only at stepped
    by_cases full : s.fillSeq - s.emitSeq ≥ s.nslots
    · rw [if_pos full] at stepped checked
      obtain rfl := Option.some.inj stepped
      exact ⟨_, _, checked⟩
    · rw [if_neg full] at stepped checked
      obtain rfl := Option.some.inj stepped
      exact ⟨_, _, checked⟩
  | taking k =>
    -- The ring is not empty at this place, so the source's other branch is not taken.
    rw [place] at stage stepped
    dsimp only at stepped
    rw [if_neg (Nat.not_le.mpr stage.2.2.2)] at stepped
    obtain rfl := Option.some.inj stepped
    exact ⟨_, _, .await sound.lively stage⟩
  | waiting k =>
    -- A waiting producer has no step of its own.
    rw [place] at stepped
    cases stepped
  | woken k =>
    rw [place] at stage stepped
    obtain rfl := Option.some.inj stepped
    exact ⟨_, _, .await sound.lively stage⟩
  | emitting k =>
    rw [place] at stepped
    obtain rfl := Option.some.inj stepped
    exact ⟨_, _, sound.emit ready place⟩
  | freeing st k =>
    -- The slot is free again on either side of the test for a failure.
    rw [place] at stepped
    have released := sound.release ready place
    dsimp only at stepped
    by_cases failed : st ≠ .ok
    · rw [if_pos failed] at stepped released
      obtain rfl := Option.some.inj stepped
      exact ⟨_, _, released⟩
    · rw [if_neg failed] at stepped released
      obtain rfl := Option.some.inj stepped
      exact ⟨_, _, released⟩
  | draining =>
    -- The loop ends when everything submitted has been emitted.
    rw [place] at stepped
    have drained := sound.drain place
    dsimp only at stepped
    by_cases some_left : s.emitSeq < s.fillSeq
    · rw [if_pos some_left] at stepped drained
      obtain rfl := Option.some.inj stepped
      exact ⟨_, _, drained⟩
    · rw [if_neg some_left] at stepped drained
      obtain rfl := Option.some.inj stepped
      exact ⟨_, _, drained⟩
  | closing =>
    rw [place] at stepped
    obtain rfl := Option.some.inj stepped
    exact ⟨_, _, sound.close ready place⟩
  | joining =>
    -- Only `free` leads here.
    rw [place] at stage
    exact stage.elim

end Producing

end Xq
