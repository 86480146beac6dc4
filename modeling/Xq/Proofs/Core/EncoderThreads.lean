import Xq.Proofs.Codec.ContextHistory
import Xq.Proofs.Core.EncoderProducer

/-! The parallel encoder, for every interleaving: its ring hands the blocks to the producer in the
order of their submission, and no thread is ever left waiting for good. -/

namespace Xq

open Lib

variable {γ : Type} {nthreads : Nat}

section Runs

variable {Good : γ → Prop} {Made : Bytes → EncJob → Prop} {e₀ : Encoder} {issued : List EncCall}
  {compress : γ → Bytes → EncJob × γ} {inputs : List Bytes} {outputs : List EncJob}
  {s s' : EncMt γ nthreads}

/-- Every step of any thread keeps the invariant. -/
theorem EncMt.Sound.step [NeZero nthreads] (compresses : Compresses compress Good Made)
    (ready : e₀.Ready) (no_free : EncCall.free ∉ issued)
    (sound : s.Sound Good Made e₀ issued inputs outputs) {a : EncAction nthreads}
    (stepped : s.step compress a = some s') :
    ∃ inputs' outputs', s'.Sound Good Made e₀ issued inputs' outputs' := by
  cases a with
  | producer signalled => exact sound.producer ready no_free stepped
  | worker i =>
    obtain ⟨lively, frame⟩ := sound.lively.worker compresses stepped
    exact ⟨_, _, lively, sound.stage.worker frame⟩
  | spuriousProducer =>
    -- A wakeup without a signal only makes the producer look again.
    unfold EncMt.step at stepped
    have stage := sound.stage
    cases place : s.producer with
    | waiting k =>
      rw [place] at stage stepped
      obtain rfl := Option.some.inj stepped
      obtain ⟨open_, fed, pending, some_left, _⟩ := stage
      exact ⟨_, _, sound.lively.producing, open_.frame rfl rfl, fed, pending.frame rfl rfl,
        some_left⟩
    | _ =>
      rw [place] at stepped
      cases stepped
  | spuriousWorker i =>
    unfold EncMt.step at stepped
    dsimp only at stepped
    by_cases asleep : s.workers i = .asleep
    · rw [if_pos asleep] at stepped
      obtain rfl := Option.some.inj stepped
      exact ⟨_, _, sound.roused asleep⟩
    · rw [if_neg asleep] at stepped
      cases stepped

/-- A new ring is in order. -/
theorem EncMt.Sound.init [NeZero nthreads] {cctxs : Fin nthreads → γ}
    (good : ∀ i, Good (cctxs i)) :
    (EncMt.init e₀ cctxs issued).Sound Good Made e₀ issued [] [] := by
  -- Nothing has been submitted, so every worker is at the top and no slot is taken.
  refine ⟨⟨SlotRing.Inv.start _ _, good, fun some_work => ?_, rfl, fun _ => by rintro ⟨⟩,
    fun i failed => (failed rfl).elim⟩, .inl ⟨⟨[], rfl, rfl⟩, rfl, [], rfl, ?_⟩⟩
  · exact (Nat.not_lt_zero _ some_work).elim
  · refine ⟨fullBlocks_nil.symm, ?_, ?_, ?_, ?_⟩
    · rw [leftover_nil]
      rfl
    · rw [leftover_nil]
      rfl
    · exact (Nat.zero_mod _).symm
    · show 0 < 0 + nthreads * 2
      have := NeZero.pos nthreads
      omega

/-- The invariant holds in every state of every run. -/
theorem EncMt.Reachable.sound [NeZero nthreads] (compresses : Compresses compress Good Made)
    (ready : e₀.Ready) (no_free : EncCall.free ∉ issued) {cctxs : Fin nthreads → γ}
    (good : ∀ i, Good (cctxs i)) (reached : EncMt.Reachable compress (EncMt.init e₀ cctxs issued) s) :
    ∃ inputs outputs, s.Sound Good Made e₀ issued inputs outputs := by
  -- The induction is on the run, with the step lemma at every action.
  induction reached with
  | refl => exact ⟨[], [], .init good⟩
  | step a _ stepped ih =>
    obtain ⟨inputs, outputs, sound⟩ := ih
    exact sound.step compresses ready no_free stepped

/-- A worker that neither sleeps nor has left has a step. -/
theorem EncMt.worker_enabled (compress : γ → Bytes → EncJob × γ) {i : Fin nthreads}
    (awake : s.workers i ≠ .asleep) (stays : s.workers i ≠ .exited) :
    ∃ s', s.workerStep compress i = some s' := by
  -- Each place of a worker's loop but sleep has an action.
  unfold EncMt.workerStep
  cases place : s.workers i with
  | top =>
    dsimp only
    split
    · exact ⟨_, rfl⟩
    · exact ⟨_, rfl⟩
  | asleep => exact (awake place).elim
  | busy seq => exact ⟨_, rfl⟩
  | storing seq => exact ⟨_, rfl⟩
  | exited => exact (stays place).elim

/-- An idle producer with a call left begins it. -/
theorem EncMt.call_enabled (some_call : s.calls ≠ []) : ∃ s', s.call = some s' := by
  -- Whatever the call is, each of its tests has a step on either side.
  obtain ⟨c, later, calls⟩ := List.exists_cons_of_ne_nil some_call
  cases c with
  | write buf =>
    rw [EncMt.call_write calls]
    split
    · exact ⟨_, rfl⟩
    · split
      all_goals exact ⟨_, rfl⟩
  | finish =>
    rw [EncMt.call_finish calls]
    split
    · exact ⟨_, rfl⟩
    · split
      · exact ⟨_, rfl⟩
      · split
        all_goals exact ⟨_, rfl⟩
  | free =>
    have begins : s.call = some { s.broadcastWork with quit := true, producer := .joining } := by
      rw [EncMt.call, calls]
    exact ⟨_, begins⟩

/-- A signal finds a worker that is asleep, if there is one. -/
theorem EncMt.signalWork_enabled (s : EncMt γ nthreads) :
    ∃ signalled s', s.signalWork signalled = some s' := by
  by_cases up : ∀ i, s.workers i ≠ .asleep
  · -- Nobody sleeps, and the signal is lost.
    refine ⟨none, s, ?_⟩
    rw [EncMt.signalWork, if_pos up]
  · obtain ⟨i, asleep⟩ := not_forall.mp up
    refine ⟨some i, { s with workers := Function.update s.workers i .top }, ?_⟩
    rw [EncMt.signalWork, if_pos (not_not.mp asleep)]

/-- While the producer waits for the front of the ring, some worker has a step. -/
theorem EncMt.Sound.waiting_enabled (compress : γ → Bytes → EncJob × γ)
    (sound : s.Sound Good Made e₀ issued inputs outputs) {k : EmitFrom}
    (place : s.producer = .waiting k) : ∃ i s', s.workerStep compress i = some s' := by
  have stage := sound.stage
  rw [place] at stage
  obtain ⟨_, _, _, some_left, undone⟩ := stage
  -- The front is not done, so it is unclaimed or a worker holds it.
  obtain ⟨i, awake⟩ : ∃ i, s.workers i ≠ .asleep := by
    rcases sound.lively.ring.progress (decide_eq_false undone) with unclaimed | ⟨i, made, held⟩
    · -- Nobody has claimed the front, so somebody is awake to do so.
      refine sound.lively.awake ?_
      change s.workSeq = s.emitSeq at unclaimed
      omega
    · -- A worker that holds a claim does not sleep.
      refine ⟨i, fun asleep => ?_⟩
      change (s.workers i).claim = _ at held
      rw [asleep] at held
      cases held
  exact ⟨i, EncMt.worker_enabled compress awake (sound.lively.working i)⟩

/-- While calls are outstanding, the producer or a worker has a step. -/
theorem EncMt.Sound.progress (compress : γ → Bytes → EncJob × γ)
    (sound : s.Sound Good Made e₀ issued inputs outputs) (some_call : s.calls ≠ []) :
    (∃ signalled s', s.producerStep signalled = some s') ∨
      ∃ i s', s.workerStep compress i = some s' := by
  -- The producer has a step at every place but two: waiting, where a worker has one, and joining,
  -- which no run without `free` reaches.
  cases place : s.producer with
  | idle =>
    have begins : s.producerStep none = s.call := by rw [EncMt.producerStep, place]
    exact .inl ⟨none, begins ▸ EncMt.call_enabled some_call⟩
  | copying rest => exact .inl ⟨none, _, by rw [EncMt.producerStep, place]⟩
  | submitting n k =>
    obtain ⟨signalled, s', signal⟩ := (s.submitted n k).signalWork_enabled
    refine .inl ⟨signalled, s', ?_⟩
    rw [EncMt.producerStep, place]
    exact signal
  | checking k =>
    refine .inl ⟨none, ?_⟩
    rw [EncMt.producerStep, place]
    dsimp only
    split
    all_goals exact ⟨_, rfl⟩
  | taking k =>
    refine .inl ⟨none, ?_⟩
    rw [EncMt.producerStep, place]
    dsimp only
    split
    all_goals exact ⟨_, rfl⟩
  | waiting k => exact .inr (sound.waiting_enabled compress place)
  | woken k => exact .inl ⟨none, _, by rw [EncMt.producerStep, place]⟩
  | emitting k => exact .inl ⟨none, _, by rw [EncMt.producerStep, place]⟩
  | freeing st k =>
    refine .inl ⟨none, ?_⟩
    rw [EncMt.producerStep, place]
    dsimp only
    split
    all_goals exact ⟨_, rfl⟩
  | draining =>
    refine .inl ⟨none, ?_⟩
    rw [EncMt.producerStep, place]
    dsimp only
    split
    all_goals exact ⟨_, rfl⟩
  | closing => exact .inl ⟨none, _, by rw [EncMt.producerStep, place]⟩
  | joining =>
    have stage := sound.stage
    rw [place] at stage
    exact stage.elim

end Runs

section Refilling

variable {Good : γ → Prop} {Made : Bytes → EncJob → Prop} {e₀ : Encoder} {issued : List EncCall}
  {compress : γ → Bytes → EncJob × γ} {inputs : List Bytes} {outputs : List EncJob}
  {s s' : EncMt γ nthreads}

/-- The slots of the blocks that have been submitted and not yet released still hold them. -/
def EncMt.Holds (s s' : EncMt γ nthreads) : Prop :=
  ∀ seq, s.emitSeq ≤ seq → seq < s.fillSeq →
    (s'.slot seq).raw = (s.slot seq).raw ∧ (s'.slot seq).rawLen = (s.slot seq).rawLen

theorem EncMt.Holds.same (slots : s'.slots = s.slots) : s.Holds s' := fun seq _ _ => by
  show (s'.slots (seq % s.nslots)).raw = _ ∧ (s'.slots (seq % s.nslots)).rawLen = _
  rw [slots]
  exact ⟨rfl, rfl⟩

/-- The slot behind the last submission holds no block of the ring. -/
theorem EncMt.Holds.behind (room : s.fillSeq < s.emitSeq + s.nslots) {slot : EncSlot}
    (slots : s'.slots = Function.update s.slots (s.fillSeq % s.nslots) slot) :
    s.Holds s' := fun seq live there => by
  have differ : seq % s.nslots ≠ s.fillSeq % s.nslots :=
    SlotRing.slot_ne s.emitSeq live (by omega) (by omega) room (Nat.ne_of_lt there)
  show (s'.slots (seq % s.nslots)).raw = _ ∧ (s'.slots (seq % s.nslots)).rawLen = _
  rw [slots, Function.update_of_ne differ]
  exact ⟨rfl, rfl⟩

/-- Handing a block over to `mt_submit` leaves the slots alone. -/
theorem EncMt.flush_slots (s : EncMt γ nthreads) (k : FlushFrom) : (s.flush k).slots = s.slots := by
  -- Only the producer's place, the gathered length and the results change.
  rw [EncMt.flush]
  split
  all_goals rfl

/-- Nor does looking at the front of the ring touch a slot. -/
theorem EncMt.awaitDone_slots (s : EncMt γ nthreads) (k : EmitFrom) :
    (s.awaitDone k).slots = s.slots := by
  -- The producer goes on to emit or to wait.
  rw [EncMt.awaitDone]
  split
  all_goals rfl

/-- Nor does a signal. -/
theorem EncMt.signalWork_slots {signalled : Option (Fin nthreads)}
    (signal : s.signalWork signalled = some s') : s'.slots = s.slots := by
  -- Without a signalled worker nothing changes, and with one only the worker's own state does.
  unfold EncMt.signalWork at signal
  split at signal
  all_goals
    split at signal
    · cases signal
      rfl
    · cases signal

/-- Nor does the beginning of a call: bytes are copied in later steps only. -/
theorem EncMt.call_slots (called : s.call = some s') : s'.slots = s.slots := by
  -- The cases are those of the call, and within each the tests of the source in their order.
  cases calls : s.calls with
  | nil =>
    rw [EncMt.call, calls] at called
    cases called
  | cons c later =>
    cases c with
    | write buf =>
      rw [EncMt.call_write calls] at called
      split at called
      · -- The sticky status is returned.
        cases called
        rfl
      · -- A finished encoder refuses, and any other begins to copy.
        split at called
        all_goals
          cases called
          rfl
    | finish =>
      rw [EncMt.call_finish calls] at called
      split at called
      · -- The sticky status is returned.
        cases called
        rfl
      · split at called
        · -- A second finish has nothing to do.
          cases called
          rfl
        · -- The ring is drained, after a last block if some bytes are left over.
          split at called
          all_goals obtain rfl := Option.some.inj called
          · rfl
          · exact s.flush_slots .finish
    | free =>
      -- The workers are told to leave.
      have begins : s.call = some { s.broadcastWork with quit := true, producer := .joining } := by
        rw [EncMt.call, calls]
      rw [begins] at called
      cases called
      rfl

/-- A round of the copying loop writes to the slot behind the last submission only. -/
theorem EncMt.Gathering.copy_holds {size : Nat} {xs : Bytes}
    (gathering : s.Gathering size xs inputs) (rest : Bytes) : s.Holds (s.copy rest) := by
  by_cases empty : rest = []
  · -- The call returns.
    rw [EncMt.copy, if_pos empty]
    exact .same rfl
  · generalize taken : (if rest.length < s.enc.blockSize - s.rawLen then rest.length
      else s.enc.blockSize - s.rawLen) = take
    have piece : (rest.take take).length = take := by
      rw [List.length_take]
      subst taken
      split <;> omega
    -- The current slot is where the next submission goes.
    have slots : (s.copied (rest.take take)).slots =
        Function.update s.slots (s.fillSeq % s.nslots)
          { s.slots s.cur with
            raw := (s.slots s.cur).raw.take s.rawLen ++ rest.take take } := by
      rw [← gathering.cur]
      rfl
    rw [EncMt.copy_eq empty taken piece]
    split
    · -- A full block goes on to `flush_block`.
      exact .behind gathering.room ((EncMt.flush_slots _ _).trans slots)
    · exact .behind gathering.room slots

/-- Releasing the slot at the front keeps every buffer as it is. -/
theorem EncMt.released_holds (s : EncMt γ nthreads) : s.Holds s.released := fun _ _ _ =>
  EncMt.setSlot_raw (s := s) s.emitSeq { s.slot s.emitSeq with state := .free } ⟨rfl, rfl⟩ _

/-- No step of the producer refills the slot of a block that it has not yet emitted. -/
theorem EncMt.Sound.producer_holds
    (sound : s.Sound Good Made e₀ issued inputs outputs) {signalled : Option (Fin nthreads)}
    (stepped : s.producerStep signalled = some s') : s.Holds s' := by
  -- Three places write to a slot: copying and submitting, to the one behind the last submission, and
  -- freeing, which keeps the buffer. Everywhere else the slots stay as they are.
  have stage := sound.stage
  unfold EncMt.producerStep at stepped
  cases place : s.producer with
  | idle =>
    rw [place] at stepped
    exact .same (EncMt.call_slots stepped)
  | copying rest =>
    rw [place] at stage stepped
    obtain ⟨_, _, _, _, _, _, _, gathering⟩ := stage
    obtain rfl := Option.some.inj stepped
    exact gathering.copy_holds rest
  | submitting n k =>
    -- The slot submitted is free, since the ring has room.
    rw [place] at stage stepped
    obtain ⟨_, _, _, room, _⟩ := stage
    exact .behind room (EncMt.signalWork_slots (s := s.submitted n k) stepped)
  | checking k =>
    rw [place] at stepped
    dsimp only at stepped
    split at stepped
    all_goals
      cases stepped
      exact .same rfl
  | taking k =>
    -- The ring is not empty, so the producer looks at its front.
    rw [place] at stage stepped
    dsimp only at stepped
    rw [if_neg (Nat.not_le.mpr stage.2.2.2)] at stepped
    obtain rfl := Option.some.inj stepped
    exact .same (s.awaitDone_slots k)
  | waiting k =>
    -- A waiting producer is woken by others.
    rw [place] at stepped
    cases stepped
  | woken k =>
    rw [place] at stepped
    obtain rfl := Option.some.inj stepped
    exact .same (s.awaitDone_slots k)
  | emitting k =>
    -- Emitting reads the front slot and writes to the sink.
    rw [place] at stepped
    cases stepped
    exact .same rfl
  | freeing st k =>
    rw [place] at stepped
    dsimp only at stepped
    split at stepped
    all_goals
      cases stepped
      exact s.released_holds
  | draining =>
    rw [place] at stepped
    dsimp only at stepped
    split at stepped
    all_goals
      cases stepped
      exact .same rfl
  | closing =>
    rw [place] at stepped
    cases stepped
    exact .same rfl
  | joining =>
    -- Nothing frees the encoder in these runs.
    rw [place] at stage
    exact stage.elim

/-- No step refills the slot of a block that has not been emitted. -/
theorem EncMt.Sound.holds (compresses : Compresses compress Good Made)
    (sound : s.Sound Good Made e₀ issued inputs outputs) {a : EncAction nthreads}
    (stepped : s.step compress a = some s') : s.Holds s' := by
  -- Only the producer fills slots.
  cases a with
  | producer signalled => exact sound.producer_holds stepped
  | worker i =>
    obtain ⟨_, frame⟩ := sound.lively.worker compresses stepped
    exact fun seq _ _ => frame.raw _
  | spuriousProducer =>
    unfold EncMt.step at stepped
    cases place : s.producer with
    | waiting k =>
      rw [place] at stepped
      cases stepped
      exact .same rfl
    | _ =>
      rw [place] at stepped
      cases stepped
  | spuriousWorker i =>
    unfold EncMt.step at stepped
    dsimp only at stepped
    split at stepped
    · cases stepped
      exact .same rfl
    · cases stepped

end Refilling

section Results

variable {Good : γ → Prop} {Made : Bytes → EncJob → Prop} {e₀ : Encoder} {issued : List EncCall}
  {compress : γ → Bytes → EncJob × γ} {inputs : List Bytes} {outputs : List EncJob}
  {s : EncMt γ nthreads}

/-- What has been emitted in some state: some of the jobs in their order, or all of them and the end
of the file. -/
structure EncMt.Emitted (e₀ : Encoder) (Made : Bytes → EncJob → Prop) (issued : List EncCall)
    (s : EncMt γ nthreads) : Prop where
  fed : ∃ blocks jobs, blocks <+: allBlocks e₀.blockSize (writtenBy issued) ∧
    List.Forall₂ Made blocks jobs ∧ (Encoder.feed jobs e₀ = (s.enc.sticky, s.enc) ∨
      EncCall.finish ∈ issued ∧ blocks = allBlocks e₀.blockSize (writtenBy issued) ∧
        ∃ e, Encoder.feed jobs e₀ = (.ok, e) ∧ e.finishTail = (s.enc.sticky, s.enc))

/-- What has been submitted in some state are blocks of what is written. -/
theorem EncMt.Sound.within (sound : s.Sound Good Made e₀ issued inputs outputs) :
    inputs <+: allBlocks e₀.blockSize (writtenBy issued) := by
  have stage := sound.stage
  -- While pieces are gathered, the full blocks of a front are a front of all blocks.
  have gathered {xs later : Bytes} (whole : xs ++ later = writtenBy issued)
      (gathering : s.Gathering e₀.blockSize xs inputs) :
      inputs <+: allBlocks e₀.blockSize (writtenBy issued) := by
    rw [← whole, gathering.blocks]
    exact fullBlocks_front_all xs later
  cases place : s.producer with
  | idle =>
    rw [place] at stage
    rcases stage with ⟨_, _, xs, whole, gathering⟩ | stopped
    · exact gathered whole gathering
    · exact stopped.within
  | copying rest =>
    rw [place] at stage
    obtain ⟨_, _, _, _, xs, _, whole, gathering⟩ := stage
    rw [List.append_assoc] at whole
    exact gathered whole gathering
  | submitting n k =>
    -- During a flush the pending block says where it belongs.
    rw [place] at stage
    exact (List.prefix_append _ _).trans stage.2.2.2.2.within
  | checking k =>
    rw [place] at stage
    exact stage.2.2.within
  | taking k =>
    rw [place] at stage
    exact stage.2.2.1.within
  | waiting k =>
    rw [place] at stage
    exact stage.2.2.1.within
  | woken k =>
    rw [place] at stage
    exact stage.2.2.1.within
  | emitting k =>
    rw [place] at stage
    exact stage.2.2.1.within
  | freeing st k =>
    rw [place] at stage
    exact stage.2.2.1.within
  | draining =>
    rw [place] at stage
    exact stage.2.2.within
  | closing =>
    rw [place] at stage
    exact stage.2.2.1.within
  | joining =>
    rw [place] at stage
    exact stage.elim

theorem EncMt.Sound.emitted (ready : e₀.Ready)
    (sound : s.Sound Good Made e₀ issued inputs outputs) : s.Emitted e₀ Made issued := by
  have stage := sound.stage
  have ring := sound.lively.ring
  have released := ring.released
  have within := sound.within
  have front := (List.take_prefix s.emitSeq inputs).trans within
  -- In between two emissions.
  have between (fed : Encoder.feed outputs e₀ = (.ok, s.enc)) : s.Emitted e₀ Made issued := by
    refine ⟨_, outputs, front, released, .inl ?_⟩
    rw [(ready.fed fed).1]
    exact fed
  cases place : s.producer with
  | idle =>
    rw [place] at stage
    rcases stage with ⟨_, fed, _⟩ | stopped
    · exact between fed
    · rcases stopped.fed with ⟨_, fed⟩ | ⟨asked, blocks, all, tail⟩
      · exact ⟨_, outputs, front, released, .inl fed⟩
      · have taken := ring.taken
        have every : inputs.take s.emitSeq = inputs := by
          refine List.take_of_length_le ?_
          rw [taken, all]
          exact le_rfl
        change List.Forall₂ Made (inputs.take s.emitSeq) outputs at released
        rw [every] at released
        exact ⟨_, outputs, within, released, .inr ⟨asked, blocks, tail⟩⟩
  | freeing st k =>
    -- The block at the front has been emitted, but its slot is not free yet.
    rw [place] at stage
    obtain ⟨_, fed, _, some_left, done⟩ := stage
    obtain ⟨_, made⟩ := ring.stored s.emitSeq le_rfl some_left (decide_eq_true done)
    -- It is the block submitted there, made into a job by its worker.
    have here := ring.input s.emitSeq le_rfl some_left
    refine ⟨inputs.take (s.emitSeq + 1), outputs ++ [(s.slot s.emitSeq).finished],
      (List.take_prefix _ _).trans within, ?_, .inl ?_⟩
    · rw [List.take_add_one, here]
      exact List.rel_append released (.cons made .nil)
    · rw [(ready.fed fed).1]
      exact fed
  | joining =>
    rw [place] at stage
    exact stage.elim
  | _ =>
    rw [place] at stage
    exact between stage.2.1

/-- Once all calls have returned, the producer is idle. -/
theorem EncMt.Sound.idle (sound : s.Sound Good Made e₀ issued inputs outputs)
    (returned : s.calls = []) : s.producer = .idle := by
  have stage := sound.stage
  -- Anywhere else it is in the middle of a call.
  have calling {issued inputs} {size : Nat} {k : FlushFrom}
      (pending : s.Pending size issued inputs k) : False := by
    cases k with
    | write rest =>
      obtain ⟨_, _, _, calls, _⟩ := pending
      rw [returned] at calls
      cases calls
    | finish =>
      obtain ⟨_, calls, _⟩ := pending
      rw [returned] at calls
      cases calls
  cases place : s.producer with
  | idle => rfl
  | copying rest =>
    rw [place] at stage
    obtain ⟨_, _, _, _, _, calls, _⟩ := stage
    rw [returned] at calls
    cases calls
  | submitting n k =>
    -- A flush belongs to a call.
    rw [place] at stage
    exact (calling stage.2.2.2.2).elim
  | checking k =>
    rw [place] at stage
    exact (calling stage.2.2).elim
  | taking k =>
    rw [place] at stage
    exact (calling stage.2.2.1).elim
  | waiting k =>
    rw [place] at stage
    exact (calling stage.2.2.1).elim
  | woken k =>
    rw [place] at stage
    exact (calling stage.2.2.1).elim
  | emitting k =>
    rw [place] at stage
    exact (calling stage.2.2.1).elim
  | freeing st k =>
    rw [place] at stage
    exact (calling stage.2.2.1).elim
  | draining =>
    rw [place] at stage
    exact (calling stage.2.2).elim
  | closing =>
    rw [place] at stage
    exact (calling stage.2.2.1).elim
  | joining =>
    rw [place] at stage
    exact stage.elim

/-- Once all calls of a client that finishes have returned, the encoder has stopped. -/
theorem EncMt.Sound.stopped {pieces : List Bytes}
    (sound : s.Sound Good Made e₀ (pieces.map .write ++ [.finish]) inputs outputs)
    (returned : s.calls = []) :
    s.Stopped e₀ (pieces.map .write ++ [.finish]) inputs outputs := by
  have stage := sound.stage
  rw [sound.idle returned] at stage
  rcases stage with ⟨open_, _⟩ | stopped
  · obtain ⟨pieces', issues, _⟩ := open_.writes
    rw [returned, List.append_nil] at issues
    -- The last call did not write.
    have last : EncCall.finish ∈ pieces'.map .write := by
      rw [← issues]
      exact List.mem_append_right _ (List.mem_singleton_self _)
    obtain ⟨_, _, wrong⟩ := List.mem_map.mp last
    cases wrong
  · exact stopped

/-- A client's bytes, when it writes and then finishes. -/
theorem writtenBy_finish (pieces : List Bytes) :
    writtenBy (pieces.map .write ++ [.finish]) = pieces.flatten := by
  rw [writtenBy_writes]
  exact List.append_nil _

/-- A run that is over has fed the blocks of all its bytes. -/
theorem EncMt.Sound.ran {pieces : List Bytes}
    (sound : s.Sound Good Made e₀ (pieces.map .write ++ [.finish]) inputs outputs)
    (returned : s.calls = []) : e₀.Ran Made pieces.flatten (s.enc.sticky, s.enc) := by
  have stopped := sound.stopped returned
  have ring := sound.lively.ring
  have within := stopped.within
  have released := ring.released
  rw [writtenBy_finish] at within
  rcases stopped.fed with ⟨failed, fed⟩ | ⟨_, blocks, all, e, fed, tail⟩
  · -- Some block failed, and nothing follows it.
    have settled := Encoder.feed_settled outputs e₀
    have failed' : (Encoder.feed outputs e₀.settled).1 ≠ .ok := by
      rw [settled, fed]
      exact failed
    refine ⟨⟨_, outputs, (List.take_prefix _ _).trans within, released, ?_,
      fun fine => (failed' fine).elim⟩⟩
    rw [andThen_failed failed', settled, fed]
  · -- All blocks were emitted, and then the tail.
    have every : inputs.take s.ring.emit = inputs := by
      refine List.take_of_length_le ?_
      rw [ring.taken]
      exact all.symm.le
    rw [every] at released
    rw [writtenBy_finish] at blocks
    refine ⟨⟨inputs, outputs, within, released, ?_, fun _ => blocks⟩⟩
    rw [Encoder.feed_settled, fed, ← tail]
    exact (Encoder.finishTail_settled e).symm

end Results

section Refinement

/-- A parallel encoder `e` in a state of its run over `pieces`, with compression a function `f` of
a block: its output is that of the jobs of some blocks in their order, its slots hold the blocks that
have been submitted and not yet emitted, its threads are not stuck, and its output in the end is that
of the single-threaded encoder. -/
structure EncMt.Refines {nthreads : Nat} (e : Encoder) (f : Bytes → EncJob) (pieces : List Bytes)
    (s : EncMt Cctx nthreads) : Prop where
  order : ∃ k st, Encoder.feed (((allBlocks e.blockSize pieces.flatten).take k).map f) e =
      (st, s.enc) ∨
    ∃ e', Encoder.feed ((allBlocks e.blockSize pieces.flatten).map f) e = (.ok, e') ∧
      e'.finishTail = (st, s.enc)
  live : ∀ seq, s.emitSeq ≤ seq → seq < s.fillSeq →
    (allBlocks e.blockSize pieces.flatten)[seq]? = some (s.slot seq).block
  kept : ∀ a s', s.step (fun cctx block => compressJob e block cctx) a = some s' →
    ∀ seq, s.emitSeq ≤ seq → seq < s.fillSeq →
      (s'.slot seq).raw = (s.slot seq).raw ∧ (s'.slot seq).rawLen = (s.slot seq).rawLen
  progress : s.calls ≠ [] → (∃ signalled s', s.producerStep signalled = some s') ∨
    ∃ i s', s.workerStep (fun cctx block => compressJob e block cctx) i = some s'
  final : s.calls = [] →
    s.enc.out = (Encoder.writes { e with mt := none } pieces).finish.2.out

/-- A new encoder may be written to. -/
theorem Encoder.Created.ready {zstd : Option CodecVt} {sink : Nat → Bytes → Bytes → XqStatus}
    {p : XqParams} {rawSizeHint : UInt64} {e : Encoder} {record : Option FileDict}
    (fresh : e.Created zstd sink p rawSizeHint record) : e.Ready := by
  -- The parameters have been checked, so the block size is a power of two.
  obtain ⟨_, _, _, _, k, _, _, power⟩ := paramsCheck_ok fresh.accepted
  refine ⟨fresh.sticky, fresh.finished, ?_⟩
  rw [fresh.blockSize, power]
  exact Nat.two_pow_pos k

/--
The parallel encoder computes what the single-threaded one does, in every interleaving.

Compression is taken to be a function of a block's bytes, in contexts that it keeps good; neither the
sink nor the index has to succeed, since a failure leaves both encoders at the same point.
-/
theorem parallel_refines {zstd : Option CodecVt} {m : Machine}
    {sink : Nat → Bytes → Bytes → XqStatus} {p : XqParams} {rawSizeHint : UInt64}
    {dict : Option XqDict} {e : Encoder}
    (created : encoderCreate zstd m sink p rawSizeHint dict = .ok e) {nthreads : Nat}
    (many : 2 ≤ nthreads) {Good : Cctx → Prop} {f : Bytes → EncJob}
    (compression : ∀ cctx block, Good cctx →
      (compressJob e block cctx).1 = f block ∧ Good (compressJob e block cctx).2)
    (own : Good e.cctx) {cctxs : Fin nthreads → Cctx} (contexts : ∀ i, Good (cctxs i))
    (pieces : List Bytes) {s : EncMt Cctx nthreads}
    (reached : EncMt.Reachable (fun cctx block => compressJob e block cctx)
      (EncMt.init e cctxs (pieces.map .write ++ [.finish])) s) :
    s.Refines e f pieces := by
  obtain ⟨record, fresh⟩ := encoderCreate_ok created
  have ready := fresh.ready
  have : NeZero nthreads := ⟨by omega⟩
  -- A job carries the block it was made of.
  have carries (cctx : Cctx) (block : Bytes) (good : Good cctx) :
      ({ (compressJob e block cctx).1 with raw := block } : EncJob) = f block := by
    rw [← (compression cctx block good).1]
    have raw := compressJob_raw e block cctx
    generalize (compressJob e block cctx).1 = j at raw
    subst raw
    rfl
  have compresses : Compresses (fun cctx block => compressJob e block cctx) Good
      (fun block j => j = f block) := fun cctx block good =>
    ⟨carries cctx block good, (compression cctx block good).2⟩
  have no_free : EncCall.free ∉ pieces.map .write ++ [.finish] := by
    intro member
    rcases List.mem_append.mp member with writes | last
    · obtain ⟨_, _, wrong⟩ := List.mem_map.mp writes
      cases wrong
    · cases List.mem_singleton.mp last
  obtain ⟨inputs, outputs, sound⟩ := reached.sound compresses ready no_free contexts
  have within := sound.within
  rw [writtenBy_finish] at within
  refine ⟨?_, fun seq live there => ?_, fun a s' stepped => sound.holds compresses stepped,
    sound.progress _, fun returned => ?_⟩
  · -- What is out is a front of the blocks, or all of them and the tail.
    obtain ⟨blocks, jobs, front, made, emitted⟩ := (sound.emitted ready).fed
    rw [writtenBy_finish] at front emitted
    obtain rfl := made_map made
    have some_blocks := List.prefix_iff_eq_take.mp front
    refine ⟨blocks.length, s.enc.sticky, ?_⟩
    rcases emitted with fed | ⟨_, all, tail⟩
    · rw [← some_blocks]
      exact .inl fed
    · rw [← all]
      exact .inr tail
  · -- A slot that is taken holds the block of its number.
    have here := sound.lively.ring.input seq live there
    obtain ⟨more, whole⟩ := within
    have short : seq < inputs.length := by
      rw [sound.lively.ring.taken]
      exact there
    rw [← whole, List.getElem?_append_left short]
    exact here
  · -- Both encoders have fed the jobs of all blocks.
    have parallel := (sound.ran returned).determined
    obtain ⟨lone, alone⟩ : ∃ lone : Encoder, lone = { e with mt := none } := ⟨_, rfl⟩
    have compresses' : lone.Compresses Good (fun block j => j = f block) := by
      subst alone
      exact compression
    have sequential : lone.Ran (fun block j => j = f block) pieces.flatten
        (lone.writes pieces).finish := by
      subst alone
      refine Encoder.writes_ran compresses' ready.good ⟨?_, ready.unfinished⟩ fresh.raw own pieces
      show e.raw.length < e.blockSize
      rw [fresh.raw]
      exact ready.positive
    have settled : lone.settled = e.settled ∧ lone.blockSize = e.blockSize := by
      subst alone
      exact ⟨rfl, rfl⟩
    have same := sequential.determined
    rw [settled.1, settled.2] at same
    rw [← alone]
    exact congrArg (fun r => r.2.out) (parallel.trans same.symm)

/-- Contexts of the lzb codec whose allocator grants every request. -/
def Cctx.GrantedLzb (c : Cctx) : Prop := ∃ l : LzbCctx, c = .lzb l ∧ l.Granted

/-- In such contexts the job of a block is that of a fresh context. -/
theorem compressJob_lzb {e : Encoder} (codec : e.codec = lzbVt) {cctx : Cctx} (block : Bytes)
    (good : cctx.GrantedLzb) :
    (compressJob e block cctx).1 = (compressJob e block (.lzb (lzbCctxNew grantingHeap))).1 ∧
      (compressJob e block cctx).2.GrantedLzb := by
  -- A fresh context and a used one compress alike, and both stay granted.
  obtain ⟨l, rfl, granted⟩ := good
  constructor
  · refine compressJob_answer ?_
    rw [codec]
    exact lzbCompress_same granted (fun _ => rfl) e.cbufCap block e.p.level
      (e.cdict.bind Cdict.asLzb)
  · rw [compressJob_context, codec]
    exact ⟨_, rfl, lzbCompress_keeps granted e.cbufCap block e.p.level (e.cdict.bind Cdict.asLzb)⟩

/-- Parameters of an lzb container with two threads. -/
def pairParams : XqParams :=
  { level := 1, blockSize := 4096, dictSize := 0, codec := .lzb, checksum := .crc32c, threads := 2,
    memLimit := 0 }

/-- The state after some actions, when each of them can be taken. -/
def EncMt.after {γ : Type} {nthreads : Nat} (compress : γ → Bytes → EncJob × γ) :
    EncMt γ nthreads → List (EncAction nthreads) → Option (EncMt γ nthreads)
  | s, [] => some s
  | s, a :: rest => (s.step compress a).bind fun s => s.after compress rest

theorem EncMt.Reachable.after {γ : Type} {nthreads : Nat} {compress : γ → Bytes → EncJob × γ}
    {start s s' : EncMt γ nthreads} (reached : EncMt.Reachable compress start s)
    {actions : List (EncAction nthreads)} (taken : s.after compress actions = some s') :
    EncMt.Reachable compress start s' := by
  induction actions generalizing s with
  | nil =>
    obtain rfl := Option.some.inj taken
    exact reached
  | cons a rest ih =>
    -- The first action is one more step, and the rest starts where it ends.
    obtain ⟨between, step, rest⟩ := Option.bind_eq_some_iff.mp taken
    exact ih (.step a reached step) rest

/-- Three bytes in two pieces: one worker sleeps and is woken, the other compresses the block, and the
producer waits for it, emits the block and ends the file. -/
def pairActions : List (EncAction 2) :=
  [.worker 1] ++ List.replicate 7 (.producer none) ++
    [.producer (some 1), .worker 0, .worker 1] ++ List.replicate 3 (.producer none) ++
    [.worker 0, .worker 0] ++ List.replicate 5 (.producer none)

/-- Two threads that have written three bytes and finished. -/
theorem parallel_refines_two : ∃ e s,
    encoderCreate none openMachine (fun _ _ _ => .ok) pairParams 3 none = .ok e ∧
      (EncMt.init e (fun _ : Fin 2 => .lzb (lzbCctxNew grantingHeap))
        ([[1], [2, 3]].map .write ++ [.finish])).after
          (fun cctx block => compressJob e block cctx) pairActions = some s ∧
      s.results = [.ok, .ok, .ok] ∧ s.fillSeq = 1 ∧ s.emitSeq = 1 ∧
      s.Refines e (fun block => (compressJob e block (.lzb (lzbCctxNew grantingHeap))).1)
        [[1], [2, 3]] := by
  -- The run is evaluated as far as its results and its counters.
  have ran : (encoderCreate none openMachine (fun _ _ _ => .ok) pairParams 3 none).toOption.any
      (fun e => ((EncMt.init e (fun _ : Fin 2 => .lzb (lzbCctxNew grantingHeap))
        ([[1], [2, 3]].map .write ++ [.finish])).after
          (fun cctx block => compressJob e block cctx) pairActions).any fun s =>
            decide (s.results = [.ok, .ok, .ok] ∧ s.fillSeq = 1 ∧ s.emitSeq = 1)) = true := by
    decide +kernel
  cases created : encoderCreate none openMachine (fun _ _ _ => .ok) pairParams 3 none with
  | error failed =>
    rw [created] at ran
    cases ran
  | ok e =>
    rw [created] at ran
    cases taken : (EncMt.init e (fun _ : Fin 2 => .lzb (lzbCctxNew grantingHeap))
      ([[1], [2, 3]].map .write ++ [.finish])).after
        (fun cctx block => compressJob e block cctx) pairActions with
    | none =>
      rw [Except.toOption, Option.any_some, taken] at ran
      cases ran
    | some s =>
      rw [Except.toOption, Option.any_some, taken] at ran
      obtain ⟨results, filled, emitted⟩ := of_decide_eq_true ran
      refine ⟨e, s, rfl, taken, results, filled, emitted, ?_⟩
      obtain ⟨_, fresh⟩ := encoderCreate_ok created
      have codec : e.codec = lzbVt := (Option.some.inj fresh.codec).symm
      have granted : Cctx.GrantedLzb (.lzb (lzbCctxNew grantingHeap)) := ⟨_, rfl, fun _ => rfl⟩
      -- The encoder's own context is good as well: it is new, and at most a dictionary went through.
      have own : e.cctx.GrantedLzb := by
        have found : codecGet none pairParams.codec.id = some lzbVt := rfl
        refine encoderCreate_context found ⟨_, rfl, fun _ => rfl⟩ ?_ created
        rintro c cap src level ⟨l, rfl, granted⟩
        exact ⟨_, rfl, lzbCompress_keeps granted cap src level none⟩
      exact parallel_refines created le_rfl
        (fun cctx block good => compressJob_lzb codec block good) own (fun _ => granted)
        [[1], [2, 3]] (EncMt.Reachable.refl.after taken)

end Refinement

end Xq
