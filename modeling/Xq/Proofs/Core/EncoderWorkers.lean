import Xq.Core.EncoderThreads
import Xq.Lib.SlotRing

/-! The workers of a parallel encoder: whatever they do, the ring stays in order, and the producer's
side of it stays as it was. -/

namespace Xq

open Lib

variable {γ : Type} {nthreads : Nat}

section Ring

/-- What a worker holds of the ring. -/
def Worker.claim : Worker → Option (Nat × Bool)
  | .busy seq => some (seq, false)
  | .storing seq => some (seq, true)
  | .top => none
  | .asleep => none
  | .exited => none

def EncSlot.ringSlot (slot : EncSlot) : RingSlot Bytes EncJob :=
  { input := slot.block, output := slot.finished, done := slot.state = .done }

/-- The ring under a parallel encoder. -/
def EncMt.ring (s : EncMt γ nthreads) : SlotRing Bytes EncJob (Fin nthreads) :=
  { size := s.nslots
    slots := fun i => (s.slots i).ringSlot
    fill := s.fillSeq
    work := s.workSeq
    emit := s.emitSeq
    held := fun i => (s.workers i).claim }

variable (s : EncMt γ nthreads)

theorem EncMt.ring_setSlot (seq : Nat) (slot : EncSlot) :
    (s.setSlot seq slot).ring = s.ring.put seq slot.ringSlot := by
  -- What the ring sees of a slot is a function of the slot.
  have slots : (fun i => (Function.update s.slots (seq % s.nslots) slot i).ringSlot) =
      Function.update (fun i => (s.slots i).ringSlot) (seq % s.nslots) slot.ringSlot :=
    Function.comp_update EncSlot.ringSlot s.slots (seq % s.nslots) slot
  rw [SlotRing.put]
  show SlotRing.mk _ (fun i => (Function.update s.slots (seq % s.nslots) slot i).ringSlot) _ _ _ _ =
    _
  rw [slots]
  rfl

theorem EncMt.ring_worker (i : Fin nthreads) (w : Worker) :
    EncMt.ring { s with workers := Function.update s.workers i w } = s.ring.hold i w.claim := by
  -- Of a worker the ring sees its claim alone.
  have held : (fun j => (Function.update s.workers i w j).claim) =
      Function.update (fun j => (s.workers j).claim) i w.claim :=
    Function.comp_update Worker.claim s.workers i w
  rw [SlotRing.hold]
  show SlotRing.mk _ _ _ _ _ (fun j => (Function.update s.workers i w j).claim) = _
  rw [held]
  rfl

/-- A worker that holds nothing may go on to hold nothing. -/
theorem EncMt.ring_idle {i : Fin nthreads} {w : Worker} (before : (s.workers i).claim = none)
    (after : w.claim = none) :
    EncMt.ring { s with workers := Function.update s.workers i w } = s.ring := by
  -- The update is by what is there.
  rw [EncMt.ring_worker, SlotRing.hold, after]
  have same : Function.update s.ring.held i none = s.ring.held := by
    rw [← before]
    exact Function.update_eq_self i _
  rw [same]

theorem Worker.claim_wake (w : Worker) : (wake w).claim = w.claim := by
  cases w
  all_goals rfl

/-- Waking workers up does not touch the ring. -/
theorem EncMt.ring_broadcastWork : s.broadcastWork.ring = s.ring := by
  -- A claim does not change on waking up.
  have held : (fun i => (wake (s.workers i)).claim) = fun i => (s.workers i).claim :=
    funext fun i => (s.workers i).claim_wake
  show SlotRing.mk _ _ _ _ _ (fun i => (wake (s.workers i)).claim) = _
  rw [held]
  rfl

end Ring

section Workers

variable {Good : γ → Prop} {Made : Bytes → EncJob → Prop}
  {compress : γ → Bytes → EncJob × γ} {s s' : EncMt γ nthreads} {inputs : List Bytes}
  {outputs : List EncJob}

/-- Working on a block in a good context makes a job of a kind, and leaves the context good. -/
def Compresses (compress : γ → Bytes → EncJob × γ) (Good : γ → Prop)
    (Made : Bytes → EncJob → Prop) : Prop :=
  ∀ cctx block, Good cctx →
    Made block { (compress cctx block).1 with raw := block } ∧ Good (compress cctx block).2

/-- What holds of ring and workers, whatever the producer does: the ring is in order, the contexts
are good, while there is work some worker is awake, and a job that failed is still to be emitted,
unless the encoder has failed. -/
structure EncMt.Lively (Good : γ → Prop) (Made : Bytes → EncJob → Prop) (inputs : List Bytes)
    (outputs : List EncJob) (s : EncMt γ nthreads) : Prop where
  ring : s.ring.Inv Made inputs outputs
  contexts : ∀ i, Good (s.cctxs i)
  awake : s.workSeq < s.fillSeq → ∃ i, s.workers i ≠ .asleep
  open_ : s.quit = false
  working : ∀ i, s.workers i ≠ .exited
  jobs : ∀ i, (s.slots i).job.st ≠ .ok →
    s.enc.sticky ≠ .ok ∨ ∃ seq, s.emitSeq ≤ seq ∧ seq < s.workSeq ∧ seq % s.nslots = i

/-- What a worker leaves alone: all that is the producer's, and the block at the front once it is
done. A producer that goes on waiting waits for the same thing. -/
structure EncMt.WorkerFrame (s s' : EncMt γ nthreads) : Prop where
  enc : s'.enc = s.enc
  calls : s'.calls = s.calls
  results : s'.results = s.results
  fillSeq : s'.fillSeq = s.fillSeq
  emitSeq : s'.emitSeq = s.emitSeq
  cur : s'.cur = s.cur
  rawLen : s'.rawLen = s.rawLen
  raw : ∀ i, (s'.slots i).raw = (s.slots i).raw ∧ (s'.slots i).rawLen = (s.slots i).rawLen
  front : (s.slot s.emitSeq).state = .done → s'.slot s.emitSeq = s.slot s.emitSeq
  producer : s'.producer = s.producer ∧
      (∀ k, s.producer = .waiting k →
        (s'.slot s.emitSeq).state = (s.slot s.emitSeq).state) ∨
    ∃ k, s.producer = .waiting k ∧ s'.producer = .woken k

/-- A step that only moves a worker on. -/
theorem EncMt.WorkerFrame.moving {i : Fin nthreads} {w : Worker} {work : Nat} :
    s.WorkerFrame { s with workers := Function.update s.workers i w, workSeq := work } :=
  ⟨rfl, rfl, rfl, rfl, rfl, rfl, rfl, fun _ => ⟨rfl, rfl⟩, fun _ => rfl, .inl ⟨rfl, fun _ _ => rfl⟩⟩

/-- A worker that moves on is awake. -/
theorem EncMt.still_awake (s : EncMt γ nthreads) {i : Fin nthreads} {w : Worker}
    (up : w ≠ .asleep) : ∃ j, Function.update s.workers i w j ≠ .asleep :=
  ⟨i, by rwa [Function.update_self]⟩

theorem EncMt.Lively.still_working (lively : s.Lively Good Made inputs outputs) {i : Fin nthreads}
    {w : Worker} (stays : w ≠ .exited) (j : Fin nthreads) :
    Function.update s.workers i w j ≠ .exited := by
  -- Every other worker is where it was.
  rw [Function.update_apply]
  split
  · exact stays
  · exact lively.working j

/-- A slot that a worker holds is not the front once that is done. -/
theorem EncMt.Lively.holds_other (lively : s.Lively Good Made inputs outputs) {i : Fin nthreads}
    {seq : Nat} {made : Bool} (held : (s.workers i).claim = some (seq, made))
    (slot : EncSlot) (done : (s.slot s.emitSeq).state = .done) :
    (s.setSlot seq slot).slot s.emitSeq = s.slot s.emitSeq := by
  -- The worker's slot is not done, so its number is not that of the front, and the ring is too
  -- short for the two numbers to share a slot.
  obtain ⟨live, there, idle, _⟩ := lively.ring.holding i seq made held
  have work_le := lively.ring.work_le
  have room := lively.ring.room
  have other : seq ≠ s.emitSeq := by
    rintro rfl
    have busy : decide ((s.slot s.emitSeq).state = .done) = false := idle
    rw [done] at busy
    cases busy
  have differ : s.emitSeq % s.nslots ≠ seq % s.nslots := by
    refine SlotRing.slot_ne (n := s.nslots) s.emitSeq le_rfl ?_ live ?_ other.symm
    · change s.fillSeq ≤ s.emitSeq + s.nslots at room
      change seq < s.workSeq at there
      change s.workSeq ≤ s.fillSeq at work_le
      change s.emitSeq ≤ seq at live
      omega
    · change s.fillSeq ≤ s.emitSeq + s.nslots at room
      change seq < s.workSeq at there
      change s.workSeq ≤ s.fillSeq at work_le
      omega
  exact Function.update_of_ne differ _ _

/-- The blocks of all slots stay as they are when one slot is given a job or a state. -/
theorem EncMt.setSlot_raw (seq : Nat) (slot : EncSlot)
    (same : slot.raw = (s.slot seq).raw ∧ slot.rawLen = (s.slot seq).rawLen) (i : Nat) :
    ((s.setSlot seq slot).slots i).raw = (s.slots i).raw ∧
      ((s.setSlot seq slot).slots i).rawLen = (s.slots i).rawLen := by
  -- The one slot that changes keeps its block by assumption.
  show (Function.update s.slots (seq % s.nslots) slot i).raw = _ ∧
    (Function.update s.slots (seq % s.nslots) slot i).rawLen = _
  rw [Function.update_apply]
  split
  · rename_i here
    rw [here]
    exact same
  · exact ⟨rfl, rfl⟩

theorem EncMt.setSlot_job (seq : Nat) (slot : EncSlot) (same : slot.job = (s.slot seq).job)
    (i : Nat) : ((s.setSlot seq slot).slots i).job = (s.slots i).job := by
  -- As for the blocks, only the slot written to needs a look.
  show (Function.update s.slots (seq % s.nslots) slot i).job = _
  rw [Function.update_apply]
  split
  · rename_i here
    rw [here]
    exact same
  · rfl

theorem EncMt.setSlot_state (seq : Nat) (slot : EncSlot)
    (same : slot.state = (s.slot seq).state) (n : Nat) :
    ((s.setSlot seq slot).slot n).state = (s.slot n).state := by
  -- Two numbers may share the slot written to, which is why the slots are compared and not the
  -- numbers.
  show (Function.update s.slots (seq % s.nslots) slot (n % s.nslots)).state = _
  rw [Function.update_apply]
  split
  · rename_i here
    rw [same, EncMt.slot, EncMt.slot, here]
  · rfl

theorem EncMt.Lively.broadcastDone (lively : s.Lively Good Made inputs outputs) :
    s.broadcastDone.Lively Good Made inputs outputs := by
  -- Waking the producer up concerns neither ring nor workers.
  unfold EncMt.broadcastDone
  split
  · exact ⟨lively.ring, lively.contexts, lively.awake, lively.open_, lively.working, lively.jobs⟩
  · exact lively

/-- A worker has stored its job, and has yet to tell the producer. -/
def EncMt.stored (s : EncMt γ nthreads) (i : Fin nthreads) (seq : Nat) : EncMt γ nthreads :=
  { s.setSlot seq { s.slot seq with state := .done } with
    workers := Function.update s.workers i .top }

theorem EncMt.Lively.stored (lively : s.Lively Good Made inputs outputs) {i : Fin nthreads}
    {seq : Nat} (held : (s.workers i).claim = some (seq, true)) :
    (s.stored i seq).Lively Good Made inputs outputs := by
  -- The ring lets the holder of a finished claim store it, and the worker goes back to its loop.
  have ring := lively.ring.store (i := i) held
  refine ⟨?_, lively.contexts, fun _ => s.still_awake (by rintro ⟨⟩), lively.open_,
    lively.still_working (by rintro ⟨⟩), fun j failed => ?_⟩
  · have slots := s.ring_setSlot seq { s.slot seq with state := .done }
    have same := (s.setSlot seq { s.slot seq with state := .done }).ring_worker i .top
    rw [slots] at same
    exact same ▸ ring
  · -- The job was written in an earlier step.
    refine lively.jobs j ?_
    rwa [← EncMt.setSlot_job (s := s) seq { s.slot seq with state := .done } rfl]

/-- A producer that waits is woken up, and finds out for itself whether the front is done. -/
theorem EncMt.Lively.stored_frame (lively : s.Lively Good Made inputs outputs)
    {i : Fin nthreads} {seq : Nat} (held : (s.workers i).claim = some (seq, true)) :
    s.WorkerFrame (s.stored i seq).broadcastDone := by
  -- Nothing of the producer's changes but for its waking up.
  have raw := EncMt.setSlot_raw (s := s) seq { s.slot seq with state := .done } ⟨rfl, rfl⟩
  have front := lively.holds_other held { s.slot seq with state := .done }
  cases waiting : s.producer with
  | waiting k =>
    have woken : (s.stored i seq).broadcastDone = { s.stored i seq with producer := .woken k } := by
      rw [EncMt.broadcastDone, show (s.stored i seq).producer = _ from waiting]
    rw [woken]
    exact ⟨rfl, rfl, rfl, rfl, rfl, rfl, rfl, raw, front, .inr ⟨k, waiting, rfl⟩⟩
  | _ =>
    -- The broadcast finds nobody waiting.
    have asleep : (s.stored i seq).broadcastDone = s.stored i seq := by
      rw [EncMt.broadcastDone, show (s.stored i seq).producer = _ from waiting]
    rw [asleep]
    refine ⟨rfl, rfl, rfl, rfl, rfl, rfl, rfl, raw, front, .inl ⟨rfl, fun k here => ?_⟩⟩
    rw [waiting] at here
    cases here

/-- Every step of a worker keeps the ring in order, and everybody awake that should be. -/
theorem EncMt.Lively.worker (compresses : Compresses compress Good Made)
    (lively : s.Lively Good Made inputs outputs) {i : Fin nthreads}
    (stepped : s.workerStep compress i = some s') :
    s'.Lively Good Made inputs outputs ∧ s.WorkerFrame s' := by
  -- One case for each place of a worker: `top` claims a block or sleeps, `busy` works outside the
  -- lock, `storing` reports back.
  unfold EncMt.workerStep at stepped
  cases place : s.workers i with
  | asleep =>
    -- A sleeping worker has no step of its own.
    rw [place] at stepped
    cases stepped
  -- Nobody leaves while the encoder is open.
  | exited => exact (lively.working i place).elim
  | top =>
    have free : (s.workers i).claim = none := by
      rw [place]
      rfl
    rw [place] at stepped
    dsimp only at stepped
    by_cases none_left : s.workSeq ≥ s.fillSeq
    · -- Nothing to do: the worker goes to sleep.
      have sleeps : (if s.quit = true then Worker.exited else .asleep) = .asleep := by
        rw [lively.open_]
        rfl
      rw [if_pos none_left, sleeps] at stepped
      obtain rfl := Option.some.inj stepped
      refine ⟨⟨?_, lively.contexts, fun some_work => ?_, lively.open_, ?_, lively.jobs⟩, .moving⟩
      · have same := s.ring_idle (w := .asleep) free rfl
        rw [show EncMt.ring _ = s.ring from same]
        exact lively.ring
      · exact absurd some_work (Nat.not_lt.mpr none_left)
      · exact lively.still_working (by decide)
    · -- The worker claims the next block, which the ring gives it.
      rw [if_neg none_left] at stepped
      obtain rfl := Option.some.inj stepped
      refine ⟨⟨?_, lively.contexts, fun _ => s.still_awake (by rintro ⟨⟩), lively.open_, ?_,
        fun j failed => ?_⟩, .moving⟩
      · have claimed := lively.ring.claim (Nat.not_le.mp none_left) (i := i) free
        have same := s.ring_worker i (.busy s.workSeq)
        have ring : EncMt.ring { s with
            workers := Function.update s.workers i (.busy s.workSeq), workSeq := s.workSeq + 1 } =
            { s.ring.hold i (some (s.workSeq, false)) with work := s.workSeq + 1 } := by
          rw [show some (s.workSeq, false) = (Worker.busy s.workSeq).claim from rfl, ← same]
          rfl
        rw [ring]
        exact claimed
      · exact lively.still_working (by rintro ⟨⟩)
      · -- The range of blocks claimed only grows.
        rcases lively.jobs j failed with stopped | ⟨seq, live, early, here⟩
        · exact .inl stopped
        · exact .inr ⟨seq, live, Nat.lt_succ_of_lt early, here⟩
  | busy seq =>
    -- The worker's context makes a job of the block, and is good again afterwards.
    have held : (s.workers i).claim = some (seq, false) := by
      rw [place]
      rfl
    rw [place] at stepped
    dsimp only at stepped
    obtain ⟨made, good⟩ := compresses (s.cctxs i) (s.slot seq).block (lively.contexts i)
    generalize compress (s.cctxs i) (s.slot seq).block = result at stepped made good
    obtain ⟨job, cctx⟩ := result
    obtain rfl := Option.some.inj stepped
    have made' : Made (s.ring.slot seq).input { job with raw := (s.slot seq).block } := made
    have ring := lively.ring.make held made'
    refine ⟨⟨?_, fun j => ?_, fun _ => s.still_awake (by rintro ⟨⟩), lively.open_, ?_,
      fun j failed => ?_⟩, ?_⟩
    · -- The ring lets the holder of a claim work on its slot.
      have slots := s.ring_setSlot seq { s.slot seq with job := job }
      have same := (s.setSlot seq { s.slot seq with job := job }).ring_worker i (.storing seq)
      rw [slots] at same
      exact same ▸ ring
    · -- Only this worker's context has been used.
      show Good (Function.update s.cctxs i cctx j)
      rw [Function.update_apply]
      split
      · exact good
      · exact lively.contexts j
    · exact lively.still_working (by rintro ⟨⟩)
    · -- The slot is live, so its job is still to be emitted.
      by_cases here : j = seq % s.nslots
      · obtain ⟨live, early, _⟩ := lively.ring.holding i seq false held
        exact .inr ⟨seq, live, early, here.symm⟩
      · refine lively.jobs j ?_
        change (Function.update s.slots (seq % s.nslots) _ j).job.st ≠ .ok at failed
        rwa [Function.update_of_ne here] at failed
    · -- The block and the state of the slot are as they were.
      refine ⟨rfl, rfl, rfl, rfl, rfl, rfl, rfl, EncMt.setSlot_raw _ _ ⟨rfl, rfl⟩,
        lively.holds_other held _, .inl ⟨rfl, fun _ _ => ?_⟩⟩
      exact EncMt.setSlot_state _ { s.slot seq with job := job } rfl s.emitSeq
  | storing seq =>
    -- The slot is marked done, and the producer is told.
    have held : (s.workers i).claim = some (seq, true) := by
      rw [place]
      rfl
    rw [place] at stepped
    dsimp only at stepped
    obtain rfl := Option.some.inj stepped
    refine ⟨?_, lively.stored_frame held⟩
    exact (lively.stored held).broadcastDone

end Workers

end Xq
