import Xq.Core.Encoder

/-! The parallel encoder: a ring of slots between one producer and its workers, as a step function
over their lock-protected sections. Each action runs one thread from one release of the lock to the
next, and waiting on a condition variable is a state of its own. -/

namespace Xq

inductive SlotState
  | free
  | ready
  | done
  deriving DecidableEq, Repr

/-- A slot of the ring; `raw` is its block buffer and `rawLen` the length it was submitted with. -/
structure EncSlot where
  raw : Bytes
  rawLen : Nat
  job : EncJob
  state : SlotState

/-- The block a slot was submitted with. -/
def EncSlot.block (s : EncSlot) : Bytes := s.raw.take s.rawLen

/-- The finished job of a slot, as `emit_job` finds it. -/
def EncSlot.finished (s : EncSlot) : EncJob := { s.job with raw := s.block }

/-- The calls a caller makes on an encoder. -/
inductive EncCall
  | write (buf : Bytes)
  | finish
  | free

/-- Where `flush_block` returns to. -/
inductive FlushFrom
  | write (rest : Bytes)
  | finish

/-- Where `mt_emit_one` returns to. -/
inductive EmitFrom
  | submit (k : FlushFrom)
  | drain

/-- The producer's place in the code, always outside the lock. -/
inductive Producer
  | idle
  | copying (rest : Bytes)
  | submitting (n : Nat) (k : FlushFrom)
  | checking (k : FlushFrom)
  | taking (k : EmitFrom)
  | waiting (k : EmitFrom)
  | woken (k : EmitFrom)
  | emitting (k : EmitFrom)
  | freeing (st : XqStatus) (k : EmitFrom)
  | draining
  | closing
  | joining

/-- A worker's place in the code, always outside the lock. -/
inductive Worker
  | top
  | asleep
  | busy (seq : Nat)
  | storing (seq : Nat)
  | exited
  deriving DecidableEq, Repr

/-- `xq_enc_mt` together with its threads. `γ` is a worker's compression context, `cur` the slot
the encoder's block buffer points into, `rawLen` the bytes gathered there, `calls` what the caller
has yet to do and `results` what its calls have returned. -/
structure EncMt (γ : Type) (nthreads : Nat) where
  enc : Encoder
  slots : Nat → EncSlot
  cur : Nat
  rawLen : Nat
  fillSeq : Nat
  workSeq : Nat
  emitSeq : Nat
  quit : Bool
  producer : Producer
  workers : Fin nthreads → Worker
  cctxs : Fin nthreads → γ
  calls : List EncCall
  results : List XqStatus

/-- One step of one thread; a wakeup is spurious when no signal or broadcast caused it. -/
inductive EncAction (nthreads : Nat)
  | producer (signalled : Option (Fin nthreads))
  | worker (i : Fin nthreads)
  | spuriousProducer
  | spuriousWorker (i : Fin nthreads)

variable {γ : Type} {nthreads : Nat}

def EncMt.nslots (_ : EncMt γ nthreads) : Nat := nthreads * 2

/-- The slot a sequence number is mapped to. -/
def EncMt.slot (s : EncMt γ nthreads) (seq : Nat) : EncSlot := s.slots (seq % s.nslots)

def EncMt.setSlot (s : EncMt γ nthreads) (seq : Nat) (slot : EncSlot) : EncMt γ nthreads :=
  { s with slots := Function.update s.slots (seq % s.nslots) slot }

/-- The caller's current call returns. -/
def EncMt.ret (s : EncMt γ nthreads) (st : XqStatus) : EncMt γ nthreads :=
  { s with producer := .idle, calls := s.calls.tail, results := s.results ++ [st] }

def wake (w : Worker) : Worker := if w = .asleep then .top else w

/-- `cv_work` is broadcast: every worker waiting on it wakes up. -/
def EncMt.broadcastWork (s : EncMt γ nthreads) : EncMt γ nthreads :=
  { s with workers := fun i => wake (s.workers i) }

/-- `cv_work` is signalled: one worker waiting on it wakes up, if there is any. -/
def EncMt.signalWork (s : EncMt γ nthreads) (signalled : Option (Fin nthreads)) :
    Option (EncMt γ nthreads) :=
  match signalled with
  | none => if ∀ i, s.workers i ≠ .asleep then some s else none
  | some i =>
    if s.workers i = .asleep then
      some { s with workers := Function.update s.workers i .top }
    else none

/-- `cv_done` is broadcast: the producer wakes up when it is waiting on it. -/
def EncMt.broadcastDone (s : EncMt γ nthreads) : EncMt γ nthreads :=
  match s.producer with
  | .waiting k => { s with producer := .woken k }
  | _ => s

/-- `flush_block` past its first test, up to the lock of `mt_submit`. -/
def EncMt.flush (s : EncMt γ nthreads) (k : FlushFrom) : EncMt γ nthreads :=
  if s.enc.sticky ≠ .ok then s.ret s.enc.sticky
  else { s with rawLen := 0, producer := .submitting s.rawLen k }

/-- `mt_submit` has returned: the block buffer moves on to the next slot. -/
def EncMt.flushed (s : EncMt γ nthreads) (k : FlushFrom) : EncMt γ nthreads :=
  { s with
    cur := s.fillSeq % s.nslots
    producer := match k with
      | .write rest => .copying rest
      | .finish => .draining }

/-- `mt_emit_one` has returned success. -/
def EncMt.emitted (s : EncMt γ nthreads) (k : EmitFrom) : EncMt γ nthreads :=
  { s with
    producer := match k with
      | .submit k => .checking k
      | .drain => .draining }

/-- The first test of the wait loop of `mt_emit_one`. -/
def EncMt.awaitDone (s : EncMt γ nthreads) (k : EmitFrom) : EncMt γ nthreads :=
  if (s.slot s.emitSeq).state = .done then { s with producer := .emitting k }
  else { s with producer := .waiting k }

/-- A call begins. -/
def EncMt.call (s : EncMt γ nthreads) : Option (EncMt γ nthreads) :=
  match s.calls with
  | [] => none
  | .write buf :: _ =>
    if s.enc.sticky ≠ .ok then some (s.ret s.enc.sticky)
    else if s.enc.finished then some (s.ret .param)
    else some { s with producer := .copying buf }
  | .finish :: _ =>
    if s.enc.sticky ≠ .ok then some (s.ret s.enc.sticky)
    else if s.enc.finished then some (s.ret .ok)
    else if s.rawLen = 0 then some { s with producer := .draining }
    else some (s.flush .finish)
  | .free :: _ => some { s.broadcastWork with quit := true, producer := .joining }

/-- One round of the copying loop of `xq_encoder_write`, into the current slot's buffer. -/
def EncMt.copy (s : EncMt γ nthreads) (rest : Bytes) : EncMt γ nthreads :=
  if rest = [] then s.ret .ok
  else
    let room := s.enc.blockSize - s.rawLen
    let take := if rest.length < room then rest.length else room
    let slot := s.slots s.cur
    let slot := { slot with raw := slot.raw.take s.rawLen ++ rest.take take }
    let s := { s with slots := Function.update s.slots s.cur slot, rawLen := s.rawLen + take }
    if s.rawLen = s.enc.blockSize then s.flush (.write (rest.drop take))
    else { s with producer := .copying (rest.drop take) }

/-- A step of the producer. -/
def EncMt.producerStep (s : EncMt γ nthreads) (signalled : Option (Fin nthreads)) :
    Option (EncMt γ nthreads) :=
  match s.producer with
  | .idle => s.call
  | .copying rest => some (s.copy rest)
  | .submitting n k =>
    let slot := s.slot s.fillSeq
    let s := s.setSlot s.fillSeq { slot with rawLen := n, state := .ready }
    EncMt.signalWork { s with fillSeq := s.fillSeq + 1, producer := .checking k } signalled
  | .checking k =>
    if s.fillSeq - s.emitSeq ≥ s.nslots then some { s with producer := .taking (.submit k) }
    else some (s.flushed k)
  | .taking k => if s.emitSeq ≥ s.fillSeq then some (s.emitted k) else some (s.awaitDone k)
  | .waiting _ => none
  | .woken k => some (s.awaitDone k)
  | .emitting k =>
    let (st, enc) := s.enc.emitJob (s.slot s.emitSeq).finished
    some { s with enc := enc, producer := .freeing st k }
  | .freeing st k =>
    let slot := s.slot s.emitSeq
    let s := s.setSlot s.emitSeq { slot with state := .free }
    let s := EncMt.broadcastWork { s with emitSeq := s.emitSeq + 1 }
    if st ≠ .ok then some (s.ret st) else some (s.emitted k)
  | .draining =>
    if s.emitSeq < s.fillSeq then some { s with producer := .taking .drain }
    else some { s with producer := .closing }
  | .closing =>
    let (st, enc) := s.enc.finishTail
    some (EncMt.ret { s with enc := enc } st)
  | .joining => if ∀ i, s.workers i = .exited then some (s.ret .ok) else none

/-- A step of worker `i`; `compress` is `compress_job` on a slot's block. -/
def EncMt.workerStep (compress : γ → Bytes → EncJob × γ) (s : EncMt γ nthreads)
    (i : Fin nthreads) : Option (EncMt γ nthreads) :=
  match s.workers i with
  | .top =>
    if s.workSeq ≥ s.fillSeq then
      let next := if s.quit then Worker.exited else .asleep
      some { s with workers := Function.update s.workers i next }
    else
      some { s with
        workers := Function.update s.workers i (.busy s.workSeq), workSeq := s.workSeq + 1 }
  | .asleep => none
  | .busy seq =>
    let slot := s.slot seq
    let (job, cctx) := compress (s.cctxs i) slot.block
    let s := s.setSlot seq { slot with job := job }
    some { s with
      cctxs := Function.update s.cctxs i cctx
      workers := Function.update s.workers i (.storing seq) }
  | .storing seq =>
    let slot := s.slot seq
    let s := s.setSlot seq { slot with state := .done }
    some (EncMt.broadcastDone { s with workers := Function.update s.workers i .top })
  | .exited => none

def EncMt.step (compress : γ → Bytes → EncJob × γ) (s : EncMt γ nthreads) :
    EncAction nthreads → Option (EncMt γ nthreads)
  | .producer signalled => s.producerStep signalled
  | .worker i => s.workerStep compress i
  | .spuriousProducer =>
    match s.producer with
    | .waiting k => some { s with producer := .woken k }
    | _ => none
  | .spuriousWorker i =>
    if s.workers i = .asleep then
      some { s with workers := Function.update s.workers i .top }
    else none

/-- The ring as `mt_create` leaves it: every slot zeroed, every worker at its loop. -/
def EncMt.init (enc : Encoder) (cctxs : Fin nthreads → γ) (calls : List EncCall) :
    EncMt γ nthreads :=
  { enc := enc
    slots := fun _ =>
      { raw := [], rawLen := 0, state := .free,
        job := { raw := [], cbuf := [], stored := false, ck := [], st := .ok } }
    cur := 0, rawLen := 0, fillSeq := 0, workSeq := 0, emitSeq := 0, quit := false,
    producer := .idle, workers := fun _ => .top, cctxs := cctxs, calls := calls, results := [] }

/-- The states some interleaving leads to. -/
inductive EncMt.Reachable (compress : γ → Bytes → EncJob × γ) (start : EncMt γ nthreads) :
    EncMt γ nthreads → Prop
  | refl : EncMt.Reachable compress start start
  | step {s s' : EncMt γ nthreads} (a : EncAction nthreads) :
    EncMt.Reachable compress start s → s.step compress a = some s' →
      EncMt.Reachable compress start s'

end Xq
