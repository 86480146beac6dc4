import Xq.Core.Reader

/-! Any number of threads reading on one handle, as a step function over their lock-protected
sections. Each action runs one thread from one release of a lock to the next; the decode of a
block happens between two of them, in a slot, and waiting for a slot is a state of its own. -/

namespace Xq

/-- A call of `block_copy` inside a call of `xq_reader_pread`: the request, clipped to the stream,
what has been delivered of it, and the block that comes next. -/
structure ReadCopy where
  n : Nat
  off : Nat
  out : Bytes
  bi : Nat
  within : Nat
  deriving DecidableEq, Repr

/-- A reading thread's place in the code, always outside the locks. The slot index is that of the
slot the thread has acquired. -/
inductive ReadPlace
  | idle
  | lookup (c : ReadCopy)
  | acquiring (c : ReadCopy)
  | waiting (c : ReadCopy)
  | decoding (c : ReadCopy) (si : Nat)
  | inserting (c : ReadCopy) (si : Nat) (len : Nat)
  | releasing (c : ReadCopy) (si : Nat) (result : Except XqStatus (Nat × Bytes))

/-- The slot a thread has acquired and not yet released. -/
def ReadPlace.slot : ReadPlace → Option Nat
  | .decoding _ si => some si
  | .inserting _ si _ => some si
  | .releasing _ si _ => some si
  | _ => none

/-- A reading thread; `calls` is what it has yet to read, and `results` what its calls have
returned. -/
structure ReadThread where
  place : ReadPlace
  calls : List (Nat × Nat)
  results : List (Except XqStatus Bytes)

/-- One handle and the threads that share it. -/
structure ReaderMt (ι : Type) where
  reader : Reader
  threads : ι → ReadThread

/-- One step of one thread; a wakeup is spurious when no signal caused it. -/
inductive ReadAction (ι : Type)
  | thread (i : ι) (signalled : Option ι)
  | spurious (i : ι)

/-- The head of the loop of `xq_reader_pread`: a result, or the next block to copy from. -/
def Reader.seek (r : Reader) (n off : Nat) (out : Bytes) :
    Except (Except XqStatus Bytes) ReadCopy :=
  if out.length < n then
    match fmtIndexFind r.entries r.nentries (UInt64.ofNat (off + out.length)) with
    | none => .error (.error .corruptIndex)
    | some bi =>
      .ok { n := n, off := off, out := out, bi := bi,
            within := off + out.length - (r.entryAt bi).rawOffset.toNat }
  else .error (.ok out)

/-- The head of `xq_reader_pread`. -/
def Reader.beginPread (r : Reader) (n off : Nat) : Except (Except XqStatus Bytes) ReadCopy :=
  if n = 0 then .error (.ok [])
  else if off ≥ r.rawSize.toNat then .error (.ok [])
  else r.seek (min n (r.rawSize.toNat - off)) off []

/-- The rest of a round, once `block_copy` has returned. -/
def Reader.afterCopy (r : Reader) (c : ReadCopy) (result : Except XqStatus (Nat × Bytes)) :
    Except (Except XqStatus Bytes) ReadCopy :=
  match result with
  | .error st => .error (.error st)
  | .ok (blen, got) =>
    if c.within ≥ blen then .error (.error .corruptBlock) else r.seek c.n c.off (c.out ++ got)

/-- A thread goes on to its next block, or its call returns. -/
def ReadThread.goOn (t : ReadThread) (next : Except (Except XqStatus Bytes) ReadCopy) :
    ReadThread :=
  match next with
  | .ok c => { t with place := .lookup c }
  | .error result =>
    { place := .idle, calls := t.calls.tail, results := t.results ++ [result] }

variable {ι : Type} [DecidableEq ι] (zstd : Option CodecVt)

def ReaderMt.setThread (s : ReaderMt ι) (i : ι) (t : ReadThread) : ReaderMt ι :=
  { s with threads := Function.update s.threads i t }

def ReaderMt.setPlace (s : ReaderMt ι) (i : ι) (place : ReadPlace) : ReaderMt ι :=
  s.setThread i { s.threads i with place := place }

/-- A thread waiting on `slot_cv` starts its scan again. -/
def ReaderMt.wake (s : ReaderMt ι) (i : ι) : Option (ReaderMt ι) :=
  match (s.threads i).place with
  | .waiting c => some (s.setPlace i (.acquiring c))
  | _ => none

/-- No thread waits on `slot_cv`. -/
def ReaderMt.NoneWaiting (s : ReaderMt ι) : Prop :=
  ∀ i c, (s.threads i).place ≠ .waiting c

/-- The lookup of `block_copy` under `cache_mu`. -/
def ReaderMt.lookup (s : ReaderMt ι) (i : ι) (c : ReadCopy) : ReaderMt ι :=
  let r := s.reader
  match r.cacheFind c.bi with
  | some k =>
    let data := ((r.cache.map CacheEntry.data).getD k [])
    let r := { r with
      cache := r.cache.modify k fun e => { e with used := r.clock + 1 }
      clock := r.clock + 1
      statHits := r.statHits + 1 }
    let copied := (data.length, blockBytes data c.within (c.n - c.out.length))
    ReaderMt.setThread { s with reader := r } i
      ((s.threads i).goOn (r.afterCopy c (.ok copied)))
  | none => s.setPlace i (.acquiring c)

/-- The scan of `slot_acquire` under `slot_mu`. -/
def ReaderMt.acquire (s : ReaderMt ι) (i : ι) (c : ReadCopy) : ReaderMt ι :=
  match s.reader.slotAcquire with
  | none => s.setPlace i (.waiting c)
  | some si =>
    let slots := s.reader.slots.modify si fun sl => { sl with busy := true }
    ReaderMt.setPlace { s with reader := { s.reader with slots := slots } } i (.decoding c si)

/-- `decode_block_slot`, outside the locks. -/
def ReaderMt.decode (s : ReaderMt ι) (i : ι) (c : ReadCopy) (si : Nat) : ReaderMt ι :=
  let r := s.reader
  let dctx := ((r.slots.map DecSlot.dctx).getD si .null)
  let (st, p) := Reader.decodeBlockSlot zstd r dctx c.bi
  let r := { r with
    slots := r.slots.modify si fun sl => { sl with dctx := p.dctx, raw := p.written }
    calls := r.calls ++ p.call.toList }
  ReaderMt.setPlace { s with reader := r } i
    (if st ≠ .ok then .releasing c si (.error st) else .inserting c si p.written.length)

/-- The insertion of `block_copy` under `cache_mu`, from the slot's buffer. -/
def ReaderMt.insert (s : ReaderMt ι) (i : ι) (c : ReadCopy) (si len : Nat) : ReaderMt ι :=
  let r := s.reader
  let data := ((r.slots.map DecSlot.raw).getD si []).take len
  let r := { r with
    cache := r.cache.modify (cacheVictim r.cache) fun _ =>
      { block := c.bi, used := r.clock + 1, data := data }
    clock := r.clock + 1
    statMisses := r.statMisses + 1 }
  ReaderMt.setPlace { s with reader := r } i
    (.releasing c si (.ok (len, blockBytes data c.within (c.n - c.out.length))))

/-- `slot_release` under `slot_mu`; the signal wakes one waiting thread, if there is any. -/
def ReaderMt.release (s : ReaderMt ι) (i : ι) (c : ReadCopy) (si : Nat)
    (result : Except XqStatus (Nat × Bytes)) : ReaderMt ι :=
  let slots := s.reader.slots.modify si fun sl => { sl with busy := false }
  let r := { s.reader with slots := slots }
  ReaderMt.setThread { s with reader := r } i ((s.threads i).goOn (r.afterCopy c result))

/-- One step of thread `i`; a release says whom its signal wakes. -/
inductive ReaderMt.Step (s : ReaderMt ι) : ReadAction ι → ReaderMt ι → Prop
  | begins {i : ι} {n off : Nat} {rest : List (Nat × Nat)} : (s.threads i).place = .idle →
    (s.threads i).calls = (n, off) :: rest → ReaderMt.Step s (.thread i none)
      (s.setThread i ((s.threads i).goOn (s.reader.beginPread n off)))
  | lookup {i : ι} {c : ReadCopy} : (s.threads i).place = .lookup c →
    ReaderMt.Step s (.thread i none) (s.lookup i c)
  | acquire {i : ι} {c : ReadCopy} : (s.threads i).place = .acquiring c →
    ReaderMt.Step s (.thread i none) (s.acquire i c)
  | decode {i : ι} {c : ReadCopy} {si : Nat} : (s.threads i).place = .decoding c si →
    ReaderMt.Step s (.thread i none) (s.decode zstd i c si)
  | insert {i : ι} {c : ReadCopy} {si len : Nat} : (s.threads i).place = .inserting c si len →
    ReaderMt.Step s (.thread i none) (s.insert i c si len)
  | release {i : ι} {c : ReadCopy} {si : Nat} {result : Except XqStatus (Nat × Bytes)} :
    (s.threads i).place = .releasing c si result → s.NoneWaiting →
      ReaderMt.Step s (.thread i none) (s.release i c si result)
  | signal {i j : ι} {c : ReadCopy} {si : Nat} {result : Except XqStatus (Nat × Bytes)}
    {woken : ReaderMt ι} : (s.threads i).place = .releasing c si result →
      (s.release i c si result).wake j = some woken →
        ReaderMt.Step s (.thread i (some j)) woken
  | spurious {j : ι} {woken : ReaderMt ι} : s.wake j = some woken →
    ReaderMt.Step s (.spurious j) woken

/-- The handle as opening leaves it, and threads that have yet to make their calls. -/
def ReaderMt.init (r : Reader) (issued : ι → List (Nat × Nat)) : ReaderMt ι :=
  { reader := r, threads := fun i => { place := .idle, calls := issued i, results := [] } }

/-- The states some interleaving leads to. -/
inductive ReaderMt.Reachable (start : ReaderMt ι) : ReaderMt ι → Prop
  | refl : ReaderMt.Reachable start start
  | step {s s' : ReaderMt ι} {a : ReadAction ι} :
    ReaderMt.Reachable start s → ReaderMt.Step zstd s a s' → ReaderMt.Reachable start s'

/-- The runs from a state, with the steps that threads take and the spurious wakeups counted. -/
inductive ReaderMt.Runs (start : ReaderMt ι) : Nat → Nat → ReaderMt ι → Prop
  | refl : ReaderMt.Runs start 0 0 start
  | thread {steps wakeups : Nat} {s s' : ReaderMt ι} {i : ι} {signalled : Option ι} :
    ReaderMt.Runs start steps wakeups s → ReaderMt.Step zstd s (.thread i signalled) s' →
      ReaderMt.Runs start (steps + 1) wakeups s'
  | spurious {steps wakeups : Nat} {s s' : ReaderMt ι} {j : ι} :
    ReaderMt.Runs start steps wakeups s → ReaderMt.Step zstd s (.spurious j) s' →
      ReaderMt.Runs start steps (wakeups + 1) s'

end Xq
