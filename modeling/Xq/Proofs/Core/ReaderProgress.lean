import Mathlib.Algebra.BigOperators.Group.Finset.Basic
import Xq.Proofs.Core.ReaderThreads

/-! Threads sharing one handle never get stuck, and all their reads return. -/

namespace Xq

variable {ι : Type} {zstd : Option CodecVt} {base : Reader} {issued : ι → List (Nat × Nat)}

section Liveness

/-- A thread that looks for a slot, or has one to give back. -/
def ReadPlace.stirs : ReadPlace → Bool
  | .acquiring _ => true
  | place => place.slot.isSome

/-- A thread that waits on `slot_cv`. -/
def ReadPlace.waits : ReadPlace → Bool
  | .waiting _ => true
  | _ => false

/-- There are slots, and every slot marked busy is held by a thread. -/
structure ReaderMt.Held (s : ReaderMt ι) : Prop where
  slots : s.reader.slots ≠ []
  busy : ∀ si, s.reader.slots[si]?.map DecSlot.busy = some true →
    ∃ i, (s.threads i).place.slot = some si

/-- While a thread waits, another one is on its way to a release. -/
def ReaderMt.Awake (s : ReaderMt ι) : Prop :=
  ∀ i, (s.threads i).place.waits → ∃ j, (s.threads j).place.stirs

theorem ReadPlace.stirs_of_slot {place : ReadPlace} {si : Nat} (held : place.slot = some si) :
    place.stirs := by
  -- A place with a slot is inside the copying of a block.
  cases place with
  | decoding c sj | inserting c sj len | releasing c sj result => rfl
  | idle | lookup c | acquiring c | waiting c => cases held

/-- A thread that goes on does not wait. -/
theorem ReadThread.goOn_waits (t : ReadThread) (next : Except (Except XqStatus Bytes) ReadCopy) :
    (t.goOn next).place.waits = false := by
  -- The thread is idle or looks up its next block.
  cases next <;> rfl

variable [DecidableEq ι] {s : ReaderMt ι}

/-- A step of one thread keeps the busy slots held when each of them is its own afterwards, or
was busy before and not its own. -/
theorem ReaderMt.Held.update (held : s.Held) {i : ι} {r : Reader} {t : ReadThread}
    (slots : r.slots ≠ [])
    (busy : ∀ si, r.slots[si]?.map DecSlot.busy = some true → t.place.slot = some si ∨
      s.reader.slots[si]?.map DecSlot.busy = some true ∧
        (s.threads i).place.slot ≠ some si) :
    ReaderMt.Held { reader := r, threads := Function.update s.threads i t } := by
  refine ⟨slots, fun si marked => ?_⟩
  dsimp only at marked ⊢
  rcases busy si marked with mine | ⟨before, other⟩
  · exact ⟨i, by rw [Function.update_self]; exact mine⟩
  · -- Whoever held it before still does.
    obtain ⟨j, theirs⟩ := held.busy si before
    have apart : j ≠ i := by
      rintro rfl
      exact other theirs
    exact ⟨j, by rw [Function.update_of_ne apart]; exact theirs⟩

/-- A thread that had no slot leaves the slots held when it changes none of them. -/
theorem ReaderMt.Held.move (held : s.Held) {i : ι} {r : Reader} {t : ReadThread}
    (same : r.slots = s.reader.slots) (before : (s.threads i).place.slot = none) :
    ReaderMt.Held { reader := r, threads := Function.update s.threads i t } := by
  -- It held none before, so it is not the one that a busy slot needs.
  refine held.update (same ▸ held.slots) fun si marked => .inr ⟨same ▸ marked, ?_⟩
  rw [before]
  exact Option.some_ne_none si ∘ Eq.symm

/-- A slot that is modified is still there. -/
theorem modify_ne_nil {α : Type} {l : List α} (some_elements : l ≠ []) (i : Nat) (f : α → α) :
    l.modify i f ≠ [] := by
  -- The length stays.
  intro none
  have length := congrArg List.length none
  rw [List.length_modify] at length
  exact some_elements (List.length_eq_zero_iff.mp length)

/-- A change to a slot that leaves its mark alone leaves all marks alone. -/
theorem busy_modify (slots : List DecSlot) (si : Nat) {f : DecSlot → DecSlot}
    (keeps : ∀ sl, (f sl).busy = sl.busy) (sj : Nat) :
    (slots.modify si f)[sj]?.map DecSlot.busy = slots[sj]?.map DecSlot.busy := by
  -- The mark is looked at in the slot modified or in another one.
  by_cases same : si = sj
  · subst same
    rw [List.getElem?_modify_eq]
    cases slots[si]? with
    | none => rfl
    | some sl => exact congrArg some (keeps sl)
  · rw [List.getElem?_modify_ne _ _ same]

/-- A release leaves the slot free, and the others as they are. -/
theorem ReaderMt.Held.release (held : s.Held) {i : ι} {c : ReadCopy} {si : Nat}
    {result : Except XqStatus (Nat × Bytes)}
    (at_place : (s.threads i).place = .releasing c si result) :
    (s.release i c si result).Held := by
  unfold ReaderMt.release
  refine held.update (modify_ne_nil held.slots _ _) fun sj marked => .inr ?_
  dsimp only at marked
  have mine : (s.threads i).place.slot = some si := by rw [at_place]; rfl
  by_cases same : si = sj
  · -- The slot that has been given up is not busy.
    subst same
    rw [List.getElem?_modify_eq] at marked
    cases there : s.reader.slots[si]? with
    | none =>
      rw [there] at marked
      cases marked
    | some sl =>
      rw [there] at marked
      cases marked
  · rw [List.getElem?_modify_ne _ _ same] at marked
    refine ⟨marked, ?_⟩
    rw [mine]
    exact fun equal => same (Option.some.inj equal)

/-- A thread that waits has no slot. -/
theorem ReaderMt.Held.wake (held : s.Held) {j : ι} {woken : ReaderMt ι}
    (wakes : s.wake j = some woken) : woken.Held := by
  -- Only a thread asleep is woken, and it holds no slot.
  rw [ReaderMt.wake] at wakes
  split at wakes
  · rename_i c at_place
    cases wakes
    exact held.move rfl (by rw [at_place]; rfl)
  · cases wakes

/-- A thread that keeps its slot keeps it busy. -/
theorem ReaderMt.Held.keep (held : s.Held) {i : ι} {r : Reader} {t : ReadThread}
    (slots : r.slots ≠ [])
    (same : ∀ si : Nat, r.slots[si]?.map DecSlot.busy = s.reader.slots[si]?.map DecSlot.busy)
    (kept : t.place.slot = (s.threads i).place.slot) :
    ReaderMt.Held { reader := r, threads := Function.update s.threads i t } := by
  -- A busy slot is held by this thread, as before, or by another one.
  refine held.update slots fun si marked => ?_
  by_cases mine : (s.threads i).place.slot = some si
  · exact .inl (kept.trans mine)
  · exact .inr ⟨(same si).symm.trans marked, mine⟩

/-- Every step keeps the busy slots held. -/
theorem ReaderMt.Held.step (held : s.Held) {a : ReadAction ι} {s' : ReaderMt ι}
    (step : ReaderMt.Step zstd s a s') : s'.Held := by
  cases step with
  | begins at_place _ => exact held.move rfl (by rw [at_place]; rfl)
  | lookup at_place =>
    unfold ReaderMt.lookup
    dsimp only
    -- A lookup touches the cache at most.
    split
    · exact held.move rfl (by rw [at_place]; rfl)
    · exact held.move rfl (by rw [at_place]; rfl)
  | acquire at_place =>
    unfold ReaderMt.acquire
    split
    · exact held.move rfl (by rw [at_place]; rfl)
    next si acquired =>
      refine held.update (modify_ne_nil held.slots _ _) fun sj marked => ?_
      dsimp only at marked
      by_cases same : si = sj
      · exact .inl (congrArg some same)
      · rw [List.getElem?_modify_ne _ _ same] at marked
        exact .inr ⟨marked, by rw [at_place]; exact fun wrong => by cases wrong⟩
  | @decode i c si at_place =>
    unfold ReaderMt.decode
    dsimp only
    generalize Reader.decodeBlockSlot zstd s.reader _ c.bi = answer
    obtain ⟨st, p⟩ := answer
    -- The decode changes the context and the buffer of its slot.
    refine held.keep (modify_ne_nil held.slots _ _) (busy_modify _ _ fun _ => rfl) ?_
    rw [at_place]
    split <;> rfl
  | insert at_place =>
    exact held.keep held.slots (fun _ => rfl) (by rw [at_place]; rfl)
  | release at_place _ => exact held.release at_place
  | signal at_place wakes => exact (held.release at_place).wake wakes
  | spurious wakes => exact held.wake wakes

/-- A step after which its thread stirs, or that neither stops it stirring nor makes it wait,
leaves somebody to wake those who wait. -/
theorem ReaderMt.Awake.update (awake : s.Awake) {i : ι} {r : Reader} {t : ReadThread}
    (stays : t.place.stirs ∨
      (s.threads i).place.stirs = false ∧ t.place.waits = false) :
    ReaderMt.Awake { reader := r, threads := Function.update s.threads i t } := by
  intro j waits
  dsimp only at waits ⊢
  rcases stays with stirs | ⟨still, goes⟩
  · exact ⟨i, by rw [Function.update_self]; exact stirs⟩
  · have apart : j ≠ i := by
      rintro rfl
      rw [Function.update_self, goes] at waits
      cases waits
    rw [Function.update_of_ne apart] at waits
    obtain ⟨k, stirs⟩ := awake j waits
    -- The thread that stirs is not the one that has stepped.
    have other : k ≠ i := by
      rintro rfl
      rw [still] at stirs
      cases stirs
    exact ⟨k, by rw [Function.update_of_ne other]; exact stirs⟩

/-- A thread that has been woken stirs. -/
theorem ReaderMt.wake_awake {j : ι} {woken : ReaderMt ι} (wakes : s.wake j = some woken) :
    woken.Awake := by
  -- The woken thread scans for a slot, so it stirs.
  rw [ReaderMt.wake] at wakes
  split at wakes
  · cases wakes
    intro k _
    refine ⟨j, ?_⟩
    rw [ReaderMt.setPlace, ReaderMt.setThread]
    dsimp only
    rw [Function.update_self]
    rfl
  · cases wakes

/-- A thread that finds no free slot leaves them to those who hold them. -/
theorem ReaderMt.Held.acquire_awake (held : s.Held) (awake : s.Awake) {i : ι} {c : ReadCopy}
    (at_place : (s.threads i).place = .acquiring c) : (s.acquire i c).Awake := by
  unfold ReaderMt.acquire
  split
  next none =>
    intro j _
    -- The first slot is busy, so somebody else holds it.
    obtain ⟨sl, rest, slots⟩ := List.exists_cons_of_ne_nil held.slots
    have marked : sl.busy = true := by
      have all := List.findIdx?_eq_none_iff.mp none sl (by rw [slots]; exact List.mem_cons_self)
      simpa using all
    obtain ⟨k, has⟩ := held.busy 0 (by rw [slots]; exact congrArg some marked)
    have other : k ≠ i := by
      rintro rfl
      rw [at_place] at has
      cases has
    refine ⟨k, ?_⟩
    rw [ReaderMt.setPlace, ReaderMt.setThread]
    dsimp only
    rw [Function.update_of_ne other]
    exact ReadPlace.stirs_of_slot has
  next => exact awake.update (.inl rfl)

/-- Every step leaves somebody to wake those who wait. -/
theorem ReaderMt.Awake.step (held : s.Held) (awake : s.Awake) {a : ReadAction ι}
    {s' : ReaderMt ι} (step : ReaderMt.Step zstd s a s') : s'.Awake := by
  cases step with
  | begins at_place _ =>
    exact awake.update (.inr ⟨by rw [at_place]; rfl, ReadThread.goOn_waits _ _⟩)
  | lookup at_place =>
    unfold ReaderMt.lookup
    dsimp only
    split
    · exact awake.update (.inr ⟨by rw [at_place]; rfl, ReadThread.goOn_waits _ _⟩)
    · exact awake.update (.inl rfl)
  | acquire at_place => exact held.acquire_awake awake at_place
  | decode at_place =>
    unfold ReaderMt.decode
    dsimp only
    refine awake.update (.inl ?_)
    split <;> rfl
  | insert at_place => exact awake.update (.inl rfl)
  | @release i c si result at_place quiet =>
    -- Nobody waits, before or after.
    intro j waits
    unfold ReaderMt.release at waits
    rw [ReaderMt.setThread] at waits
    dsimp only at waits
    rcases eq_or_ne j i with rfl | other
    · rw [Function.update_self, ReadThread.goOn_waits] at waits
      cases waits
    · rw [Function.update_of_ne other] at waits
      cases place : (s.threads j).place with
      | waiting c => exact (quiet j c place).elim
      | idle | lookup c | acquiring c | decoding c sj | inserting c sj len
      | releasing c sj result =>
        rw [place] at waits
        cases waits
  | signal _ wakes => exact ReaderMt.wake_awake wakes
  | spurious wakes => exact ReaderMt.wake_awake wakes

/-- A thread with something left to do can step, unless it waits. -/
theorem ReaderMt.moves (zstd : Option CodecVt) {i : ι}
    (pending : (s.threads i).calls ≠ []) (goes : (s.threads i).place.waits = false) :
    ∃ signalled s', ReaderMt.Step zstd s (.thread i signalled) s' := by
  cases place : (s.threads i).place with
  | idle =>
    obtain ⟨call, rest, calls⟩ := List.exists_cons_of_ne_nil pending
    exact ⟨_, _, .begins place calls⟩
  | lookup c => exact ⟨_, _, .lookup place⟩
  | acquiring c => exact ⟨_, _, .acquire place⟩
  | waiting c =>
    rw [place] at goes
    cases goes
  | decoding c si => exact ⟨_, _, .decode place⟩
  | inserting c si len => exact ⟨_, _, .insert place⟩
  | releasing c si result =>
    by_cases quiet : s.NoneWaiting
    · exact ⟨_, _, .release place quiet⟩
    · -- The signal goes to one of those who wait.
      obtain ⟨j, waiting⟩ := not_forall.mp quiet
      obtain ⟨d, waits⟩ := not_forall_not.mp waiting
      have other : j ≠ i := by
        rintro rfl
        rw [place] at waits
        cases waits
      have still : ((s.release i c si result).threads j).place = .waiting d := by
        unfold ReaderMt.release
        rw [ReaderMt.setThread]
        dsimp only
        rw [Function.update_of_ne other]
        exact waits
      have wakes : (s.release i c si result).wake j =
          some ((s.release i c si result).setPlace j (.acquiring d)) := by
        rw [ReaderMt.wake, still]
      exact ⟨_, _, .signal place wakes⟩

/-- Where a call is outstanding, some thread can take a step that no spurious wakeup causes. -/
theorem ReaderMt.Awake.enabled (awake : s.Awake) (sound : s.Sound zstd base issued) {i : ι}
    (pending : (s.threads i).calls ≠ []) :
    ∃ j signalled s', ReaderMt.Step zstd s (.thread j signalled) s' := by
  cases waits : (s.threads i).place.waits with
  | false => exact ⟨i, ReaderMt.moves zstd pending waits⟩
  | true =>
    -- A thread that stirs is in a call, and does not wait.
    obtain ⟨j, stirs⟩ := awake i waits
    have called : (s.threads j).place ≠ .idle := by
      intro idle
      rw [idle] at stirs
      cases stirs
    obtain ⟨n, off, rest, calls, _⟩ := sound.current called
    have goes : (s.threads j).place.waits = false := by
      cases place : (s.threads j).place with
      | waiting c =>
        rw [place] at stirs
        cases stirs
      | idle | lookup c | acquiring c | decoding c sj | inserting c sj len
      | releasing c sj result => rfl
    exact ⟨j, ReaderMt.moves zstd (calls ▸ List.cons_ne_nil _ _) goes⟩

end Liveness

section Work

/-- How much a copy still has to do: eight steps at most for every byte of its read, and its place
in the round it is in. -/
def ReadPlace.work : ReadPlace → Nat
  | .idle => 0
  | .lookup c => 8 * (c.n - c.out.length) + 7
  | .acquiring c => 8 * (c.n - c.out.length) + 6
  | .waiting c => 8 * (c.n - c.out.length) + 5
  | .decoding c _ => 8 * (c.n - c.out.length) + 4
  | .inserting c _ _ => 8 * (c.n - c.out.length) + 3
  | .releasing c _ _ => 8 * (c.n - c.out.length) + 2

/-- How much calls that have not begun have to do. -/
def callsWork (calls : List (Nat × Nat)) : Nat := (calls.map fun call => 8 * (call.1 + 1)).sum

/-- How much a thread still has to do. -/
def ReadThread.work (t : ReadThread) : Nat :=
  match t.place with
  | .idle => callsWork t.calls
  | place => place.work + callsWork t.calls.tail

/-- A thread inside a call has the call's work to do, and that of the calls behind it. -/
theorem ReadThread.work_eq {t : ReadThread} (called : t.place ≠ .idle) :
    t.work = t.place.work + callsWork t.calls.tail := by
  -- The work of an idle thread is counted in another way.
  rw [ReadThread.work]
  split
  next idle => exact (called idle).elim
  next => rfl

/-- The head of the loop begins a round of the same read, or ends it. -/
theorem Reader.seek_work {r : Reader} {n off : Nat} {out : Bytes} {c : ReadCopy}
    (next : r.seek n off out = .ok c) : c.n = n ∧ c.out = out ∧ out.length < n := by
  -- The loop goes on only where a block is found.
  rw [Reader.seek] at next
  split at next
  next more =>
    split at next
    · cases next
    · cases next
      exact ⟨rfl, rfl, more⟩
  next => cases next

/-- A call begins with no more work than it has been counted for. -/
theorem ReadThread.begins_work {t : ReadThread} {r : Reader} {n off : Nat}
    {rest : List (Nat × Nat)} (idle : t.place = .idle) (calls : t.calls = (n, off) :: rest) :
    (t.goOn (r.beginPread n off)).work + 1 ≤ t.work := by
  have before : t.work = 8 * (n + 1) + callsWork rest := by
    rw [ReadThread.work, idle, calls]
    rfl
  rw [before]
  cases next : r.beginPread n off with
  | error result =>
    have after : (t.goOn (.error result)).work = callsWork rest := by
      rw [ReadThread.goOn, ReadThread.work, calls]
      rfl
    omega
  | ok c =>
    have after : (t.goOn (.ok c)).work = 8 * (c.n - c.out.length) + 7 + callsWork rest := by
      rw [ReadThread.goOn, ReadThread.work, calls]
      rfl
    -- The request may have been clipped to the stream.
    rw [Reader.beginPread] at next
    split at next
    · cases next
    split at next
    · cases next
    obtain ⟨size, _, _⟩ := Reader.seek_work next
    omega

/-- A round that has delivered something leaves less to do than a round takes. -/
theorem ReadThread.afterCopy_work {t : ReadThread} {r : Reader} {c : ReadCopy}
    {result : Except XqStatus (Nat × Bytes)}
    (longer : ∀ blen got, result = .ok (blen, got) → c.within < blen → 0 < got.length) :
    (t.goOn (r.afterCopy c result)).work ≤ 8 * (c.n - c.out.length) + callsWork t.calls.tail := by
  cases next : r.afterCopy c result with
  | error st =>
    have after : (t.goOn (.error st)).work = callsWork t.calls.tail := rfl
    omega
  | ok d =>
    have after : (t.goOn (.ok d)).work =
        8 * (d.n - d.out.length) + 7 + callsWork t.calls.tail := rfl
    cases result with
    | error st => cases next
    | ok answer =>
      obtain ⟨blen, got⟩ := answer
      rw [Reader.afterCopy] at next
      split at next
      · cases next
      next inside =>
        -- The next round has at least one byte less to deliver.
        obtain ⟨size, out, more⟩ := Reader.seek_work next
        have some_bytes := longer blen got rfl (Nat.not_le.mp inside)
        rw [List.length_append] at more
        rw [after, size, out, List.length_append]
        omega

/-- A block that reaches beyond the position gives some byte of it. -/
theorem blockBytes_pos {data : Bytes} {within take : Nat} (inside : within < data.length)
    (some_bytes : 0 < take) : 0 < (blockBytes data within take).length := by
  -- The block has a byte behind the position, and one is asked for.
  rw [blockBytes, List.length_take, List.length_drop]
  omega

variable [DecidableEq ι] {s : ReaderMt ι} {active : Finset ι}

/-- How much the threads of a finite set still have to do. -/
def ReaderMt.work (active : Finset ι) (s : ReaderMt ι) : Nat :=
  ∑ i ∈ active, (s.threads i).work

/-- A step of one of them changes its own share only. -/
theorem ReaderMt.work_update {i : ι} (member : i ∈ active) (s : ReaderMt ι) (r : Reader)
    (t : ReadThread) :
    ReaderMt.work active { reader := r, threads := Function.update s.threads i t } +
      (s.threads i).work = ReaderMt.work active s + t.work := by
  -- The sum over the other threads is what it was.
  have others : ∑ j ∈ active.erase i, (Function.update s.threads i t j).work =
      ∑ j ∈ active.erase i, (s.threads j).work :=
    Finset.sum_congr rfl fun j other => by
      rw [Function.update_of_ne (Finset.ne_of_mem_erase other)]
  rw [ReaderMt.work, ReaderMt.work, ← Finset.add_sum_erase active _ member,
    ← Finset.add_sum_erase active _ member]
  dsimp only
  rw [others, Function.update_self]
  omega

/-- A thread with a call is one that has been given calls. -/
theorem ReaderMt.Sound.member (sound : s.Sound zstd base issued)
    (quiet : ∀ i ∉ active, issued i = []) {i : ι} (pending : (s.threads i).calls ≠ []) :
    i ∈ active := by
  -- Other threads have no calls at all.
  by_contra outside
  have calls := (sound.threads i).calls
  rw [quiet i outside, List.drop_nil] at calls
  exact pending calls

/-- A step within a call: the thread goes to a place nearer to the end of its round. -/
theorem ReaderMt.Sound.place_work (sound : s.Sound zstd base issued)
    (quiet : ∀ i ∉ active, issued i = []) {i : ι} (called : (s.threads i).place ≠ .idle)
    (r : Reader) {place : ReadPlace} (stays : place ≠ .idle) (less more : Nat)
    (nearer : place.work + less ≤ (s.threads i).place.work + more) :
    ReaderMt.work active
        { reader := r
          threads := Function.update s.threads i { s.threads i with place := place } } + less ≤
      ReaderMt.work active s + more := by
  -- The rest of the thread's calls stays, so only its place counts.
  obtain ⟨n, off, rest, calls, _⟩ := sound.current called
  have member := sound.member quiet (i := i) (calls ▸ List.cons_ne_nil _ _)
  have total := ReaderMt.work_update member s r { s.threads i with place := place }
  have before := ReadThread.work_eq called
  have after : ({ s.threads i with place := place } : ReadThread).work =
      place.work + callsWork (s.threads i).calls.tail := ReadThread.work_eq stays
  omega

/-- The end of a round takes as much from the work as the round has left. -/
theorem ReaderMt.Sound.round_work (sound : s.Sound zstd base issued)
    (quiet : ∀ i ∉ active, issued i = []) {i : ι} (called : (s.threads i).place ≠ .idle)
    (r : Reader) {c : ReadCopy} {result : Except XqStatus (Nat × Bytes)} {less : Nat}
    (longer : ∀ blen got, result = .ok (blen, got) → c.within < blen → 0 < got.length)
    (last : 8 * (c.n - c.out.length) + less ≤ (s.threads i).place.work) :
    ReaderMt.work active
        { reader := r
          threads := Function.update s.threads i
            ((s.threads i).goOn (r.afterCopy c result)) } + less ≤
      ReaderMt.work active s := by
  -- The next round has fewer bytes to copy, or the call is over.
  obtain ⟨n, off, rest, calls, _⟩ := sound.current called
  have member := sound.member quiet (i := i) (calls ▸ List.cons_ne_nil _ _)
  have total := ReaderMt.work_update member s r ((s.threads i).goOn (r.afterCopy c result))
  have before := ReadThread.work_eq called
  have after := ReadThread.afterCopy_work (t := s.threads i) (r := r) longer
  omega

/-- A release pays for the wakeup it causes. -/
theorem ReaderMt.Sound.release_work (sound : s.Sound zstd base issued)
    (quiet : ∀ i ∉ active, issued i = []) {i : ι} {c : ReadCopy} {si : Nat}
    {result : Except XqStatus (Nat × Bytes)}
    (at_place : (s.threads i).place = .releasing c si result) :
    ReaderMt.work active (s.release i c si result) + 2 ≤ ReaderMt.work active s := by
  have called := at_place.trans_ne (ReadPlace.noConfusion : _ ≠ ReadPlace.idle)
  obtain ⟨n, off, rest, calls, place⟩ := sound.current called
  rw [at_place] at place
  obtain ⟨copy, copied⟩ := place
  have more := copy.more
  unfold ReaderMt.release
  refine sound.round_work quiet called _ (fun blen got answer inside => ?_) ?_
  · -- What is delivered is the end of a block that reaches beyond the position.
    rw [copied] at answer
    cases decoded : base.blockDecode zstd c.bi with
    | error st =>
      rw [decoded] at answer
      cases answer
    | ok data =>
      rw [decoded] at answer
      obtain ⟨rfl, rfl⟩ := Prod.mk.inj (Except.ok.inj answer)
      exact blockBytes_pos inside (by omega)
  · rw [at_place]
    exact le_rfl

/-- A wakeup takes its thread one place back. -/
theorem ReaderMt.Sound.wake_work (sound : s.Sound zstd base issued)
    (quiet : ∀ i ∉ active, issued i = []) {j : ι} {woken : ReaderMt ι}
    (wakes : s.wake j = some woken) :
    ReaderMt.work active woken ≤ ReaderMt.work active s + 1 := by
  -- Scanning for a slot is one place before sleeping.
  rw [ReaderMt.wake] at wakes
  split at wakes
  · rename_i c at_place
    cases wakes
    exact sound.place_work quiet (at_place.trans_ne ReadPlace.noConfusion) _
      ReadPlace.noConfusion 0 1 (by rw [at_place]; exact le_rfl)
  · cases wakes

/-- Every step of a thread does some of the work. -/
theorem ReaderMt.Sound.step_work (sound : s.Sound zstd base issued)
    (quiet : ∀ i ∉ active, issued i = []) {i : ι} {signalled : Option ι} {s' : ReaderMt ι}
    (step : ReaderMt.Step zstd s (.thread i signalled) s') :
    ReaderMt.work active s' + 1 ≤ ReaderMt.work active s := by
  cases step with
  | @begins _ n off rest idle calls =>
    -- A call that begins has its work counted already.
    have member := sound.member quiet (i := i) (calls ▸ List.cons_ne_nil _ _)
    have total := ReaderMt.work_update member s s.reader
      ((s.threads i).goOn (s.reader.beginPread n off))
    have begun := ReadThread.begins_work (r := s.reader) idle calls
    rw [ReaderMt.setThread]
    omega
  | @lookup _ c at_place =>
    have called := at_place.trans_ne (ReadPlace.noConfusion : _ ≠ ReadPlace.idle)
    obtain ⟨n, off, rest, calls, place⟩ := sound.current called
    rw [at_place] at place
    have more := place.more
    unfold ReaderMt.lookup
    dsimp only
    split
    · -- A hit ends the round.
      refine sound.round_work quiet called _ (fun blen got answer inside => ?_) ?_
      · obtain ⟨rfl, rfl⟩ := Prod.mk.inj (Except.ok.inj answer)
        exact blockBytes_pos inside (by omega)
      · rw [at_place, ReadPlace.work]
        omega
    · -- A slot was free.
      exact sound.place_work quiet called _ ReadPlace.noConfusion 1 0
        (by rw [at_place]; exact le_rfl)
  | acquire at_place =>
    have called := at_place.trans_ne (ReadPlace.noConfusion : _ ≠ ReadPlace.idle)
    unfold ReaderMt.acquire
    split
    · exact sound.place_work quiet called _ ReadPlace.noConfusion 1 0
        (by rw [at_place]; exact le_rfl)
    · -- None was, and the thread sleeps.
      refine sound.place_work quiet called _ ReadPlace.noConfusion 1 0 ?_
      rw [at_place, ReadPlace.work, ReadPlace.work]
      omega
  | decode at_place =>
    have called := at_place.trans_ne (ReadPlace.noConfusion : _ ≠ ReadPlace.idle)
    unfold ReaderMt.decode
    dsimp only
    refine sound.place_work quiet called _ ?_ 1 0 ?_
    · split <;> exact ReadPlace.noConfusion
    · -- A failed decode is released, any other one inserted first.
      rw [at_place, ReadPlace.work]
      split
      · rw [ReadPlace.work]
        omega
      · exact le_rfl
  | insert at_place =>
    -- Insertion only leads to the release.
    have called := at_place.trans_ne (ReadPlace.noConfusion : _ ≠ ReadPlace.idle)
    exact sound.place_work quiet called _ ReadPlace.noConfusion 1 0
      (by rw [at_place]; exact le_rfl)
  | release at_place _ =>
    -- The release ends the round.
    have released := sound.release_work quiet at_place
    omega
  | signal at_place wakes =>
    -- Waking another thread gives back less than the release took.
    have released := sound.release_work quiet at_place
    have woken := (sound.release at_place).wake_work quiet wakes
    omega

end Work

section Runs

variable [DecidableEq ι] {s : ReaderMt ι} {answer : Nat × Nat → Except XqStatus Bytes}

/--
What threads that share a handle get out of it, when every read has its answer.

The reads that have returned have returned their answers. While one is outstanding, some thread can
take a step without being woken for no reason; when finitely many threads read, no run has more
steps than there is work to do, but for one with every spurious wakeup, and there is a run in which
all reads return.
-/
structure ReaderMt.Answers (zstd : Option CodecVt) (issued : ι → List (Nat × Nat))
    (answer : Nat × Nat → Except XqStatus Bytes) (s : ReaderMt ι) : Prop where
  returned : ∀ i, (s.threads i).results =
    ((issued i).take (s.threads i).results.length).map answer
  enabled : ∀ i, (s.threads i).results.length < (issued i).length →
    ∃ j signalled s', ReaderMt.Step zstd s (.thread j signalled) s'
  bounded : ∀ active : Finset ι, (∀ i ∉ active, issued i = []) →
    ∃ most, ∀ steps wakeups s', ReaderMt.Runs zstd s steps wakeups s' → steps ≤ most + wakeups
  completes : ∀ active : Finset ι, (∀ i ∉ active, issued i = []) →
    ∃ steps s', ReaderMt.Runs zstd s steps 0 s' ∧
      ∀ i, (s'.threads i).results = (issued i).map answer

/-- The states of a fresh handle have all of the invariants. -/
theorem ReaderMt.Reachable.lively {r : Reader} (serves : base.Serves zstd r)
    (reached : ReaderMt.Reachable zstd (ReaderMt.init r issued) s) : s.Held ∧ s.Awake := by
  induction reached with
  | refl =>
    refine ⟨⟨serves.slotSome, fun si marked => ?_⟩, fun i waits => by cases waits⟩
    -- No slot is busy before the first read.
    obtain ⟨sl, there, busy⟩ := Option.map_eq_some_iff.mp marked
    have free := serves.slotFree sl (List.mem_of_getElem? there)
    rw [free] at busy
    cases busy
  | step _ step lively => exact ⟨lively.1.step step, lively.2.step lively.1 step⟩

/-- What every step keeps. -/
structure ReaderMt.Sharing (zstd : Option CodecVt) (base : Reader)
    (issued : ι → List (Nat × Nat)) (s : ReaderMt ι) : Prop where
  sound : s.Sound zstd base issued
  held : s.Held
  awake : s.Awake

theorem ReaderMt.Sharing.step (external : ∀ c ∈ zstd, c.Steady) {file : Bytes}
    (ready : base.Ready zstd file) (sharing : s.Sharing zstd base issued) {a : ReadAction ι}
    {s' : ReaderMt ι} (step : ReaderMt.Step zstd s a s') : s'.Sharing zstd base issued :=
  ⟨sharing.sound.step external ready.few ready.index.first_raw step, sharing.held.step step,
    sharing.awake.step sharing.held step⟩

omit [DecidableEq ι] in
/-- A thread that has returned from fewer calls than it was given has calls left. -/
theorem ReaderMt.Sound.pending_iff (sound : s.Sound zstd base issued) (i : ι) :
    (s.threads i).calls ≠ [] ↔ (s.threads i).results.length < (issued i).length := by
  -- The calls left are those behind the results.
  rw [(sound.threads i).calls, Ne, List.drop_eq_nil_iff, Nat.not_le]

/-- A run does as much work as it has steps, less what its spurious wakeups undo. -/
theorem ReaderMt.Sharing.runs (external : ∀ c ∈ zstd, c.Steady) {file : Bytes}
    (ready : base.Ready zstd file) (sharing : s.Sharing zstd base issued) {active : Finset ι}
    (quiet : ∀ i ∉ active, issued i = []) {steps wakeups : Nat} {s' : ReaderMt ι}
    (runs : ReaderMt.Runs zstd s steps wakeups s') :
    s'.Sharing zstd base issued ∧
      steps + ReaderMt.work active s' ≤ ReaderMt.work active s + wakeups := by
  -- The induction is on the run, a step at a time.
  induction runs with
  | refl => exact ⟨sharing, by omega⟩
  | thread _ step ih =>
    obtain ⟨shared, done⟩ := ih
    have worked := shared.sound.step_work quiet step
    exact ⟨shared.step external ready step, by omega⟩
  | spurious _ step ih =>
    obtain ⟨shared, done⟩ := ih
    refine ⟨shared.step external ready step, ?_⟩
    cases step with
    | spurious wakes =>
      have undone := shared.sound.wake_work quiet wakes
      omega

/-- A run goes on from a state that it has come to. -/
theorem ReaderMt.Runs.before {a : ReaderMt ι} {i : ι} {signalled : Option ι}
    (first : ReaderMt.Step zstd s (.thread i signalled) a) {steps wakeups : Nat} {s' : ReaderMt ι}
    (runs : ReaderMt.Runs zstd a steps wakeups s') :
    ReaderMt.Runs zstd s (steps + 1) wakeups s' := by
  -- The induction is on the run behind the first step.
  induction runs with
  | refl => exact .thread .refl first
  | thread _ step ih => exact .thread ih step
  | spurious _ step ih => exact .spurious ih step

/-- Without spurious wakeups, threads that take their steps in some order return from all their
calls. -/
theorem ReaderMt.Sharing.completes (external : ∀ c ∈ zstd, c.Steady) {file : Bytes}
    (ready : base.Ready zstd file) {active : Finset ι} (quiet : ∀ i ∉ active, issued i = [])
    (sharing : s.Sharing zstd base issued) :
    ∃ steps s', ReaderMt.Runs zstd s steps 0 s' ∧
      ∀ i, (s'.threads i).results =
        (issued i).map fun call => base.serve zstd call.1 call.2 := by
  -- The induction is on the work that is left: every step does some of it.
  induction left : ReaderMt.work active s using Nat.strong_induction_on generalizing s with
  | _ work ih =>
    by_cases returned : ∀ i, (s.threads i).calls = []
    · refine ⟨0, s, .refl, fun i => ?_⟩
      have all : (issued i).length ≤ (s.threads i).results.length := by
        by_contra fewer
        exact (sharing.sound.pending_iff i).mpr (Nat.not_le.mp fewer) (returned i)
      rw [(sharing.sound.threads i).results, List.take_of_length_le all]
    · obtain ⟨i, pending⟩ := not_forall.mp returned
      obtain ⟨j, signalled, a, step⟩ := sharing.awake.enabled sharing.sound pending
      have worked := sharing.sound.step_work quiet step
      obtain ⟨steps, s', runs, answered⟩ := ih (ReaderMt.work active a) (by omega)
        (sharing.step external ready step) rfl
      exact ⟨steps + 1, s', runs.before step, answered⟩

/-- In every state that some interleaving on a fresh handle reaches, the threads get the answers of
their reads, and go on to get the rest of them. -/
theorem ReaderMt.Reachable.answers (external : ∀ c ∈ zstd, c.Steady) {file : Bytes}
    (ready : base.Ready zstd file)
    (reached : ReaderMt.Reachable zstd (ReaderMt.init base issued) s) :
    s.Answers zstd issued fun call => base.serve zstd call.1 call.2 := by
  have sound := reached.sound external ready
  obtain ⟨held, awake⟩ := reached.lively ready.serves
  have sharing : s.Sharing zstd base issued := ⟨sound, held, awake⟩
  refine ⟨fun i => (sound.threads i).results, fun i fewer => ?_, fun active quiet => ?_,
    fun active quiet => sharing.completes external ready quiet⟩
  · -- A thread with calls left is in the middle of one or may begin it.
    exact awake.enabled sound ((sound.pending_iff i).mpr fewer)
  · -- The work bounds the steps of the threads, wakeups aside.
    refine ⟨ReaderMt.work active s, fun steps wakeups s' runs => ?_⟩
    have done := (sharing.runs external ready quiet runs).2
    omega

/-- What a run comes to is reachable. -/
theorem ReaderMt.Runs.reachable {start : ReaderMt ι}
    (reached : ReaderMt.Reachable zstd start s) {steps wakeups : Nat} {s' : ReaderMt ι}
    (runs : ReaderMt.Runs zstd s steps wakeups s') : ReaderMt.Reachable zstd start s' := by
  -- The induction is on the run.
  induction runs with
  | refl => exact reached
  | thread _ step ih => exact .step ih step
  | spurious _ step ih => exact .step ih step

end Runs

/--
Any threads may share a handle, and each reads as if it were alone on a fresh one.

In every state they can reach, each thread's calls have returned what each call returns alone, and
the threads go on until all calls have returned; each cache entry is empty or holds the decode of
the block it names, and no slot is held by two threads.
-/
theorem concurrent_preads {zstd : Option CodecVt} (external : ∀ c ∈ zstd, c.Steady) {file : Bytes}
    {opts : Option ReaderOpts} {cpus : Nat} {r : Reader}
    (opened : readerOpen zstd file opts cpus = .ok r) {ι : Type} [DecidableEq ι]
    {issued : ι → List (Nat × Nat)} {s : ReaderMt ι}
    (reached : ReaderMt.Reachable zstd (ReaderMt.init r issued) s) :
    (s.Answers zstd issued fun call => (Reader.pread zstd r call.1 call.2).1) ∧
    (∀ e ∈ s.reader.cache, e.block = noBlock ∨ r.blockDecode zstd e.block = .ok e.data) ∧
    ∀ i j si, (s.threads i).place.slot = some si → (s.threads j).place.slot = some si → i = j := by
  have ready := readerOpen_ready external opened
  have sound := reached.sound external ready
  -- Alone on a fresh handle a read is what the file serves.
  have alone : (fun call : Nat × Nat => (Reader.pread zstd r call.1 call.2).1) =
      fun call => r.serve zstd call.1 call.2 := by
    funext call
    exact (ready.serves.pread external ready.few ready.index.first_raw call.1 call.2).1
  rw [alone]
  exact ⟨reached.answers external ready, sound.cached, sound.exclusive⟩

/-- Two threads on the two-block file, when both have returned from their two calls. -/
theorem concurrent_preads_two : ∃ r, readerOpen none overlapFile none 1 = .ok r ∧
    ∃ s : ReaderMt Bool,
      ReaderMt.Reachable none (ReaderMt.init r fun _ => [(2, 0), (1, 1)]) s ∧
      (∀ i, (s.threads i).results.length = 2) ∧
      (s.Answers none (fun _ => [(2, 0), (1, 1)])
        fun call => (Reader.pread none r call.1 call.2).1) ∧
      (∀ e ∈ s.reader.cache, e.block = noBlock ∨ r.blockDecode none e.block = .ok e.data) ∧
      ∀ i j si, (s.threads i).place.slot = some si → (s.threads j).place.slot = some si →
        i = j := by
  obtain ⟨r, opened, _⟩ := overlapFile_reads
  -- The state in which all calls have returned is one of those the theorem speaks of.
  obtain ⟨steps, s, runs, returned⟩ := (concurrent_preads (s := ReaderMt.init r
    fun _ : Bool => [(2, 0), (1, 1)]) (by simp) opened .refl).1.completes Finset.univ (by simp)
  have reached := ReaderMt.Runs.reachable .refl runs
  refine ⟨r, opened, s, reached, fun i => ?_, concurrent_preads (by simp) opened reached⟩
  rw [returned i]
  rfl

end Xq
