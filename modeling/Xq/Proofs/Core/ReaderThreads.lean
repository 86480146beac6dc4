import Xq.Core.ReaderThreads
import Xq.Proofs.Core.ReadConsistency

/-! Threads sharing one handle: every read is served as if its thread were alone on a fresh one. -/

namespace Xq

section Rounds

variable {zstd : Option CodecVt} {base : Reader} {answer : Except XqStatus Bytes}

/-- What a pread owes once it has delivered `out`: the rest of its loop, each block decoded
afresh, gives its answer. -/
def Reader.Owes (zstd : Option CodecVt) (base : Reader) (n off : Nat) (out : Bytes)
    (answer : Except XqStatus Bytes) : Prop :=
  ∃ fuel, n ≤ out.length + fuel ∧ base.serveLoop zstd off n fuel out = answer

/-- A block about to be copied is the one the search finds, on behalf of a read that owes its
answer. -/
structure ReadCopy.Sound (zstd : Option CodecVt) (base : Reader) (answer : Except XqStatus Bytes)
    (c : ReadCopy) : Prop where
  more : c.out.length < c.n
  found : fmtIndexFind base.entries base.nentries (UInt64.ofNat (c.off + c.out.length)) =
    some c.bi
  within : c.within = c.off + c.out.length - (base.entryAt c.bi).rawOffset.toNat
  owes : base.Owes zstd c.n c.off c.out answer

/-- A read comes to its next block with the same debt, or to its answer. -/
def ReadThread.Next (zstd : Option CodecVt) (base : Reader) (answer : Except XqStatus Bytes) :
    Except (Except XqStatus Bytes) ReadCopy → Prop
  | .ok c => c.Sound zstd base answer
  | .error result => result = answer

/-- The head of the loop keeps the debt. -/
theorem Reader.seek_next {n off : Nat} {out : Bytes} (owes : base.Owes zstd n off out answer) :
    ReadThread.Next zstd base answer (base.seek n off out) := by
  rw [Reader.seek]
  by_cases more : out.length < n
  · rw [if_pos more]
    cases found : fmtIndexFind base.entries base.nentries (UInt64.ofNat (off + out.length)) with
    | none =>
      -- The search fails for the loop as well.
      obtain ⟨fuel, enough, answered⟩ := owes
      obtain ⟨fuel, rfl⟩ := Nat.exists_eq_add_of_lt (show 0 < fuel by omega)
      rw [Nat.zero_add, Reader.serveLoop, if_pos more, found] at answered
      exact answered
    | some bi => exact ⟨more, found, rfl, owes⟩
  · rw [if_neg more]
    -- Everything asked for is there.
    obtain ⟨fuel, _, answered⟩ := owes
    cases fuel with
    | zero => exact answered
    | succ fuel =>
      rw [Reader.serveLoop, if_neg more] at answered
      exact answered

theorem Reader.beginPread_next (base : Reader) (n off : Nat) :
    ReadThread.Next zstd base (base.serve zstd n off) (base.beginPread n off) := by
  -- An empty read and a read behind the end return at once.
  rw [Reader.beginPread, Reader.serve]
  by_cases empty : n = 0
  · rw [if_pos empty, if_pos empty]
    rfl
  by_cases beyond : off ≥ base.rawSize.toNat
  · rw [if_neg empty, if_neg empty, if_pos beyond, if_pos beyond]
    rfl
  rw [if_neg empty, if_neg empty, if_neg beyond, if_neg beyond]
  exact Reader.seek_next ⟨_, Nat.le_add_left _ _, rfl⟩

/-- A copy that returns what the block decodes to keeps the debt. -/
theorem Reader.afterCopy_next {c : ReadCopy} (sound : c.Sound zstd base answer)
    (result : Except XqStatus (Nat × Bytes))
    (copied : result = (base.blockDecode zstd c.bi).map fun data =>
      (data.length, blockBytes data c.within (c.n - c.out.length))) :
    ReadThread.Next zstd base answer (base.afterCopy c result) := by
  obtain ⟨fuel, enough, answered⟩ := sound.owes
  have more := sound.more
  obtain ⟨fuel, rfl⟩ := Nat.exists_eq_add_of_lt (show 0 < fuel by omega)
  rw [Nat.zero_add, Reader.serveLoop, if_pos more, sound.found] at answered
  dsimp only at answered
  rw [← sound.within] at answered
  subst copied
  -- One round of the loop does what the copy did.
  cases decoded : base.blockDecode zstd c.bi with
  | error st =>
    rw [decoded] at answered
    exact answered
  | ok data =>
    rw [decoded] at answered
    dsimp only [Except.map, Reader.afterCopy] at answered ⊢
    by_cases past : c.within ≥ data.length
    · rw [if_pos past] at answered ⊢
      exact answered
    · rw [if_neg past] at answered ⊢
      refine Reader.seek_next ⟨fuel, ?_, answered⟩
      have piece : (blockBytes data c.within (c.n - c.out.length)).length =
          min (c.n - c.out.length) (data.length - c.within) := by
        rw [blockBytes, List.length_take, List.length_drop]
      rw [List.length_append, piece]
      omega

end Rounds

section Threads

variable {ι : Type} {zstd : Option CodecVt} {base : Reader}

/-- What a thread's place says about the block it is copying, and about its slot's buffer. -/
def ReadPlace.Sound (zstd : Option CodecVt) (base : Reader) (slots : List DecSlot)
    (answer : Except XqStatus Bytes) : ReadPlace → Prop
  | .idle => True
  | .lookup c => c.Sound zstd base answer
  | .acquiring c => c.Sound zstd base answer
  | .waiting c => c.Sound zstd base answer
  | .decoding c _ => c.Sound zstd base answer
  | .inserting c si len => c.Sound zstd base answer ∧
      ∃ data, base.blockDecode zstd c.bi = .ok data ∧ len = data.length ∧
        slots[si]?.map DecSlot.raw = some data
  | .releasing c _ result => c.Sound zstd base answer ∧
      result = (base.blockDecode zstd c.bi).map fun data =>
        (data.length, blockBytes data c.within (c.n - c.out.length))

/-- A thread has returned what its reads are served with, and owes the answer to the one it is
in. -/
structure ReadThread.Sound (zstd : Option CodecVt) (base : Reader) (slots : List DecSlot)
    (issued : List (Nat × Nat)) (t : ReadThread) : Prop where
  calls : t.calls = issued.drop t.results.length
  results : t.results =
    (issued.take t.results.length).map fun call => base.serve zstd call.1 call.2
  place : t.place = .idle ∨ ∃ n off rest, t.calls = (n, off) :: rest ∧
    t.place.Sound zstd base slots (base.serve zstd n off)

/-- The invariant of a shared handle: the cache holds what it names, the slots' contexts are of
the right kind, every slot a thread holds is marked busy and held by no other, and every thread is
sound. -/
structure ReaderMt.Sound (zstd : Option CodecVt) (base : Reader) (issued : ι → List (Nat × Nat))
    (s : ReaderMt ι) : Prop where
  same : s.reader.opened = base.opened
  cached : ∀ c ∈ s.reader.cache, c.block = noBlock ∨ base.blockDecode zstd c.block = .ok c.data
  slotDctx : ∀ sl ∈ s.reader.slots, sl.dctx.maker = (base.codec.dctxNew.getD .null).maker
  threads : ∀ i, (s.threads i).Sound zstd base s.reader.slots (issued i)
  busy : ∀ i si, (s.threads i).place.slot = some si →
    s.reader.slots[si]?.map DecSlot.busy = some true
  exclusive : ∀ i j si, (s.threads i).place.slot = some si →
    (s.threads j).place.slot = some si → i = j

/-- A thread stays sound when only slots it does not hold change their buffers. -/
theorem ReadThread.Sound.frame {slots slots' : List DecSlot} {issued : List (Nat × Nat)}
    {t : ReadThread} (sound : t.Sound zstd base slots issued)
    (kept : ∀ si, t.place.slot = some si →
      slots'[si]?.map DecSlot.raw = slots[si]?.map DecSlot.raw) :
    t.Sound zstd base slots' issued := by
  refine ⟨sound.calls, sound.results, ?_⟩
  rcases sound.place with idle | ⟨n, off, rest, calls, place⟩
  · exact .inl idle
  · refine .inr ⟨n, off, rest, calls, ?_⟩
    -- Only a thread about to insert relies on a buffer.
    cases at_place : t.place with
    | inserting c si len =>
      rw [at_place] at place kept
      obtain ⟨copy, data, decoded, length, raw⟩ := place
      exact ⟨copy, data, decoded, length, (kept si rfl).trans raw⟩
    | idle => trivial
    | lookup c | acquiring c | waiting c | decoding c si | releasing c si result =>
      rw [at_place] at place
      exact place

/-- A thread that goes on stays sound. -/
theorem ReadThread.Sound.goOn {slots slots' : List DecSlot} {issued : List (Nat × Nat)} {t : ReadThread}
    (sound : t.Sound zstd base slots issued) {n off : Nat} {rest : List (Nat × Nat)}
    (calls : t.calls = (n, off) :: rest) {next : Except (Except XqStatus Bytes) ReadCopy}
    (owed : ReadThread.Next zstd base (base.serve zstd n off) next) :
    (t.goOn next).Sound zstd base slots' issued := by
  have remaining := sound.calls
  rw [calls] at remaining
  cases next with
  | ok c => exact ⟨sound.calls, sound.results, .inr ⟨n, off, rest, calls, owed⟩⟩
  | error result =>
    -- The call at the head of the list has its answer.
    have first : issued[t.results.length]? = some (n, off) := by
      rw [← List.head?_drop, ← remaining, List.head?_cons]
    have inside := (List.getElem?_eq_some_iff.mp first).1
    have length : (t.goOn (.error result)).results.length = t.results.length + 1 := by
      rw [ReadThread.goOn, List.length_append, List.length_singleton]
    refine ⟨?_, ?_, .inl rfl⟩
    · rw [length, ← List.drop_drop, ← remaining, ReadThread.goOn, calls]
      rfl
    · rw [length, List.take_add_one, first, List.map_append, ← sound.results]
      exact congrArg (fun answer => t.results ++ [answer]) owed

/-- A thread at a new place of the same call stays sound. -/
theorem ReadThread.Sound.move {slots slots' : List DecSlot} {issued : List (Nat × Nat)} {t : ReadThread}
    (sound : t.Sound zstd base slots issued) {n off : Nat} {rest : List (Nat × Nat)}
    (calls : t.calls = (n, off) :: rest) (place : ReadPlace)
    (owed : place.Sound zstd base slots' (base.serve zstd n off)) :
    ({ t with place := place } : ReadThread).Sound zstd base slots' issued :=
  ⟨sound.calls, sound.results, .inr ⟨n, off, rest, calls, owed⟩⟩

variable [DecidableEq ι] {issued : ι → List (Nat × Nat)} {s : ReaderMt ι}

/-- A step of one thread keeps the invariant when it keeps the cache and the contexts right,
leaves the slots the other threads hold alone, and ends with a sound thread whose slot is its
own. -/
theorem ReaderMt.Sound.update (sound : s.Sound zstd base issued) {i : ι} {r : Reader}
    {t : ReadThread} (same : r.opened = base.opened)
    (cached : ∀ c ∈ r.cache, c.block = noBlock ∨ base.blockDecode zstd c.block = .ok c.data)
    (slotDctx : ∀ sl ∈ r.slots, sl.dctx.maker = (base.codec.dctxNew.getD .null).maker)
    (others : ∀ j si, j ≠ i → (s.threads j).place.slot = some si →
      r.slots[si]?.map DecSlot.raw = s.reader.slots[si]?.map DecSlot.raw ∧
        r.slots[si]?.map DecSlot.busy = some true)
    (thread : t.Sound zstd base r.slots (issued i))
    (mine : ∀ si, t.place.slot = some si → r.slots[si]?.map DecSlot.busy = some true ∧
      ∀ j, j ≠ i → (s.threads j).place.slot ≠ some si) :
    ReaderMt.Sound zstd base issued
      { reader := r, threads := Function.update s.threads i t } := by
  refine ⟨same, cached, slotDctx, fun j => ?_, fun j si held => ?_, fun j k si left right => ?_⟩
  · dsimp only
    rcases eq_or_ne j i with rfl | other
    · rw [Function.update_self]
      exact thread
    · rw [Function.update_of_ne other]
      exact (sound.threads j).frame fun si held => (others j si other held).1
  · dsimp only at held ⊢
    rcases eq_or_ne j i with rfl | other
    · rw [Function.update_self] at held
      exact (mine si held).1
    · rw [Function.update_of_ne other] at held
      exact (others j si other held).2
  · dsimp only at left right
    -- Two threads with one slot: neither, one or both of them may be the one that stepped.
    by_cases left_steps : j = i
    · rw [left_steps, Function.update_self] at left
      by_cases right_steps : k = i
      · exact left_steps.trans right_steps.symm
      · rw [Function.update_of_ne right_steps] at right
        exact ((mine si left).2 k right_steps right).elim
    · rw [Function.update_of_ne left_steps] at left
      by_cases right_steps : k = i
      · rw [right_steps, Function.update_self] at right
        exact ((mine si right).2 j left_steps left).elim
      · rw [Function.update_of_ne right_steps] at right
        exact sound.exclusive j k si left right

omit [DecidableEq ι] in
/-- The head of a call, and the rest of a round, look only at what opening has decided. -/
theorem ReaderMt.Sound.heads (sound : s.Sound zstd base issued) :
    (∀ n off, s.reader.beginPread n off = base.beginPread n off) ∧
      ∀ c result, s.reader.afterCopy c result = base.afterCopy c result :=
  ⟨fun n off => Reader.opened_common sound.same fun o => o.beginPread n off,
    fun c result => Reader.opened_common sound.same fun o => o.afterCopy c result⟩

omit [DecidableEq ι] in
/-- The call a thread is in, when it is in one. -/
theorem ReaderMt.Sound.current (sound : s.Sound zstd base issued) {i : ι}
    (called : (s.threads i).place ≠ .idle) :
    ∃ n off rest, (s.threads i).calls = (n, off) :: rest ∧
      (s.threads i).place.Sound zstd base s.reader.slots (base.serve zstd n off) :=
  (sound.threads i).place.resolve_left called

/-- The block a copy is for is a real one. -/
theorem ReadCopy.Sound.named {c : ReadCopy} {answer : Except XqStatus Bytes}
    (few : base.nentries ≤ 2 ^ 64) (zero : indexRaw base.entries 0 = 0)
    (sound : c.Sound zstd base answer) : c.bi ≠ noBlock := by
  have := (fmtIndexFind_some zero sound.found).1
  rw [noBlock]
  omega

/-- A thread that starts a call keeps the invariant. -/
theorem ReaderMt.Sound.begins (sound : s.Sound zstd base issued) {i : ι} {n off : Nat}
    {rest : List (Nat × Nat)} (calls : (s.threads i).calls = (n, off) :: rest) :
    (s.setThread i ((s.threads i).goOn (s.reader.beginPread n off))).Sound zstd base issued := by
  rw [sound.heads.1]
  refine sound.update sound.same sound.cached sound.slotDctx
    (fun j si _ held => ⟨rfl, sound.busy j si held⟩)
    ((sound.threads i).goOn calls (Reader.beginPread_next base n off)) fun si held => ?_
  -- A call starts without a slot.
  rw [ReadThread.goOn_slot] at held
  cases held

/-- A lookup keeps the invariant: a hit delivers the decode of the block. -/
theorem ReaderMt.Sound.lookup (few : base.nentries ≤ 2 ^ 64) (zero : indexRaw base.entries 0 = 0)
    (sound : s.Sound zstd base issued) {i : ι} {c : ReadCopy}
    (at_place : (s.threads i).place = .lookup c) :
    (s.lookup i c).Sound zstd base issued := by
  obtain ⟨n, off, rest, calls, place⟩ :=
    sound.current (i := i) (by rw [at_place]; exact ReadPlace.noConfusion)
  rw [at_place] at place
  unfold ReaderMt.lookup
  dsimp only
  cases found : s.reader.cacheFind c.bi with
  | none =>
    -- A miss: the thread goes for a slot.
    exact sound.update sound.same sound.cached sound.slotDctx
      (fun j si _ held => ⟨rfl, sound.busy j si held⟩)
      ((sound.threads i).move calls (.acquiring c) place) fun si held => by cases held
  | some k =>
    have decoded := Reader.cacheFind_data sound.cached (place.named few zero) found
    have next := Reader.afterCopy_next place (.ok
      (((s.reader.cache.map CacheEntry.data).getD k []).length,
        blockBytes ((s.reader.cache.map CacheEntry.data).getD k []) c.within
          (c.n - c.out.length))) (by rw [decoded]; rfl)
    rw [← sound.heads.2] at next
    refine sound.update sound.same (fun e member => ?_) sound.slotDctx
      (fun j si _ held => ⟨rfl, sound.busy j si held⟩)
      ((sound.threads i).goOn calls next) fun si held => ?_
    · rcases mem_modify member with kept | ⟨old, kept, rfl⟩
      · exact sound.cached e kept
      · exact sound.cached old kept
    · rw [ReadThread.goOn_slot] at held
      cases held

/-- Marking a free slot busy gives it to the thread that found it. -/
theorem ReaderMt.Sound.acquire (sound : s.Sound zstd base issued) {i : ι} {c : ReadCopy}
    (at_place : (s.threads i).place = .acquiring c) : (s.acquire i c).Sound zstd base issued := by
  obtain ⟨n, off, rest, calls, place⟩ :=
    sound.current (i := i) (by rw [at_place]; exact ReadPlace.noConfusion)
  rw [at_place] at place
  unfold ReaderMt.acquire
  cases found : s.reader.slotAcquire with
  | none =>
    exact sound.update sound.same sound.cached sound.slotDctx
      (fun j si _ held => ⟨rfl, sound.busy j si held⟩)
      ((sound.threads i).move calls (.waiting c) place) fun si held => by cases held
  | some si =>
    obtain ⟨inside, free, _⟩ := List.findIdx?_eq_some_iff_getElem.mp found
    have free : s.reader.slots[si].busy = false := by simpa using free
    -- Nobody holds a slot that is not busy.
    have unheld (j : ι) : (s.threads j).place.slot ≠ some si := by
      intro held
      have busy := sound.busy j si held
      rw [List.getElem?_eq_getElem inside, Option.map_some, free] at busy
      cases busy
    refine sound.update sound.same sound.cached (fun sl member => ?_) (fun j sj other held => ?_)
      ((sound.threads i).move calls (.decoding c si) place) fun sj mine => ?_
    · rcases mem_modify member with kept | ⟨old, kept, rfl⟩
      · exact sound.slotDctx sl kept
      · exact sound.slotDctx old kept
    · have apart : si ≠ sj := by
        rintro rfl
        exact unheld j held
      dsimp only
      rw [List.getElem?_modify_ne _ _ apart]
      exact ⟨rfl, sound.busy j sj held⟩
    · obtain rfl : si = sj := Option.some.inj mine
      refine ⟨?_, fun j _ => unheld j⟩
      dsimp only
      rw [List.getElem?_modify_eq, List.getElem?_eq_getElem inside]
      rfl

/-- A decode writes only to the slot its thread holds, and finds what the block decodes to. -/
theorem ReaderMt.Sound.decode (external : ∀ c ∈ zstd, c.Steady) (sound : s.Sound zstd base issued)
    {i : ι} {c : ReadCopy} {si : Nat} (at_place : (s.threads i).place = .decoding c si) :
    (s.decode zstd i c si).Sound zstd base issued := by
  obtain ⟨n, off, rest, calls, place⟩ :=
    sound.current (i := i) (by rw [at_place]; exact ReadPlace.noConfusion)
  have held : (s.threads i).place.slot = some si := by rw [at_place]; rfl
  rw [at_place] at place
  have busy := sound.busy i si held
  obtain ⟨sl, there, marked⟩ := Option.map_eq_some_iff.mp busy
  have inside := (List.getElem?_eq_some_iff.mp there).1
  unfold ReaderMt.decode
  dsimp only
  have kind : ((s.reader.slots.map DecSlot.dctx).getD si .null).maker =
      (base.codec.dctxNew.getD .null).maker := by
    have member := List.mem_of_getElem? there
    simp only [List.getD_eq_getElem?_getD, List.getElem?_map, there, Option.map_some,
      Option.getD_some]
    exact sound.slotDctx sl member
  generalize (s.reader.slots.map DecSlot.dctx).getD si .null = d at kind
  obtain ⟨decoded, maker⟩ :=
    Reader.decodeBlockSlot_fresh external sound.same kind c.bi
  generalize Reader.decodeBlockSlot zstd s.reader d c.bi = answer at decoded maker
  obtain ⟨st, p⟩ := answer
  dsimp only at decoded maker ⊢
  refine sound.update sound.same sound.cached (fun old member => ?_) (fun j sj other theirs => ?_)
    ((sound.threads i).move calls _ ?_) fun sj mine => ?_
  · rcases mem_modify member with kept | ⟨_, _, rfl⟩
    · exact sound.slotDctx old kept
    · exact maker
  · -- The slots of the others are other slots.
    have apart : si ≠ sj := by
      rintro rfl
      exact other (sound.exclusive j i si theirs held)
    dsimp only
    rw [List.getElem?_modify_ne _ _ apart]
    exact ⟨rfl, sound.busy j sj theirs⟩
  · -- The thread goes on with the failure, or with the block in its slot.
    by_cases failed : st ≠ .ok
    · rw [if_pos failed] at decoded ⊢
      exact ⟨place, by rw [decoded]; rfl⟩
    · rw [if_neg failed] at decoded ⊢
      refine ⟨place, p.written, decoded, rfl, ?_⟩
      dsimp only
      rw [List.getElem?_modify_eq, there]
      rfl
  · -- It holds the slot that it held.
    have same : sj = si := by
      by_cases failed : st ≠ .ok
      · rw [if_pos failed] at mine
        exact (Option.some.inj mine).symm
      · rw [if_neg failed] at mine
        exact (Option.some.inj mine).symm
    subst same
    refine ⟨?_, fun j other theirs => other (sound.exclusive j i sj theirs held)⟩
    dsimp only
    rw [List.getElem?_modify_eq, there]
    exact congrArg some marked

/-- The slot's buffer still holds the decode when it is copied into the cache. -/
theorem ReaderMt.Sound.insert (sound : s.Sound zstd base issued) {i : ι} {c : ReadCopy}
    {si len : Nat} (at_place : (s.threads i).place = .inserting c si len) :
    (s.insert i c si len).Sound zstd base issued := by
  obtain ⟨n, off, rest, calls, place⟩ :=
    sound.current (i := i) (by rw [at_place]; exact ReadPlace.noConfusion)
  have held : (s.threads i).place.slot = some si := by rw [at_place]; rfl
  rw [at_place] at place
  obtain ⟨copy, data, decoded, rfl, raw⟩ := place
  unfold ReaderMt.insert
  have buffer : ((s.reader.slots.map DecSlot.raw).getD si []).take data.length = data := by
    rw [List.getD_eq_getElem?_getD, List.getElem?_map, raw, Option.getD_some, List.take_length]
  dsimp only
  rw [buffer]
  refine sound.update sound.same (fun e member => ?_) sound.slotDctx
    (fun j sj _ theirs => ⟨rfl, sound.busy j sj theirs⟩)
    ((sound.threads i).move calls _ ⟨copy, by rw [decoded]; rfl⟩) fun sj mine => ?_
  · -- The victim now names the block, and holds its decode.
    rcases mem_modify member with kept | ⟨_, _, rfl⟩
    · exact sound.cached e kept
    · exact .inr decoded
  · obtain rfl : si = sj := Option.some.inj mine
    exact ⟨sound.busy i si held, fun j other theirs =>
      other (sound.exclusive j i si theirs held)⟩

/-- A release gives the slot up, and the thread goes on without one. -/
theorem ReaderMt.Sound.release (sound : s.Sound zstd base issued) {i : ι} {c : ReadCopy} {si : Nat}
    {result : Except XqStatus (Nat × Bytes)}
    (at_place : (s.threads i).place = .releasing c si result) :
    (s.release i c si result).Sound zstd base issued := by
  obtain ⟨n, off, rest, calls, place⟩ :=
    sound.current (i := i) (by rw [at_place]; exact ReadPlace.noConfusion)
  have held : (s.threads i).place.slot = some si := by rw [at_place]; rfl
  rw [at_place] at place
  obtain ⟨copy, copied⟩ := place
  unfold ReaderMt.release
  have next := Reader.afterCopy_next copy _ copied
  rw [← sound.heads.2] at next
  refine sound.update sound.same sound.cached (fun sl member => ?_) (fun j sj other theirs => ?_)
    ((sound.threads i).goOn calls next) fun sj mine => ?_
  · rcases mem_modify member with kept | ⟨old, kept, rfl⟩
    · exact sound.slotDctx sl kept
    · exact sound.slotDctx old kept
  · -- The slots of the others are other slots.
    have apart : si ≠ sj := by
      rintro rfl
      exact other (sound.exclusive j i si theirs held)
    dsimp only
    rw [List.getElem?_modify_ne _ _ apart]
    exact ⟨rfl, sound.busy j sj theirs⟩
  · rw [ReadThread.goOn_slot] at mine
    cases mine

/-- A wakeup only starts the scan for a slot again. -/
theorem ReaderMt.Sound.wake (sound : s.Sound zstd base issued) {j : ι} {woken : ReaderMt ι}
    (wakes : s.wake j = some woken) : woken.Sound zstd base issued := by
  -- Only a thread asleep is woken.
  rw [ReaderMt.wake] at wakes
  split at wakes
  · rename_i c at_place
    obtain ⟨n, off, rest, calls, place⟩ :=
      sound.current (i := j) (by rw [at_place]; exact ReadPlace.noConfusion)
    rw [at_place] at place
    cases wakes
    exact sound.update sound.same sound.cached sound.slotDctx
      (fun k sk _ held => ⟨rfl, sound.busy k sk held⟩)
      ((sound.threads j).move calls (.acquiring c) place) fun sk held => by cases held
  · cases wakes

/-- Every step of every thread keeps the invariant. -/
theorem ReaderMt.Sound.step (external : ∀ c ∈ zstd, c.Steady) (few : base.nentries ≤ 2 ^ 64)
    (zero : indexRaw base.entries 0 = 0) (sound : s.Sound zstd base issued) {a : ReadAction ι}
    {s' : ReaderMt ι} (step : ReaderMt.Step zstd s a s') : s'.Sound zstd base issued := by
  -- There is a lemma for each place of a read.
  cases step with
  | begins _ calls => exact sound.begins calls
  | lookup at_place => exact sound.lookup few zero at_place
  | acquire at_place => exact sound.acquire at_place
  | decode at_place => exact sound.decode external at_place
  | insert at_place => exact sound.insert at_place
  | release at_place _ => exact sound.release at_place
  | signal at_place wakes => exact (sound.release at_place).wake wakes
  | spurious wakes => exact sound.wake wakes

/-- So it holds in every state that some interleaving reaches. -/
theorem ReaderMt.Reachable.sound (external : ∀ c ∈ zstd, c.Steady) {file : Bytes}
    (ready : base.Ready zstd file)
    (reached : ReaderMt.Reachable zstd (ReaderMt.init base issued) s) :
    s.Sound zstd base issued := by
  -- Nothing is held in the beginning, and every step keeps the invariant.
  induction reached with
  | refl =>
    exact ⟨rfl, ready.serves.cached, ready.serves.slotDctx,
      fun i => ⟨rfl, rfl, .inl rfl⟩, fun i si held => (by cases held),
      fun i j si held => (by cases held)⟩
  | step _ step sound => exact sound.step external ready.few ready.index.first_raw step

end Threads

end Xq
