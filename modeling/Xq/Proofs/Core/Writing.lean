import Xq.Proofs.Core.EncoderCreation

/-! Writing in pieces: how the input is cut into calls leaves no trace in the encoder. -/

namespace Xq

section Flushing

/-- An encoder that may be written to: there is room in its block, and it has not been finished. -/
structure Encoder.Writable (e : Encoder) : Prop where
  room : e.raw.length < e.blockSize
  unfinished : e.finished = false

theorem andThen_congr {σ : Type} {r : XqStatus × σ} {f g : σ → XqStatus × σ}
    (same : r.1 = .ok → f r.2 = g r.2) : andThen r f = andThen r g := by
  -- After a failure neither is asked.
  by_cases done : r.1 = .ok
  · rw [andThen, if_pos done, andThen, if_pos done, same done]
  · rw [andThen_failed done, andThen_failed done]

/-- Flushing empties the block, and a failure on the way sticks. -/
structure Encoder.Flushed (e : Encoder) (r : XqStatus × Encoder) : Prop where
  blockSize : r.2.blockSize = e.blockSize
  finished : r.2.finished = e.finished
  sticky : r.2.sticky = r.1
  emptied : r.1 = .ok → r.2.raw = []

/-- Behind a flush there is a whole block of room. -/
theorem Encoder.Flushed.room {e : Encoder} {n : Nat} {r : XqStatus × Encoder} (flushed : e.Flushed r)
    (positive : n < e.blockSize) (done : r.1 = .ok) : r.2.raw.length < r.2.blockSize := by
  -- The flush has emptied the block.
  rw [flushed.emptied done, flushed.blockSize]
  exact Nat.lt_of_le_of_lt (Nat.zero_le n) positive

theorem Encoder.flushBlock_flushed {e : Encoder} (good : e.sticky = .ok) :
    e.Flushed e.flushBlock := by
  unfold Encoder.flushBlock
  split
  · -- Nothing is gathered, and nothing is flushed.
    rename_i empty
    exact ⟨rfl, rfl, good, fun _ => empty⟩
  · -- The block gathered is compressed and emitted.
    rw [if_neg (not_not.mpr good)]
    rcases compressed : compressJob e e.raw e.cctx with ⟨j, cctx⟩
    have emits := Encoder.emitJob_emits (e := { e with cctx := cctx }) good j
    have finished := Encoder.emitJob_finished (e := { e with cctx := cctx }) rfl j
    exact ⟨congrArg Setup.blockSize emits.setup, finished, emits.sticky, fun _ => rfl⟩

end Flushing

section Pieces

/-- What the copying loop leaves of a writable encoder. -/
structure Encoder.Wrote (e : Encoder) (r : XqStatus × Encoder) : Prop where
  blockSize : r.2.blockSize = e.blockSize
  finished : r.2.finished = e.finished
  sticky : r.2.sticky = r.1
  room : r.1 = .ok → r.2.raw.length < r.2.blockSize

theorem Encoder.writeLoop_wrote {e : Encoder} (good : e.sticky = .ok)
    (room : e.raw.length < e.blockSize) (fuel : Nat) (buf : Bytes) :
    e.Wrote (Encoder.writeLoop fuel buf e) := by
  induction fuel generalizing e buf with
  | zero => exact ⟨rfl, rfl, good, fun _ => room⟩
  | succ fuel ih =>
    rw [Encoder.writeLoop]
    split
    · exact ⟨rfl, rfl, good, fun _ => room⟩
    dsimp only
    generalize taken : (if buf.length < e.blockSize - e.raw.length then buf.length
      else e.blockSize - e.raw.length) = take
    have within : take ≤ e.blockSize - e.raw.length := by
      subst taken
      split <;> omega
    split
    · -- A full block is flushed, and the loop goes on with an empty one.
      have flushed := Encoder.flushBlock_flushed (e := { e with raw := e.raw ++ buf.take take }) good
      generalize Encoder.flushBlock { e with raw := e.raw ++ buf.take take } = r at flushed
      by_cases done : r.1 = .ok
      · rw [andThen, if_pos done]
        have rest := ih (flushed.sticky.trans done) (flushed.room room done) (buf.drop take)
        exact ⟨rest.blockSize.trans flushed.blockSize, rest.finished.trans flushed.finished,
          rest.sticky, rest.room⟩
      · rw [andThen_failed done]
        exact ⟨flushed.blockSize, flushed.finished, flushed.sticky, fun fine => (done fine).elim⟩
    · rename_i short
      have below : (e.raw ++ buf.take take).length < e.blockSize := by
        have := List.length_take_le take buf
        rw [List.length_append] at short ⊢
        omega
      have rest := ih (e := { e with raw := e.raw ++ buf.take take }) good below (buf.drop take)
      exact ⟨rest.blockSize, rest.finished, rest.sticky, rest.room⟩

theorem Encoder.writeLoop_nil (fuel : Nat) (e : Encoder) :
    Encoder.writeLoop fuel [] e = (.ok, e) := by
  -- The loop has nothing left to take.
  cases fuel with
  | zero => rfl
  | succ fuel => rw [Encoder.writeLoop, if_pos rfl]

/-- Rounds the loop does not need change nothing. -/
theorem Encoder.writeLoop_fuel {e : Encoder} (good : e.sticky = .ok)
    (room : e.raw.length < e.blockSize) {fuel more : Nat} {buf : Bytes}
    (enough : buf.length ≤ fuel) (also : buf.length ≤ more) :
    Encoder.writeLoop fuel buf e = Encoder.writeLoop more buf e := by
  -- The induction is on the fuel; each round takes at least a byte.
  induction fuel generalizing e buf more with
  | zero =>
    obtain rfl : buf = [] := List.length_eq_zero_iff.mp (Nat.le_zero.mp enough)
    rw [Encoder.writeLoop_nil, Encoder.writeLoop_nil]
  | succ fuel ih =>
    by_cases empty : buf = []
    · subst empty
      rw [Encoder.writeLoop_nil, Encoder.writeLoop_nil]
    have positive := List.length_pos_of_ne_nil empty
    obtain ⟨more, rfl⟩ : ∃ n, more = n + 1 := ⟨more - 1, by omega⟩
    rw [Encoder.writeLoop, Encoder.writeLoop, if_neg empty, if_neg empty]
    dsimp only
    generalize taken : (if buf.length < e.blockSize - e.raw.length then buf.length
      else e.blockSize - e.raw.length) = take
    have bounds : 0 < take ∧ take ≤ buf.length := by
      subst taken
      split <;> omega
    have shorter : (buf.drop take).length = buf.length - take := List.length_drop
    split
    · have flushed := Encoder.flushBlock_flushed (e := { e with raw := e.raw ++ buf.take take }) good
      generalize Encoder.flushBlock { e with raw := e.raw ++ buf.take take } = r at flushed
      exact andThen_congr fun done => ih (flushed.sticky.trans done) (flushed.room room done)
        (by omega) (by omega)
    · rename_i short
      have below : (e.raw ++ buf.take take).length < e.blockSize := by
        rw [List.length_append, List.length_take] at short ⊢
        subst taken
        split at short <;> omega
      exact ih (e := { e with raw := e.raw ++ buf.take take }) good below (by omega) (by omega)

/-- The loop over two pieces together is the loop over one and then over the other. -/
theorem Encoder.writeLoop_append {e : Encoder} (good : e.sticky = .ok)
    (room : e.raw.length < e.blockSize) {m n k : Nat} {a b : Bytes}
    (whole : (a ++ b).length ≤ n) (first : a.length ≤ m) (second : b.length ≤ k) :
    Encoder.writeLoop n (a ++ b) e =
      andThen (Encoder.writeLoop m a e) (Encoder.writeLoop k b) := by
  -- By blocks of the first piece; what is left of it shares its block with the second one.
  induction m generalizing e n a with
  | zero =>
    obtain rfl : a = [] := List.length_eq_zero_iff.mp (Nat.le_zero.mp first)
    rw [List.nil_append] at whole ⊢
    rw [Encoder.writeLoop_nil, andThen_ok]
    exact Encoder.writeLoop_fuel good room whole second
  | succ m ih =>
    by_cases emptyA : a = []
    · subst emptyA
      rw [List.nil_append] at whole ⊢
      rw [Encoder.writeLoop_nil, andThen_ok]
      exact Encoder.writeLoop_fuel good room whole second
    by_cases emptyB : b = []
    · subst emptyB
      rw [List.append_nil] at whole ⊢
      rw [Encoder.writeLoop_fuel good room whole first]
      have nothing (r : XqStatus × Encoder) : andThen r (Encoder.writeLoop k []) = r := by
        by_cases done : r.1 = .ok
        · rw [andThen, if_pos done, Encoder.writeLoop_nil, ← done]
        · rw [andThen_failed done]
      rw [nothing]
    have positiveA := List.length_pos_of_ne_nil emptyA
    have positiveB := List.length_pos_of_ne_nil emptyB
    rw [List.length_append] at whole
    obtain ⟨n, rfl⟩ : ∃ n', n = n' + 1 := ⟨n - 1, by omega⟩
    by_cases short : a.length < e.blockSize - e.raw.length
    · -- The first piece does not fill the block.
      have gathered : Encoder.writeLoop (m + 1) a e = (.ok, { e with raw := e.raw ++ a }) := by
        rw [Encoder.writeLoop, if_neg emptyA]
        dsimp only
        rw [if_pos short, List.take_length, if_neg (by rw [List.length_append]; omega),
          List.drop_length, Encoder.writeLoop_nil]
      rw [gathered, andThen_ok]
      obtain ⟨k, rfl⟩ : ∃ k', k = k' + 1 := ⟨k - 1, by omega⟩
      rw [Encoder.writeLoop, Encoder.writeLoop, if_neg (by simp [emptyA]), if_neg emptyB]
      dsimp only
      have both : (a ++ b).length = a.length + b.length := List.length_append
      have left : e.blockSize - (e.raw ++ a).length = e.blockSize - e.raw.length - a.length := by
        rw [List.length_append, Nat.sub_add_eq]
      rw [both, left]
      generalize takenB : (if b.length < e.blockSize - e.raw.length - a.length then b.length
        else e.blockSize - e.raw.length - a.length) = take
      have takenA : (if a.length + b.length < e.blockSize - e.raw.length then a.length + b.length
          else e.blockSize - e.raw.length) = a.length + take := by
        subst takenB
        split <;> split <;> omega
      rw [takenA, List.take_length_add_append, List.drop_length_add_append, ← List.append_assoc]
      have bounds : 0 < take ∧ take ≤ b.length := by
        subst takenB
        split <;> omega
      have shorter : (b.drop take).length = b.length - take := List.length_drop
      split
      · have flushed :=
          Encoder.flushBlock_flushed (e := { e with raw := e.raw ++ a ++ b.take take }) good
        generalize Encoder.flushBlock { e with raw := e.raw ++ a ++ b.take take } = r at flushed
        exact andThen_congr fun done => Encoder.writeLoop_fuel (flushed.sticky.trans done)
          (flushed.room room done) (by omega) (by omega)
      · rename_i open_
        have below : (e.raw ++ a ++ b.take take).length < e.blockSize := by
          rw [List.length_append, List.length_append, List.length_take] at open_ ⊢
          subst takenB
          split at open_ <;> omega
        exact Encoder.writeLoop_fuel (e := { e with raw := e.raw ++ a ++ b.take take }) good below
          (by omega) (by omega)
    · -- The first piece fills the block, and the rest of it stands in front of the second one.
      rw [Encoder.writeLoop, Encoder.writeLoop, if_neg (by simp [emptyA]), if_neg emptyA]
      dsimp only
      have long : ¬ (a ++ b).length < e.blockSize - e.raw.length := by
        rw [List.length_append]
        omega
      rw [if_neg short, if_neg long, List.take_append_of_le_length (by omega),
        List.drop_append_of_le_length (by omega)]
      have full : (e.raw ++ a.take (e.blockSize - e.raw.length)).length = e.blockSize := by
        rw [List.length_append, List.length_take]
        omega
      have shorter : (a.drop (e.blockSize - e.raw.length)).length =
          a.length - (e.blockSize - e.raw.length) := List.length_drop
      rw [if_pos full, if_pos full, andThen_assoc]
      have flushed := Encoder.flushBlock_flushed
        (e := { e with raw := e.raw ++ a.take (e.blockSize - e.raw.length) }) good
      generalize Encoder.flushBlock
        { e with raw := e.raw ++ a.take (e.blockSize - e.raw.length) } = r at flushed
      exact andThen_congr fun done => ih (flushed.sticky.trans done) (flushed.room room done)
        (by rw [List.length_append]; omega) (by omega)

end Pieces

section Calls

/-- Two calls in a row are one call with both pieces, whatever comes of them. -/
theorem Encoder.write_append {e : Encoder} (writable : e.Writable) (a b : Bytes) :
    e.write (a ++ b) = (e.write a).2.write b := by
  by_cases good : e.sticky = .ok
  · have unfinished : ¬ e.finished = true := by simp [writable.unfinished]
    have first := Encoder.writeLoop_wrote good writable.room a.length a
    have whole := Encoder.writeLoop_append good writable.room (le_refl _) (le_refl a.length)
      (le_refl b.length)
    unfold Encoder.write
    rw [if_neg (not_not.mpr good), if_neg unfinished, if_neg (not_not.mpr good),
      if_neg unfinished, whole]
    generalize Encoder.writeLoop a.length a e = r at first
    by_cases done : r.1 = .ok
    · have unfinished' : ¬ r.2.finished = true := by rw [first.finished, writable.unfinished]; simp
      rw [andThen, if_pos done, if_neg (not_not.mpr (first.sticky.trans done)),
        if_neg unfinished']
    · -- The failure of the first piece sticks, and the second call only reports it.
      rw [andThen_failed done, if_pos (first.sticky ▸ done), first.sticky]
  · simp only [Encoder.write, if_pos good]

/-- The calls of a client that passes its input on in pieces; once a call has failed, those behind
it change nothing, so it does not matter whether the client still makes them. -/
def Encoder.writes (e : Encoder) : List Bytes → Encoder
  | [] => e
  | piece :: rest => (e.write piece).2.writes rest

/-- A call with nothing to write changes nothing. -/
theorem Encoder.write_nil (e : Encoder) : (e.write []).2 = e := by
  -- The loop is over at once.
  unfold Encoder.write
  split; · rfl
  split; · rfl
  rw [Encoder.writeLoop_nil]

/-- The calls of a client come to one call with its whole input. -/
theorem Encoder.writes_eq {e : Encoder} (writable : e.Writable) (pieces : List Bytes) :
    e.writes pieces = (e.write pieces.flatten).2 := by
  -- By pieces, behind whatever has been written before them.
  have behind (front : Bytes) :
      (e.write front).2.writes pieces = (e.write (front ++ pieces.flatten)).2 := by
    induction pieces generalizing front with
    | nil => rw [List.flatten_nil, List.append_nil, Encoder.writes]
    | cons piece rest ih =>
      rw [Encoder.writes, ← Encoder.write_append writable, ih, List.flatten_cons,
        List.append_assoc]
  have start := behind []
  rwa [Encoder.write_nil, List.nil_append] at start

end Calls

section Single

variable {e : Encoder}

/-- An encoder that has been asked for one thread and has started no workers. -/
def Encoder.Lone (e : Encoder) : Prop := e.p.threads = 1 ∧ e.mt = none

theorem Encoder.emit_lone (lone : e.Lone) (buf : Bytes) : (e.emit buf).2.Lone := by
  -- A sink call does not make workers.
  unfold Encoder.emit
  split
  · exact lone
  · dsimp only
    split
    all_goals exact lone

theorem Encoder.writeDictRecord_lone (lone : e.Lone) (d : XqDict) :
    (e.writeDictRecord d).2.Lone := by
  -- Neither compression nor the sink makes workers.
  unfold Encoder.writeDictRecord
  split
  · exact lone
  rename_i heap _
  have stored : (Encoder.storeDict { e with heap := heap } d).2.2.Lone := by
    unfold Encoder.storeDict
    dsimp only
    split
    · exact lone
    · split
      all_goals exact lone
  generalize Encoder.storeDict { e with heap := heap } d = r at stored
  split
  · refine andThen_keeps (Encoder.emit_lone stored _) fun _ kept => ?_
    exact andThen_keeps (Encoder.emit_lone kept _) fun _ kept => Encoder.emit_lone kept _
  · exact stored

theorem Encoder.createCctx_lone {m : Machine} (lone : e.Lone) : (e.createCctx m).2.Lone := by
  -- Nor does the creation of a context.
  unfold Encoder.createCctx
  split
  · exact lone
  · split
    all_goals exact lone

theorem Encoder.createDict_lone {m : Machine} (lone : e.Lone) (dict : Option XqDict) :
    (e.createDict m dict).2.Lone := by
  -- Nor does that of a dictionary.
  unfold Encoder.createDict
  split; · exact lone
  split; · exact lone
  split; · exact lone
  split
  all_goals exact lone

/-- With one thread there are no workers to make, however many processors there are. -/
theorem Encoder.createMt_lone {m : Machine} (lone : e.Lone) : e.createMt m = (.ok, e) := by
  -- The thread count asked for is not above one.
  have one : encoderThreads e.p e.codec e.blockSize m.cpus = 1 := by
    rw [encoderThreads, lone.1]
    simp
  unfold Encoder.createMt
  dsimp only
  rw [one, if_neg (by simp)]

/-- With one thread a new encoder starts no workers. -/
theorem encoderCreate_single {zstd : Option CodecVt} {m : Machine}
    {sink : Nat → Bytes → Bytes → XqStatus} {p : XqParams} {rawSizeHint : UInt64}
    {dict : Option XqDict} (single : p.threads = 1)
    (created : encoderCreate zstd m sink p rawSizeHint dict = .ok e) : e.mt = none := by
  unfold encoderCreate at created
  dsimp only at created
  split at created; · cases created
  split at created; · cases created
  rename_i codec _
  split at created; · cases created
  rename_i heap _
  split at created; swap; · cases created
  obtain ⟨rfl⟩ := created
  -- The steps of the creation keep the encoder alone, and the sections after them its workers.
  have blank : (encoderBlank codec sink p heap).Lone := ⟨single, rfl⟩
  refine (andThen_keeps (Encoder.createCctx_lone blank) fun a lone => ?_).2
  refine andThen_keeps (Encoder.createDict_lone lone dict) fun b lone => ?_
  rw [Encoder.createMt_lone lone]
  refine andThen_keeps lone fun c lone => ?_
  refine andThen_keeps (Encoder.emit_lone lone _) fun d lone => ?_
  split
  · exact lone
  · exact Encoder.writeDictRecord_lone lone _

/-- A machine with the same allocators creates the same single-threaded encoder. -/
theorem encoderCreate_cpus {zstd : Option CodecVt} {m : Machine}
    {sink : Nat → Bytes → Bytes → XqStatus} {p : XqParams} {rawSizeHint : UInt64}
    {dict : Option XqDict} (single : p.threads = 1) (cpus : Nat) :
    encoderCreate zstd { m with cpus := cpus } sink p rawSizeHint dict =
      encoderCreate zstd m sink p rawSizeHint dict := by
  unfold encoderCreate
  dsimp only
  split; · rfl
  cases codecGet zstd p.codec.id with
  | none => rfl
  | some codec =>
    dsimp only
    generalize m.heap.mallocAll 3 = start
    obtain ⟨granted, heap⟩ := start
    cases granted with
    | false => rfl
    | true =>
      -- The processors are only counted for the workers, and there are none.
      have blank : (encoderBlank codec sink p heap).Lone := ⟨single, rfl⟩
      refine congrArg (fun r : XqStatus × Encoder =>
        if r.1 = .ok then Except.ok r.2 else .error (r.1, r.2.out)) ?_
      refine andThen_congr fun _ => ?_
      have lone := Encoder.createCctx_lone blank (m := m)
      refine andThen_congr fun _ => ?_
      have lone := Encoder.createDict_lone lone (m := m) dict
      exact (congrArg (andThen · _) (Encoder.createMt_lone lone)).trans
        (congrArg (andThen · _) (Encoder.createMt_lone lone)).symm

end Single

/--
How the input of a single-threaded encoder is cut into calls is invisible.

Two clients of encoders created with the same arguments, on machines whose allocators answer alike,
that write the same bytes, in whatever pieces, and then finish, end with the same status, and with the
same output.
-/
theorem write_splitting_invisible {zstd : Option CodecVt} {m m' : Machine}
    (alike : m' = { m with cpus := m'.cpus }) {sink : Nat → Bytes → Bytes → XqStatus} {p : XqParams}
    {rawSizeHint : UInt64} {dict : Option XqDict} {e e' : Encoder} (single : p.threads = 1)
    (created : encoderCreate zstd m sink p rawSizeHint dict = .ok e)
    (created' : encoderCreate zstd m' sink p rawSizeHint dict = .ok e')
    {pieces pieces' : List Bytes} (same : pieces.flatten = pieces'.flatten) :
    e.mt = none ∧ e'.mt = none ∧
      (e.writes pieces).finish.1 = (e'.writes pieces').finish.1 ∧
      (e.writes pieces).finish.2.out = (e'.writes pieces').finish.2.out := by
  -- The number of processors does not show where one thread is asked for.
  rw [alike, encoderCreate_cpus single] at created'
  obtain rfl := Except.ok.inj (created.symm.trans created')
  obtain ⟨record, fresh⟩ := encoderCreate_ok created
  obtain ⟨_, _, _, _, k, _, _, power⟩ := paramsCheck_ok fresh.accepted
  have writable : e.Writable := by
    refine ⟨?_, fresh.finished⟩
    rw [fresh.raw, fresh.blockSize, power]
    exact Nat.two_pow_pos k
  have alone := encoderCreate_single single created
  rw [Encoder.writes_eq writable, Encoder.writes_eq writable, same]
  exact ⟨alone, alone, rfl, rfl⟩

/-- A machine whose allocators grant every request. -/
def openMachine : Machine :=
  { heap := { grants := fun _ => true, junk := fun _ _ => 0, next := 0 }
    cctxHeap := { grants := fun _ => true, junk := fun _ _ => 0, next := 0 }
    cdictHeap := { grants := fun _ => true, junk := fun _ _ => 0, next := 0 }
    cpus := 1 }

/-- Parameters of a plain container with one thread. -/
def storedParams : XqParams :=
  { level := 1, blockSize := 0, dictSize := 0, codec := .stored, checksum := .crc32c, threads := 1,
    memLimit := 0 }

/-- The same with the smallest blocks there are. -/
def smallParams : XqParams := { storedParams with blockSize := 4096 }

/-- One block of sevens, and three bytes of another. -/
def twoBlocks : Bytes := List.replicate 4096 7 ++ [1, 2, 3]

/-- Two blocks in one piece, or on a machine with more processors in pieces that end inside the first
block and beyond it. -/
theorem write_splitting_invisible_blocks : ∃ e e',
    encoderCreate none openMachine (fun _ _ _ => .ok) smallParams 4099 none = .ok e ∧
      encoderCreate none { openMachine with cpus := 8 } (fun _ _ _ => .ok) smallParams 4099 none =
        .ok e' ∧
      (e.writes [twoBlocks]).finish.2.out =
        (e'.writes [List.replicate 4000 7, [], List.replicate 96 7 ++ [1], [2, 3]]).finish.2.out := by
  cases created : encoderCreate none openMachine (fun _ _ _ => .ok) smallParams 4099 none with
  | error failed =>
    have fine : (encoderCreate none openMachine (fun _ _ _ => .ok) smallParams 4099 none).isOk := by
      decide +kernel
    rw [created] at fine
    cases fine
  | ok e =>
    -- Both clients write the same bytes.
    have same : [twoBlocks].flatten =
        [List.replicate 4000 7, [], List.replicate 96 7 ++ [1], [2, 3]].flatten := by
      have sevens : List.replicate 4096 (7 : UInt8) =
          List.replicate 4000 7 ++ List.replicate 96 7 := by
        rw [List.replicate_append_replicate]
      rw [twoBlocks, sevens]
      simp only [List.flatten_cons, List.flatten_nil, List.append_assoc, List.append_nil,
        List.nil_append, List.cons_append]
    have created' : encoderCreate none { openMachine with cpus := 8 } (fun _ _ _ => .ok) smallParams
        4099 none = .ok e := by rw [encoderCreate_cpus rfl, created]
    exact ⟨e, e, rfl, created', (write_splitting_invisible rfl rfl created created' same).2.2.2⟩

end Xq
