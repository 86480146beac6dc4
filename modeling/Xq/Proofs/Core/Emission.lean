import Xq.Common.Crc32cLaws
import Xq.Core.Container

/-! What the encoder hands to its sink: every step emits what it plans, or fails with a part of it,
and a failure sticks. -/

namespace Xq

theorem andThen_ok {σ : Type} (s : σ) (next : σ → XqStatus × σ) :
    andThen (.ok, s) next = next s := rfl

theorem andThen_failed {σ : Type} {r : XqStatus × σ} (failed : r.1 ≠ .ok)
    (next : σ → XqStatus × σ) : andThen r next = r := if_neg failed

theorem andThen_assoc {σ : Type} (r : XqStatus × σ) (f g : σ → XqStatus × σ) :
    andThen (andThen r f) g = andThen r fun s => andThen (f s) g := by
  -- A failure of the first step stops both.
  by_cases done : r.1 = .ok
  · obtain ⟨st, s⟩ := r
    obtain rfl : st = .ok := done
    rfl
  · rw [andThen_failed done, andThen_failed done, andThen_failed done]

section Emits

/-- What no emission changes: the parameters, and the block being gathered. -/
structure Setup where
  sink : Nat → Bytes → Bytes → XqStatus
  p : XqParams
  codec : CodecVt
  cctx : Cctx
  cdict : Option Cdict
  dict : Option XqDict
  blockSize : Nat
  blockSizeLog : Nat
  checksumLen : Nat
  cbufCap : Nat
  mt : Option Nat
  raw : Bytes
  grants : Nat → Bool

def Encoder.setup (e : Encoder) : Setup :=
  { sink := e.sink, p := e.p, codec := e.codec, cctx := e.cctx, cdict := e.cdict, dict := e.dict,
    blockSize := e.blockSize, blockSizeLog := e.blockSizeLog, checksumLen := e.checksumLen,
    cbufCap := e.cbufCap, mt := e.mt, raw := e.raw, grants := e.heap.grants }

/-- What the encoder keeps account of besides the bytes. -/
structure Books where
  idx : List IndexEntry
  rawOffset : Nat
  streamCk : Xxh64State

def Encoder.books (e : Encoder) : Books :=
  { idx := e.idx, rawOffset := e.rawOffset, streamCk := e.streamCk }

/-- The index array has room for its entries, and its size in bytes is a `size_t`. -/
def Encoder.Indexed (e : Encoder) : Prop := e.idx.length ≤ e.idxCap ∧ e.idxCap < 2 ^ 60

/-- The result of a step that plans to emit `planned` and to come to `books`: a success has done
so, and a failure has emitted a part of it and sticks. No sink call follows one that fails, and a
success has been refused no memory. -/
structure Encoder.Emits (e : Encoder) (planned : Bytes) (books : Books)
    (r : XqStatus × Encoder) : Prop where
  setup : r.2.setup = e.setup
  sticky : r.2.sticky = r.1
  done : r.1 = .ok → r.2.out = e.out ++ planned ∧
    r.2.fileOffset = e.fileOffset + planned.length ∧ r.2.books = books
  part : ∃ part, part <+: planned ∧ r.2.out = e.out ++ part
  answers : ∃ answers, r.2.verdicts = e.verdicts ++ answers ∧
    (∀ v ∈ answers.dropLast, v = .ok) ∧ (r.1 = .ok → ∀ v ∈ answers, v = .ok)
  memory : e.heap.next ≤ r.2.heap.next ∧
    (r.1 = .ok → ∀ n, e.heap.next ≤ n → n < r.2.heap.next → e.heap.grants n = true)
  indexed : e.Indexed → r.2.Indexed

/-- A step that does nothing. -/
theorem Encoder.Emits.nothing {e : Encoder} (good : e.sticky = .ok) :
    e.Emits [] e.books (.ok, e) where
  setup := rfl
  sticky := good
  done _ := ⟨(List.append_nil _).symm, rfl, rfl⟩
  part := ⟨[], List.prefix_rfl, (List.append_nil _).symm⟩
  answers := ⟨[], (List.append_nil _).symm, List.forall_mem_nil _, fun _ => List.forall_mem_nil _⟩
  memory := ⟨le_rfl, fun _ _ above below => absurd below (Nat.not_lt.mpr above)⟩
  indexed indexed := indexed

/-- A step that only records a failure. -/
theorem Encoder.Emits.failing {e : Encoder} {st : XqStatus} (bad : st ≠ .ok) (planned : Bytes)
    (books : Books) : e.Emits planned books (e.fail st) where
  setup := rfl
  sticky := rfl
  done fine := (bad fine).elim
  part := ⟨[], List.nil_prefix, (List.append_nil _).symm⟩
  answers := ⟨[], (List.append_nil _).symm, List.forall_mem_nil _, fun _ => List.forall_mem_nil _⟩
  memory := ⟨le_rfl, fun fine => (bad fine).elim⟩
  indexed indexed := indexed

/-- A failure in the middle of a plan is a failure of the whole plan. -/
theorem Encoder.Emits.failed {e : Encoder} {a : Bytes} {m : Books} {r : XqStatus × Encoder}
    (first : e.Emits a m r) (failed : r.1 ≠ .ok) (b : Bytes) (books : Books) :
    e.Emits (a ++ b) books r where
  setup := first.setup
  sticky := first.sticky
  done fine := (failed fine).elim
  part := by
    -- What has been emitted is a front of the longer plan as well.
    obtain ⟨part, within, out⟩ := first.part
    exact ⟨part, within.trans (List.prefix_append a b), out⟩
  answers := first.answers
  memory := first.memory
  indexed := first.indexed

/-- Steps one after another emit their plans one after another. -/
theorem Encoder.Emits.trans {e : Encoder} {a b : Bytes} {m books : Books}
    {first second : XqStatus × Encoder} (start : e.Emits a m first) (good : first.1 = .ok)
    (rest : first.2.Emits b books second) : e.Emits (a ++ b) books second := by
  obtain ⟨out, offset, _⟩ := start.done good
  refine ⟨rest.setup.trans start.setup, rest.sticky, fun fine => ?_, ?_, ?_, ?_,
    fun indexed => rest.indexed (start.indexed indexed)⟩
  · obtain ⟨out', offset', books'⟩ := rest.done fine
    refine ⟨by rw [out', out, List.append_assoc], ?_, books'⟩
    rw [offset', offset, List.length_append, Nat.add_assoc]
  · obtain ⟨part, within, out'⟩ := rest.part
    exact ⟨a ++ part, List.prefix_append_right_inj a |>.mpr within,
      by rw [out', out, List.append_assoc]⟩
  · -- All answers of the first step were good, so only the second one's last may not be.
    obtain ⟨answers, verdicts, _, all⟩ := start.answers
    obtain ⟨answers', verdicts', early', all'⟩ := rest.answers
    have all := all good
    refine ⟨answers ++ answers', by rw [verdicts', verdicts, List.append_assoc],
      fun v member => ?_, fun fine v member => ?_⟩
    · rcases List.eq_nil_or_concat answers' with rfl | ⟨front, last, rfl⟩
      · rw [List.append_nil] at member
        exact all v (List.dropLast_subset _ member)
      · rw [List.concat_eq_append, ← List.append_assoc, List.dropLast_concat] at member
        rcases List.mem_append.mp member with before | after
        · exact all v before
        · exact early' v (by rwa [List.concat_eq_append, List.dropLast_concat])
    · rcases List.mem_append.mp member with before | after
      · exact all v before
      · exact all' fine v after
  · obtain ⟨below, granted⟩ := start.memory
    obtain ⟨below', granted'⟩ := rest.memory
    refine ⟨below.trans below', fun fine n above before => ?_⟩
    rcases Nat.lt_or_ge n first.2.heap.next with here | there
    · exact granted good n above here
    · have same : first.2.heap.grants = e.heap.grants := congrArg Setup.grants start.setup
      rw [← same]
      exact granted' fine n there before

/-- The rule for a step that goes on only after a success. -/
theorem Encoder.Emits.andThen {e : Encoder} {a b : Bytes} {m books : Books}
    {first : XqStatus × Encoder} {next : Encoder → XqStatus × Encoder} (start : e.Emits a m first)
    (rest : first.1 = .ok → first.2.Emits b books (next first.2)) :
    e.Emits (a ++ b) books (andThen first next) := by
  -- A first step that fails is the last one.
  by_cases good : first.1 = .ok
  · rw [Xq.andThen, if_pos good]
    exact start.trans good (rest good)
  · rw [andThen_failed good]
    exact start.failed good b books

/-- One sink call. -/
theorem Encoder.emit_emits {e : Encoder} (good : e.sticky = .ok) (buf : Bytes) :
    e.Emits buf e.books (e.emit buf) := by
  rw [Encoder.emit, if_neg (not_not.mpr good)]
  dsimp only
  by_cases refused : e.sink e.verdicts.length e.out buf ≠ .ok
  · rw [if_pos refused]
    -- The sink refused: nothing is added, and the status is kept.
    refine ⟨rfl, rfl,
      fun fine => (refused fine).elim, ⟨[], List.nil_prefix, (List.append_nil _).symm⟩,
      ⟨[_], rfl, List.forall_mem_nil _, fun fine => (refused fine).elim⟩,
      ⟨le_rfl, fun fine => (refused fine).elim⟩, fun indexed => indexed⟩
  · rw [if_neg refused]
    -- The sink took the bytes.
    refine ⟨rfl, good,
      fun _ => ⟨rfl, rfl, rfl⟩, ⟨buf, List.prefix_rfl, rfl⟩,
      ⟨[_], rfl, List.forall_mem_nil _, fun _ v member => ?_⟩,
      ⟨le_rfl, fun _ n above below => ?_⟩, fun indexed => indexed⟩
    · rw [List.mem_singleton.mp member]
      exact not_not.mp refused
    · dsimp only at below
      omega

/-- Sink calls one after another. -/
theorem Encoder.emitAll_emits {e : Encoder} (good : e.sticky = .ok) (chunks : List Bytes) :
    e.Emits chunks.flatten e.books (Encoder.emitAll chunks e) := by
  -- The induction is on the pieces, each emitted behind a success.
  induction chunks generalizing e with
  | nil => exact .nothing good
  | cons chunk rest ih =>
    have first := Encoder.emit_emits good chunk
    refine first.andThen fun fine => ?_
    have books := (first.done fine).2.2
    rw [← books]
    exact ih (first.sticky.trans fine)

/-- A new entry of the index, or the failure of the encoder. -/
def Encoder.pushed (e : Encoder) (fileOff rawOff : Nat) : XqStatus × Encoder :=
  match e.idxPush fileOff rawOff with
  | (.ok, e) => (.ok, e)
  | (st, e) => e.fail st

/-- The books with one more entry. -/
def Books.push (books : Books) (fileOff rawOff : Nat) : Books :=
  { books with
    idx := books.idx ++ [{ fileOffset := UInt64.ofNat fileOff, rawOffset := UInt64.ofNat rawOff }] }

theorem Encoder.pushed_emits {e : Encoder} (good : e.sticky = .ok) (fileOff rawOff : Nat) :
    e.Emits [] (e.books.push fileOff rawOff) (e.pushed fileOff rawOff) := by
  rw [Encoder.pushed, Encoder.idxPush, Encoder.idxGrow]
  by_cases full : e.idx.length = e.idxCap
  · rw [if_pos full]
    dsimp only
    by_cases large : (if e.idxCap ≠ 0 then e.idxCap * 2 else 1024) > (2 ^ 64 - 1) / indexEntrySize
    · -- The size of the array would overflow.
      rw [if_pos large]
      exact .failing (by decide) _ _
    rw [if_neg large, Heap.malloc]
    by_cases granted : e.heap.grants e.heap.next = true
    · -- The array grows, and the entry fits the new capacity.
      rw [if_pos granted]
      refine ⟨rfl, good,
        fun _ => ⟨(List.append_nil _).symm, rfl, rfl⟩,
        ⟨[], List.prefix_rfl, (List.append_nil _).symm⟩,
        ⟨[], (List.append_nil _).symm, List.forall_mem_nil _, fun _ => List.forall_mem_nil _⟩,
        ⟨Nat.le_succ _, fun _ n above below => ?_⟩,
        fun indexed => ⟨?_, ?_⟩⟩
      · obtain rfl : n = e.heap.next := by
          have : n < e.heap.next + 1 := below
          omega
        exact granted
      · have := indexed.1
        show (e.idx ++ [_]).length ≤ (if e.idxCap ≠ 0 then e.idxCap * 2 else 1024)
        rw [List.length_append, List.length_singleton]
        split <;> omega
      · show (if e.idxCap ≠ 0 then e.idxCap * 2 else 1024) < 2 ^ 60
        have size : indexEntrySize = 16 := rfl
        rw [size] at large
        omega
    · -- The allocation was refused.
      rw [if_neg granted]
      have refused : e.heap.grants e.heap.next = false := Bool.eq_false_iff.mpr granted
      refine ⟨rfl, rfl,
        (fun fine => by cases fine), ⟨[], List.nil_prefix, (List.append_nil _).symm⟩,
        ⟨[], (List.append_nil _).symm, List.forall_mem_nil _, fun _ => List.forall_mem_nil _⟩,
        ⟨Nat.le_succ _, fun fine => by cases fine⟩,
        fun indexed => indexed⟩
  · -- There is room for the entry.
    rw [if_neg full]
    refine ⟨rfl, good,
      fun _ => ⟨(List.append_nil _).symm, rfl, rfl⟩,
      ⟨[], List.prefix_rfl, (List.append_nil _).symm⟩,
      ⟨[], (List.append_nil _).symm, List.forall_mem_nil _, fun _ => List.forall_mem_nil _⟩,
      ⟨le_rfl, fun _ n above below => ?_⟩,
      fun indexed => ⟨?_, indexed.2⟩⟩
    · have : n < e.heap.next := below
      omega
    · have := indexed.1
      show (e.idx ++ [_]).length ≤ e.idxCap
      rw [List.length_append, List.length_singleton]
      omega

end Emits

section Jobs

/-- Emitting jobs one after another, up to the first that fails. -/
def Encoder.feed : List EncJob → Encoder → XqStatus × Encoder
  | [], e => (.ok, e)
  | j :: rest, e => andThen (e.emitJob j) (Encoder.feed rest)

theorem Encoder.feed_append (jobs more : List EncJob) (e : Encoder) :
    Encoder.feed (jobs ++ more) e = andThen (Encoder.feed jobs e) (Encoder.feed more) := by
  -- The induction is on the first jobs.
  induction jobs generalizing e with
  | nil => rfl
  | cons j rest ih =>
    rw [List.cons_append, Encoder.feed, Encoder.feed, andThen_assoc]
    exact congrArg (andThen _) (funext ih)

/-- A job that has not failed is emitted piece by piece. -/
theorem Encoder.emitJob_eq {e : Encoder} {j : EncJob} (good : e.sticky = .ok) (made : j.st = .ok) :
    e.emitJob j =
      andThen (e.pushed e.fileOffset e.rawOffset) fun e =>
      andThen (e.emit (fmtBlockStore (e.blockHeader j))) fun e =>
      andThen (e.emit j.payload) fun e =>
      andThen (if e.checksumLen ≠ 0 then e.emit j.ck else (.ok, e)) fun e =>
        (.ok, e.blockWritten j) := by
  -- The tests in front of the entry pass, and the rest is a chain of steps.
  rw [Encoder.emitJob, if_neg (not_not.mpr good), if_neg (not_not.mpr made), Encoder.pushed]
  rcases e.idxPush e.fileOffset e.rawOffset with ⟨st, next⟩
  cases st
  all_goals rfl

/-- The books behind one more block. -/
def Encoder.booksAfter (e : Encoder) (j : EncJob) : Books :=
  { idx := e.idx ++ [{ fileOffset := UInt64.ofNat e.fileOffset,
                       rawOffset := UInt64.ofNat e.rawOffset }]
    rawOffset := e.rawOffset + j.raw.length
    streamCk := if e.p.checksum ≠ .none then xxh64Update e.streamCk j.raw else e.streamCk }

/-- A block emits its header, its payload and its checksum; a job that failed emits nothing. -/
theorem Encoder.emitJob_emits {e : Encoder} (good : e.sticky = .ok) (j : EncJob) :
    e.Emits (e.fileBlock e.rawOffset j).bytes (e.booksAfter j) (e.emitJob j) := by
  by_cases made : j.st = .ok
  · rw [Encoder.emitJob_eq good made]
    have plan : (e.fileBlock e.rawOffset j).bytes = [] ++ (fmtBlockStore (e.blockHeader j) ++
        (j.payload ++ ((if e.checksumLen ≠ 0 then j.ck else []) ++ []))) := by
      rw [FileBlock.bytes, Encoder.fileBlock, List.nil_append, List.append_nil, List.append_assoc]
    rw [plan]
    -- The entry of the index, the header, the payload and the checksum, each behind a success.
    have pushed := Encoder.pushed_emits good e.fileOffset e.rawOffset
    refine pushed.andThen fun fine => ?_
    generalize e.pushed e.fileOffset e.rawOffset = r₁ at pushed fine
    obtain ⟨st₁, e₁⟩ := r₁
    obtain rfl : st₁ = .ok := fine
    have books₁ := (pushed.done rfl).2.2
    have header₁ : e₁.blockHeader j = e.blockHeader j := by
      have cdict : e₁.cdict = e.cdict := congrArg Setup.cdict pushed.setup
      have params : e₁.p = e.p := congrArg Setup.p pushed.setup
      have offset : e₁.rawOffset = e.rawOffset := congrArg Books.rawOffset books₁
      rw [Encoder.blockHeader, Encoder.blockHeader, cdict, params, offset]
    dsimp only
    rw [header₁]
    have headed := Encoder.emit_emits pushed.sticky (fmtBlockStore (e.blockHeader j))
    refine headed.andThen fun fine => ?_
    generalize e₁.emit (fmtBlockStore (e.blockHeader j)) = r₂ at headed fine
    obtain ⟨st₂, e₂⟩ := r₂
    obtain rfl : st₂ = .ok := fine
    have paid := Encoder.emit_emits headed.sticky j.payload
    refine paid.andThen fun fine => ?_
    dsimp only at paid fine ⊢
    generalize e₂.emit j.payload = r₃ at paid fine
    obtain ⟨st₃, e₃⟩ := r₃
    obtain rfl : st₃ = .ok := fine
    have setup₃ : e₃.setup = e.setup := paid.setup.trans (headed.setup.trans pushed.setup)
    have books₃ : e₃.books = e₁.books :=
      (paid.done rfl).2.2.trans (headed.done rfl).2.2
    have sealed : e₃.Emits (if e.checksumLen ≠ 0 then j.ck else []) e₃.books
        (if e₃.checksumLen ≠ 0 then e₃.emit j.ck else (.ok, e₃)) := by
      have length : e₃.checksumLen = e.checksumLen := congrArg Setup.checksumLen setup₃
      rw [length]
      split
      · exact Encoder.emit_emits paid.sticky _
      · exact .nothing paid.sticky
    refine sealed.andThen fun fine => ?_
    generalize (if e₃.checksumLen ≠ 0 then e₃.emit j.ck else (.ok, e₃)) = r₄ at sealed fine
    obtain ⟨st₄, e₄⟩ := r₄
    obtain rfl : st₄ = .ok := fine
    -- All bytes are out, and the account of the block follows.
    have books₄ : e₄.books = (e.books.push e.fileOffset e.rawOffset) :=
      (sealed.done rfl).2.2.trans (books₃.trans books₁)
    have params : e₄.p = e.p := congrArg Setup.p (sealed.setup.trans setup₃)
    have idx : e₄.idx = _ := congrArg Books.idx books₄
    have offset : e₄.rawOffset = e.rawOffset := congrArg Books.rawOffset books₄
    have state : e₄.streamCk = e.streamCk := congrArg Books.streamCk books₄
    have after : (e₄.blockWritten j).books = e.booksAfter j := by
      rw [Encoder.booksAfter, Encoder.books, Encoder.blockWritten]
      dsimp only
      rw [idx, offset, state, params]
      rfl
    have nothing := Encoder.Emits.nothing (e := e₄.blockWritten j) sealed.sticky
    rw [after] at nothing
    exact ⟨nothing.setup, nothing.sticky, nothing.done, nothing.part, nothing.answers,
      nothing.memory, nothing.indexed⟩
  · -- A job that failed is reported before anything is emitted.
    rw [Encoder.emitJob, if_neg (not_not.mpr good), if_pos made]
    exact .failing made _ _

/-- A job that has failed may stand for any other. -/
theorem Encoder.emitJob_emits_of {e : Encoder} (good : e.sticky = .ok) {j j' : EncJob}
    (agree : j.st = .ok → j = j') :
    e.Emits (e.fileBlock e.rawOffset j').bytes (e.booksAfter j') (e.emitJob j) := by
  -- The two agree where the job has been made.
  by_cases made : j.st = .ok
  · rw [← agree made]
    exact Encoder.emitJob_emits good j
  · rw [Encoder.emitJob, if_neg (not_not.mpr good), if_pos made]
    exact .failing made _ _

/-- Blocks only depend on the parameters of the encoder, and on whether it has a dictionary. -/
theorem Encoder.fileBlocks_same {e e' : Encoder} (cdict : e'.cdict = e.cdict) (params : e'.p = e.p)
    (length : e'.checksumLen = e.checksumLen) (rawOffset : Nat) (jobs : List EncJob) :
    e'.fileBlocks rawOffset jobs = e.fileBlocks rawOffset jobs := by
  -- The induction is on the jobs.
  induction jobs generalizing rawOffset with
  | nil => rfl
  | cons j rest ih =>
    rw [Encoder.fileBlocks, Encoder.fileBlocks, ih, Encoder.fileBlock, Encoder.fileBlock,
      Encoder.blockHeader, Encoder.blockHeader]
    dsimp only
    rw [cdict, params, length]

theorem Encoder.fileBlocks_setup {e e' : Encoder} (same : e'.setup = e.setup) (rawOffset : Nat)
    (jobs : List EncJob) : e'.fileBlocks rawOffset jobs = e.fileBlocks rawOffset jobs :=
  Encoder.fileBlocks_same (congrArg Setup.cdict same) (congrArg Setup.p same)
    (congrArg Setup.checksumLen same) rawOffset jobs

/-- The blocks of more jobs stand behind those of the first. -/
theorem Encoder.fileBlocks_append (e : Encoder) (rawOffset : Nat) (jobs more : List EncJob) :
    e.fileBlocks rawOffset (jobs ++ more) = e.fileBlocks rawOffset jobs ++
      e.fileBlocks (rawOffset + (jobs.map fun j => j.raw.length).sum) more := by
  -- The induction is on the first jobs, with the raw offset behind them.
  induction jobs generalizing rawOffset with
  | nil => rfl
  | cons j rest ih =>
    rw [List.cons_append, Encoder.fileBlocks, Encoder.fileBlocks, ih, List.map_cons, List.sum_cons,
      Nat.add_assoc]
    rfl

/-- The books behind the blocks of several jobs. -/
def Encoder.booksFed (e : Encoder) (jobs : List EncJob) : Books :=
  { idx := e.idx ++ blockEntries e.fileOffset (e.fileBlocks e.rawOffset jobs)
    rawOffset := e.rawOffset + (jobs.map fun j => j.raw.length).sum
    streamCk :=
      if e.p.checksum ≠ .none then jobs.foldl (fun s j => xxh64Update s j.raw) e.streamCk
      else e.streamCk }

/-- Jobs emit their blocks one after another; those that have failed may stand for any others. -/
theorem Encoder.feed_emits {e : Encoder} (good : e.sticky = .ok) {jobs jobs' : List EncJob}
    (agree : List.Forall₂ (fun j j' => j.st = .ok → j = j') jobs jobs') :
    e.Emits ((e.fileBlocks e.rawOffset jobs').flatMap FileBlock.bytes) (e.booksFed jobs')
      (Encoder.feed jobs e) := by
  induction agree generalizing e with
  | nil =>
    have books : e.booksFed [] = e.books := by
      rw [Encoder.booksFed, Encoder.fileBlocks, blockEntries, List.append_nil]
      show Books.mk _ _ (if _ then e.streamCk else e.streamCk) = _
      rw [ite_self]
      rfl
    rw [books]
    exact .nothing good
  | @cons j j' rest rest' same _ ih =>
    rw [Encoder.fileBlocks, List.flatMap_cons, Encoder.feed]
    have first := Encoder.emitJob_emits_of good same
    refine first.andThen fun fine => ?_
    generalize e.emitJob j = r at first fine
    obtain ⟨st, next⟩ := r
    obtain rfl : st = .ok := fine
    have later := ih first.sticky
    -- The next block takes up where this one has left the offsets.
    obtain ⟨_, offset, books⟩ := first.done rfl
    have rawOffset : next.rawOffset = e.rawOffset + j'.raw.length :=
      congrArg Books.rawOffset books
    have idx : next.idx = _ := congrArg Books.idx books
    have state : next.streamCk = _ := congrArg Books.streamCk books
    have params : next.p = e.p := congrArg Setup.p first.setup
    dsimp only at offset
    have after : next.booksFed rest' = e.booksFed (j' :: rest') := by
      rw [Encoder.booksFed, Encoder.booksFed, Encoder.fileBlocks_setup first.setup, idx, rawOffset,
        state, params, offset, Encoder.booksAfter, Encoder.fileBlocks, blockEntries,
        List.append_assoc, List.map_cons, List.sum_cons, Nat.add_assoc]
      by_cases none : e.p.checksum ≠ .none
      · simp only [if_pos none, List.foldl_cons]
        rfl
      · simp only [if_neg none]
        rfl
    rw [after, Encoder.fileBlocks_setup first.setup, rawOffset] at later
    exact later

/-- Jobs that are all emitted have all been made. -/
theorem Encoder.feed_made {e : Encoder} {jobs : List EncJob} (good : e.sticky = .ok)
    (fed : (Encoder.feed jobs e).1 = .ok) : ∀ j ∈ jobs, j.st = .ok := by
  induction jobs generalizing e with
  | nil => exact List.forall_mem_nil _
  | cons j rest ih =>
    have first := Encoder.emitJob_emits good j
    rw [Encoder.feed] at fed
    by_cases fine : (e.emitJob j).1 = .ok
    · -- This job was emitted, so it did not fail, and the rest follows.
      rw [andThen, if_pos fine] at fed
      refine List.forall_mem_cons.mpr ⟨?_, ih (first.sticky.trans fine) fed⟩
      by_contra broken
      rw [Encoder.emitJob, if_neg (not_not.mpr good), if_pos broken] at fine
      exact broken fine
    · -- It was not, and feeding stopped there.
      rw [andThen_failed fine] at fed
      exact (fine fed).elim

end Jobs

section Tail

/-- The batches of entries are all of them in order. -/
theorem indexChunks_flatten (fuel : Nat) (entries : List IndexEntry)
    (enough : entries.length ≤ fuel) :
    (indexChunks fuel entries).flatten = entries.flatMap fmtIndexEntryStore := by
  -- The induction is on the fuel; a batch takes at least one entry.
  induction fuel generalizing entries with
  | zero =>
    rw [List.length_eq_zero_iff.mp (Nat.le_zero.mp enough)]
    rfl
  | succ fuel ih =>
    rw [indexChunks]
    split
    · rename_i empty
      rw [empty]
      rfl
    · rename_i some_entry
      have positive := List.length_pos_iff.mpr some_entry
      rw [List.flatten_cons, ih _ (by rw [List.length_drop]; omega), ← List.flatMap_append,
        List.take_append_drop]

/-- A checksum over pieces is the checksum over what they make up. -/
theorem crc32c_pieces (pieces : List Bytes) (crc : UInt32) :
    pieces.foldl crc32cUpdate crc = crc32cUpdate crc pieces.flatten := by
  -- The induction is on the pieces.
  induction pieces generalizing crc with
  | nil => simp [crc32cUpdate]
  | cons piece rest ih => rw [List.foldl_cons, ih, List.flatten_cons, crc32cUpdate_append]

@[simp] theorem length_fmtIndexEntryStore (e : IndexEntry) :
    (fmtIndexEntryStore e).length = indexEntrySize := rfl

@[simp] theorem length_fmtIndexPreambleStore (p : IndexPreamble) :
    (fmtIndexPreambleStore p).length = indexPreambleSize := rfl

theorem length_entriesStore (entries : List IndexEntry) :
    (entries.flatMap fmtIndexEntryStore).length = indexEntrySize * entries.length := by
  -- All entries have the same length.
  rw [List.length_flatMap, List.map_congr_left fun e _ => length_fmtIndexEntryStore e,
    List.map_const', List.sum_replicate, smul_eq_mul, Nat.mul_comm]

/-- The size of an index record's payload, when it is a 64-bit number. -/
theorem fmtIndexPayloadSize_eq {n : Nat} (small : n < 2 ^ 60)
    (fits : fmtIndexPayloadSize (UInt64.ofNat n) ≠ 0) :
    (fmtIndexPayloadSize (UInt64.ofNat n)).toNat =
      indexPreambleSize + indexEntrySize * (n + 1) := by
  -- Each of the source's checked operations stays in the word, or the size would be zero.
  have size : indexEntrySize = 16 := rfl
  have preamble : indexPreambleSize = 24 := rfl
  have word : UInt64.size = 2 ^ 64 := rfl
  have count : (UInt64.ofNat n).toNat = n := UInt64.toNat_ofNat_of_lt' (by omega)
  have one : (1 : UInt64).toNat = 1 := rfl
  have next : (UInt64.ofNat n + 1).toNat = n + 1 := by
    rw [UInt64.toNat_add, count, one]
    omega
  have sixteen : (16 : UInt64).toNat = 16 := rfl
  have head : (24 : UInt64).toNat = 24 := rfl
  rw [fmtIndexPayloadSize, addU64Ok, if_pos (by rw [count, one]; omega)] at fits ⊢
  dsimp only at fits ⊢
  rw [mulU64Ok, next, sixteen] at fits ⊢
  by_cases large : (n + 1) * 16 < 2 ^ 64
  · have bytes : ((UInt64.ofNat n + 1) * 16).toNat = (n + 1) * 16 := by
      rw [UInt64.toNat_mul, next, sixteen]
      omega
    rw [if_pos large] at fits ⊢
    dsimp only at fits ⊢
    rw [addU64Ok, bytes, head] at fits ⊢
    by_cases larger : (n + 1) * 16 + 24 < 2 ^ 64
    · rw [if_pos larger]
      dsimp only
      rw [UInt64.toNat_add, bytes, head, size, preamble]
      omega
    · rw [if_neg larger] at fits
      exact absurd rfl fits
  · rw [if_neg large] at fits
    exact absurd rfl fits

/-- The size of an index record is announced as long as it fits 64 bits. -/
theorem fmtIndexPayloadSize_fits {n : Nat}
    (small : indexPreambleSize + indexEntrySize * (n + 1) < 2 ^ 64) :
    fmtIndexPayloadSize (UInt64.ofNat n) ≠ 0 := by
  -- A sum that fits bounds each of the source's checked operations.
  have size : indexEntrySize = 16 := rfl
  have preamble : indexPreambleSize = 24 := rfl
  have word : UInt64.size = 2 ^ 64 := rfl
  rw [size, preamble] at small
  have count : (UInt64.ofNat n).toNat = n := UInt64.toNat_ofNat_of_lt' (by omega)
  have one : (1 : UInt64).toNat = 1 := rfl
  have sixteen : (16 : UInt64).toNat = 16 := rfl
  have head : (24 : UInt64).toNat = 24 := rfl
  have next : (UInt64.ofNat n + 1).toNat = n + 1 := by
    rw [UInt64.toNat_add, count, one]
    omega
  have bytes : ((UInt64.ofNat n + 1) * 16).toNat = (n + 1) * 16 := by
    rw [UInt64.toNat_mul, next, sixteen]
    omega
  rw [fmtIndexPayloadSize, addU64Ok, if_pos (by rw [count, one]; omega)]
  dsimp only
  rw [mulU64Ok, if_pos (by rw [next, sixteen]; omega)]
  dsimp only
  rw [addU64Ok, if_pos (by rw [bytes, head]; omega)]
  dsimp only
  intro none
  have total : ((UInt64.ofNat n + 1) * 16 + 24).toNat = (n + 1) * 16 + 24 := by
    rw [UInt64.toNat_add, bytes, head]
    omega
  rw [none] at total
  cases total

@[simp] theorem length_fmtRecordStore (r : RecordHeader) (payload : Bytes) :
    (fmtRecordStore r payload).length = recordHeaderSize := rfl

@[simp] theorem length_endOfBlocks : endOfBlocks.length = recordHeaderSize := rfl

/-- The part of `xq_encoder_finish` behind the sentinel. -/
def Encoder.finishIndexed (e : Encoder) : XqStatus × Encoder :=
  let nblocks := e.idx.length - 1
  if nblocks > 0 then
    andThen (e.finishIndex nblocks) fun e' =>
      e'.finishFooter e.fileOffset
        (recordHeaderSize + (fmtIndexPayloadSize (UInt64.ofNat nblocks)).toNat)
  else e.finishFooter 0 0

theorem Encoder.finishTail_eq (e : Encoder) :
    e.finishTail = andThen (e.emit endOfBlocks) fun e' =>
      andThen (e'.pushed e.fileOffset e'.rawOffset) Encoder.finishIndexed := by
  -- The sentinel is an entry like any other.
  rw [Encoder.finishTail]
  refine congrArg (andThen _) (funext fun e' => ?_)
  rw [Encoder.pushed]
  rcases e'.idxPush e.fileOffset e'.rawOffset with ⟨st, next⟩
  cases st
  all_goals rfl

theorem Encoder.finishFooter_emits {e : Encoder} (good : e.sticky = .ok)
    (indexOffset indexSize : Nat) :
    e.Emits (fmtFooterStore
      { indexOffset := UInt64.ofNat indexOffset, indexSize := UInt64.ofNat indexSize,
        streamChecksum := if e.p.checksum ≠ .none then xxh64Final e.streamCk else 0 })
      e.books (e.finishFooter indexOffset indexSize) := by
  -- Marking the encoder as finished touches nothing that an emission speaks of.
  rw [Encoder.finishFooter, ← List.append_nil (fmtFooterStore _)]
  have footer := Encoder.emit_emits good (fmtFooterStore
    { indexOffset := UInt64.ofNat indexOffset, indexSize := UInt64.ofNat indexSize,
      streamChecksum := if e.p.checksum ≠ .none then xxh64Final e.streamCk else 0 })
  refine footer.andThen fun fine => ?_
  have books := (footer.done fine).2.2
  have nothing := Encoder.Emits.nothing (footer.sticky.trans fine)
  rw [← books]
  exact ⟨nothing.setup, nothing.sticky, nothing.done, nothing.part, nothing.answers,
    nothing.memory, nothing.indexed⟩

/-- The encoder has written the blocks of a container, and nothing behind them. -/
structure Encoder.BehindBlocks (e : Encoder) (c : Container) : Prop where
  fileOffset : e.fileOffset = c.position c.blocks.length
  idx : e.idx = blockEntries c.front.length c.blocks
  rawOffset : e.rawOffset = c.rawSize
  streamChecksum : c.streamChecksum =
    if e.p.checksum ≠ .none then xxh64Final e.streamCk else 0

theorem length_blockEntries (position : Nat) (blocks : List FileBlock) :
    (blockEntries position blocks).length = blocks.length := by
  -- The induction is on the blocks.
  induction blocks generalizing position with
  | nil => rfl
  | cons b rest ih => rw [blockEntries, List.length_cons, List.length_cons, ih]

theorem Container.length_entries (c : Container) : c.entries.length = c.blocks.length + 1 := by
  rw [Container.entries, List.length_append, length_blockEntries, List.length_singleton]

theorem Container.length_indexPayload (c : Container) :
    c.indexPayload.length = indexPreambleSize + indexEntrySize * (c.blocks.length + 1) := by
  -- There is an entry for each block, and the sentinel.
  rw [Container.indexPayload, List.length_append, length_fmtIndexPreambleStore,
    length_entriesStore, Container.length_entries]

theorem fmtRecordBody_index (size : UInt64) :
    fmtRecordBody { tag := recIndex, rflags := 0, size := size, crc32c := 0 } =
      indexRecordBody size := rfl

/-- The index of a container, emitted behind its END_OF_BLOCKS record. -/
theorem Encoder.finishIndex_emits {e : Encoder} {c : Container} (good : e.sticky = .ok)
    (indexed : e.Indexed) (fileOffset : e.fileOffset = c.endPosition) (idx : e.idx = c.entries)
    (rawOffset : e.rawOffset = c.rawSize) :
    e.Emits (c.indexRecord ++ c.indexPayload) e.books (e.finishIndex c.blocks.length) := by
  rw [Encoder.finishIndex]
  -- A size that does not fit 64 bits is reported before anything is emitted.
  by_cases huge : fmtIndexPayloadSize (UInt64.ofNat c.blocks.length) = 0
  · rw [if_pos huge]
    exact .failing (by decide) _ _
  rw [if_neg huge]
  have few : c.blocks.length < 2 ^ 60 := by
    have length := congrArg List.length idx
    have := indexed.1
    have := indexed.2
    rw [Container.length_entries] at length
    omega
  -- The size field is the length of the payload.
  have size := fmtIndexPayloadSize_eq few huge
  rw [← Container.length_indexPayload] at size
  have field : fmtIndexPayloadSize (UInt64.ofNat c.blocks.length) =
      UInt64.ofNat c.indexPayload.length := by
    rw [← size, UInt64.ofNat_toNat]
  have preamble : fmtIndexPreambleStore
      { blockCount := UInt64.ofNat c.blocks.length, totalRaw := UInt64.ofNat e.rawOffset,
        totalStored := UInt64.ofNat (e.fileOffset - fileHeaderSize) } =
        fmtIndexPreambleStore c.preamble := by
    rw [rawOffset, fileOffset]
    rfl
  have chunks := indexChunks_flatten e.idx.length e.idx le_rfl
  dsimp only
  rw [preamble, crc32c_pieces, chunks, ← crc32cUpdate_append, field]
  have payload : fmtIndexPreambleStore c.preamble ++ e.idx.flatMap fmtIndexEntryStore =
      c.indexPayload := by
    rw [idx]
    rfl
  have some_byte : UInt64.ofNat c.indexPayload.length ≠ 0 := by
    rw [← field]
    exact huge
  -- The checksum taken in pieces is that of the whole payload.
  have record : indexRecordBody (UInt64.ofNat c.indexPayload.length) ++
      st32le (crc32cUpdate (crc32c (indexRecordBody (UInt64.ofNat c.indexPayload.length)))
        (fmtIndexPreambleStore c.preamble ++ e.idx.flatMap fmtIndexEntryStore)) =
          c.indexRecord := by
    rw [payload, Container.indexRecord, fmtRecordStore]
    dsimp only
    rw [if_pos some_byte, ← field, size, List.take_length, fmtRecordBody_index]
  rw [record, ← payload, idx, Container.indexRecord]
  -- The record header, the preamble and the entries, each behind a success.
  have headed := Encoder.emit_emits good c.indexRecord
  rw [← Container.indexRecord]
  refine headed.andThen fun fine => ?_
  have second := Encoder.emit_emits (headed.sticky.trans fine) (fmtIndexPreambleStore c.preamble)
  refine second.andThen fun fine' => ?_
  have third := Encoder.emitAll_emits (second.sticky.trans fine')
    (indexChunks c.entries.length c.entries)
  rw [indexChunks_flatten _ _ le_rfl, (second.done fine').2.2, (headed.done fine).2.2] at third
  exact third

/-- The end of a file: END_OF_BLOCKS, the index when there are blocks, and the footer. -/
theorem Encoder.finishTail_emits {e : Encoder} {c : Container} (good : e.sticky = .ok)
    (indexed : e.Indexed) (behind : e.BehindBlocks c) :
    e.Emits (endOfBlocks ++ (c.index ++ fmtFooterStore c.footer))
      { e.books with idx := c.entries } e.finishTail := by
  rw [Encoder.finishTail_eq]
  -- The END_OF_BLOCKS record.
  have ended := Encoder.emit_emits good endOfBlocks
  refine ended.andThen fun fine => ?_
  generalize e.emit endOfBlocks = r₁ at ended fine
  obtain ⟨st₁, e₁⟩ := r₁
  obtain rfl : st₁ = .ok := fine
  have offset₁ : e₁.fileOffset = c.endPosition := by
    rw [(ended.done rfl).2.1, behind.fileOffset, length_endOfBlocks, Container.endPosition]
  have books₁ : e₁.books = e.books := (ended.done rfl).2.2
  have raw₁ : e₁.rawOffset = c.rawSize :=
    (congrArg Books.rawOffset books₁).trans behind.rawOffset
  -- The sentinel of the index, whose entry names where the blocks end.
  have pushed := Encoder.pushed_emits ended.sticky e.fileOffset e₁.rawOffset
  rw [← List.nil_append (c.index ++ fmtFooterStore c.footer)]
  refine pushed.andThen fun fine => ?_
  dsimp only at fine ⊢
  generalize e₁.pushed e.fileOffset e₁.rawOffset = r₂ at pushed fine
  obtain ⟨st₂, e₂⟩ := r₂
  obtain rfl : st₂ = .ok := fine
  obtain ⟨_, offset₂, books₂⟩ := pushed.done rfl
  have end₂ : e₂.fileOffset = c.endPosition := offset₂.trans offset₁
  have idx₂ : e₂.idx = c.entries := by
    have idx₁ : e₁.idx = e.idx := congrArg Books.idx books₁
    have := congrArg Books.idx books₂
    rw [raw₁, behind.fileOffset] at this
    show e₂.books.idx = c.entries
    rw [this]
    show e₁.idx ++ _ = _
    rw [idx₁, behind.idx]
    rfl
  have raw₂ : e₂.rawOffset = c.rawSize := (congrArg Books.rawOffset books₂).trans raw₁
  have all : e₂.books = { e.books with idx := c.entries } := by
    rw [books₂, ← idx₂, ← books₁]
    exact congrArg (fun idx => ({ e₁.books with idx := idx } : Books))
      (congrArg Books.idx books₂).symm
  -- Neither touches the checksum of the stream.
  have state₂ : e₂.streamCk = e.streamCk := congrArg Books.streamCk all
  have params₂ : e₂.p = e.p := congrArg Setup.p (pushed.setup.trans ended.setup)
  have checksum : (if e₂.p.checksum ≠ .none then xxh64Final e₂.streamCk else 0) =
      c.streamChecksum := by
    rw [params₂, state₂, behind.streamChecksum]
  have count : e₂.idx.length - 1 = c.blocks.length := by
    rw [idx₂, Container.length_entries, Nat.add_sub_cancel]
  have good₂ : e₂.sticky = .ok := pushed.sticky
  have indexed₂ : e₂.Indexed := pushed.indexed (ended.indexed indexed)
  rw [← all, Encoder.finishIndexed]
  dsimp only
  rw [count]
  by_cases none : c.blocks = []
  · -- Without blocks the footer points nowhere.
    have nothing : ¬ c.blocks.length > 0 := by
      rw [none]
      decide
    have empty : c.index = [] := by rw [Container.index, if_pos none]
    have footer : c.footer =
        { indexOffset := UInt64.ofNat 0, indexSize := UInt64.ofNat 0,
          streamChecksum := c.streamChecksum } := by
      rw [Container.footer, if_pos none, empty]
      rfl
    have last := Encoder.finishFooter_emits good₂ 0 0
    rw [checksum, ← footer] at last
    rw [if_neg nothing, empty, List.nil_append]
    exact last
  · -- With blocks the index comes first, and the footer points at it.
    rw [if_pos (List.length_pos_iff.mpr none)]
    have whole : c.index = c.indexRecord ++ c.indexPayload := by rw [Container.index, if_neg none]
    have index := Encoder.finishIndex_emits good₂ indexed₂
      end₂ idx₂ raw₂
    rw [whole]
    refine index.andThen fun fine => ?_
    -- A success says that the size of the payload is a 64-bit number.
    have size : (fmtIndexPayloadSize (UInt64.ofNat c.blocks.length)).toNat =
        c.indexPayload.length := by
      have few : c.blocks.length < 2 ^ 60 := by
        have := indexed₂.1
        have := indexed₂.2
        omega
      have fits : fmtIndexPayloadSize (UInt64.ofNat c.blocks.length) ≠ 0 := by
        intro huge
        rw [Encoder.finishIndex, if_pos huge] at fine
        cases fine
      rw [fmtIndexPayloadSize_eq few fits, Container.length_indexPayload]
    have footer : c.footer =
        { indexOffset := UInt64.ofNat e₂.fileOffset
          indexSize := UInt64.ofNat (recordHeaderSize +
            (fmtIndexPayloadSize (UInt64.ofNat c.blocks.length)).toNat)
          streamChecksum := c.streamChecksum } := by
      rw [Container.footer, if_neg none, whole, List.length_append, size, Container.indexRecord,
        length_fmtRecordStore, end₂]
    generalize e₂.finishIndex c.blocks.length = r₃ at index fine
    obtain ⟨st₃, e₃⟩ := r₃
    obtain rfl : st₃ = .ok := fine
    have books₃ : e₃.books = e₂.books := (index.done rfl).2.2
    have state₃ : e₃.streamCk = e₂.streamCk := congrArg Books.streamCk books₃
    have params₃ : e₃.p = e₂.p := congrArg Setup.p index.setup
    have last := Encoder.finishFooter_emits index.sticky e₂.fileOffset
      (recordHeaderSize + (fmtIndexPayloadSize (UInt64.ofNat c.blocks.length)).toNat)
    rw [params₃, state₃, checksum, ← footer, books₃] at last
    exact last

end Tail

section Finished

/-- A property of encoders that both steps keep is kept by the one after the other. -/
theorem andThen_keeps {σ : Type} {P : σ → Prop} {r : XqStatus × σ} {next : σ → XqStatus × σ}
    (first : P r.2) (rest : ∀ s, P s → P (next s).2) : P (andThen r next).2 := by
  -- Whether the second step is made or not, the property holds behind it.
  by_cases good : r.1 = .ok
  · rw [andThen, if_pos good]
    exact rest _ first
  · rwa [andThen_failed good]

theorem andThen_eq_ok {σ : Type} {r : XqStatus × σ} {next : σ → XqStatus × σ} {s : σ} :
    andThen r next = (.ok, s) ↔ ∃ m, r = (.ok, m) ∧ next m = (.ok, s) := by
  obtain ⟨st, m⟩ := r
  constructor
  · intro done
    by_cases good : st = .ok
    · subst good
      exact ⟨m, rfl, done⟩
    · rw [andThen_failed good] at done
      exact (good (Prod.mk.inj done).1).elim
  · rintro ⟨m', here, done⟩
    obtain ⟨rfl, rfl⟩ := Prod.mk.inj here
    exact done

variable {b : Bool}

theorem Encoder.emit_finished {e : Encoder} (same : e.finished = b) (buf : Bytes) :
    (e.emit buf).2.finished = b := by
  -- A sink call does not touch the flag.
  unfold Encoder.emit
  split
  · exact same
  · dsimp only
    split
    all_goals exact same

theorem Encoder.pushed_finished {e : Encoder} (same : e.finished = b) (fileOff rawOff : Nat) :
    (e.pushed fileOff rawOff).2.finished = b := by
  -- Growing the array is the only branching step.
  have grown : e.idxGrow.2.finished = b := by
    unfold Encoder.idxGrow
    split
    · dsimp only
      generalize (if e.idxCap ≠ 0 then e.idxCap * 2 else 1024) = ncap
      split
      · exact same
      · split
        all_goals exact same
    · exact same
  have pushed : (e.idxPush fileOff rawOff).2.finished = b :=
    andThen_keeps (P := (Encoder.finished · = b)) grown fun _ kept => kept
  rw [Encoder.pushed]
  generalize e.idxPush fileOff rawOff = r at pushed
  obtain ⟨st, next⟩ := r
  cases st
  all_goals exact pushed

/-- Only the footer finishes an encoder. -/
theorem Encoder.emitJob_finished {e : Encoder} (same : e.finished = b) (j : EncJob) :
    (e.emitJob j).2.finished = b := by
  -- Each of the sink calls keeps the flag, whether it succeeds or fails.
  by_cases good : e.sticky = .ok
  · by_cases made : j.st = .ok
    · rw [Encoder.emitJob_eq good made]
      refine andThen_keeps (P := (Encoder.finished · = b)) (Encoder.pushed_finished same _ _)
        fun e₁ kept₁ => ?_
      refine andThen_keeps (P := (Encoder.finished · = b)) (Encoder.emit_finished kept₁ _)
        fun e₂ kept₂ => ?_
      refine andThen_keeps (P := (Encoder.finished · = b)) (Encoder.emit_finished kept₂ _)
        fun e₃ kept₃ => ?_
      refine andThen_keeps (P := (Encoder.finished · = b)) ?_ fun e₄ kept₄ => kept₄
      split
      · exact Encoder.emit_finished kept₃ _
      · exact kept₃
    · rw [Encoder.emitJob, if_neg (not_not.mpr good), if_pos made]
      exact same
  · rw [Encoder.emitJob, if_pos good]
    exact same

theorem Encoder.feed_finished {e : Encoder} (same : e.finished = b) (jobs : List EncJob) :
    (Encoder.feed jobs e).2.finished = b := by
  -- The induction is on the jobs.
  induction jobs generalizing e with
  | nil => exact same
  | cons j rest ih =>
    rw [Encoder.feed]
    exact andThen_keeps (P := (Encoder.finished · = b)) (Encoder.emitJob_finished same j)
      fun _ kept => ih kept

theorem Encoder.emitAll_finished {e : Encoder} (same : e.finished = b) (chunks : List Bytes) :
    (Encoder.emitAll chunks e).2.finished = b := by
  -- The induction is on the pieces.
  induction chunks generalizing e with
  | nil => exact same
  | cons chunk rest ih =>
    rw [Encoder.emitAll]
    exact andThen_keeps (P := (Encoder.finished · = b)) (Encoder.emit_finished same chunk)
      fun _ kept => ih kept

theorem Encoder.finishIndex_finished {e : Encoder} (same : e.finished = b) (nblocks : Nat) :
    (e.finishIndex nblocks).2.finished = b := by
  -- The index is emitted by sink calls alone.
  unfold Encoder.finishIndex
  dsimp only
  split
  · exact same
  · refine andThen_keeps (P := (Encoder.finished · = b)) (Encoder.emit_finished same _) fun _ kept => ?_
    exact andThen_keeps (P := (Encoder.finished · = b)) (Encoder.emit_finished kept _) fun _ kept =>
      Encoder.emitAll_finished kept _

/-- A conclusion that leaves the encoder finished exactly when it succeeds. -/
def Encoder.Concluded (r : XqStatus × Encoder) : Prop := r.2.finished = decide (r.1 = .ok)

theorem Encoder.finishFooter_finished {e : Encoder} (same : e.finished = false)
    (indexOffset indexSize : Nat) :
    Encoder.Concluded (e.finishFooter indexOffset indexSize) := by
  -- The flag is set behind the sink call, and only where that succeeds.
  rw [Encoder.Concluded, Encoder.finishFooter]
  have kept := Encoder.emit_finished same (fmtFooterStore
    { indexOffset := UInt64.ofNat indexOffset, indexSize := UInt64.ofNat indexSize,
      streamChecksum := if e.p.checksum ≠ .none then xxh64Final e.streamCk else 0 })
  generalize e.emit (fmtFooterStore
    { indexOffset := UInt64.ofNat indexOffset, indexSize := UInt64.ofNat indexSize,
      streamChecksum := if e.p.checksum ≠ .none then xxh64Final e.streamCk else 0 }) = r at kept
  by_cases good : r.1 = .ok
  · rw [andThen, if_pos good]
    rfl
  · rw [andThen_failed good, kept, decide_eq_false good]

/-- What holds of the result of both outcomes of a first step holds behind the second. -/
theorem andThen_cases {σ : Type} {P : XqStatus × σ → Prop} {r : XqStatus × σ}
    {next : σ → XqStatus × σ} (failed : r.1 ≠ .ok → P r) (rest : r.1 = .ok → P (next r.2)) :
    P (andThen r next) := by
  -- The first step decides which of the two it is.
  by_cases good : r.1 = .ok
  · rw [andThen, if_pos good]
    exact rest good
  · rw [andThen_failed good]
    exact failed good

/-- The tail of a file finishes the encoder exactly when it succeeds. -/
theorem Encoder.finishTail_finished {e : Encoder} (same : e.finished = false) :
    Encoder.Concluded e.finishTail := by
  have failing {r : XqStatus × Encoder} (kept : r.2.finished = false) (failed : r.1 ≠ .ok) :
      Encoder.Concluded r := by
    rw [Encoder.Concluded, kept, decide_eq_false failed]
  rw [Encoder.finishTail_eq]
  have kept₁ := Encoder.emit_finished same endOfBlocks
  -- A step that fails leaves the flag down.
  refine andThen_cases (P := Encoder.Concluded) (failing kept₁) fun _ => ?_
  have kept₂ := Encoder.pushed_finished kept₁ e.fileOffset (e.emit endOfBlocks).2.rawOffset
  refine andThen_cases (P := Encoder.Concluded) (failing kept₂) fun _ => ?_
  unfold Encoder.finishIndexed
  dsimp only
  split
  · have kept₃ := Encoder.finishIndex_finished kept₂
      (((e.emit endOfBlocks).2.pushed e.fileOffset (e.emit endOfBlocks).2.rawOffset).2.idx.length
        - 1)
    exact andThen_cases (P := Encoder.Concluded) (failing kept₃)
      fun _ => Encoder.finishFooter_finished kept₃ _ _
  · exact Encoder.finishFooter_finished kept₂ _ _

/-- The tail of a file leaves its status behind, whatever it comes to. -/
theorem Encoder.finishTail_sticky {e : Encoder} (good : e.sticky = .ok) :
    e.finishTail.2.sticky = e.finishTail.1 := by
  -- Every step on the way does, and goes on only after a success.
  have step {r : XqStatus × Encoder} {next : Encoder → XqStatus × Encoder}
      (first : r.2.sticky = r.1)
    (rest : ∀ e : Encoder, e.sticky = .ok → (next e).2.sticky = (next e).1) :
      (Xq.andThen r next).2.sticky = (Xq.andThen r next).1 :=
    andThen_cases (P := fun r => r.2.sticky = r.1) (fun _ => first)
      fun fine => rest r.2 (first.trans fine)
  have footer (e : Encoder) (good : e.sticky = .ok) (indexOffset indexSize : Nat) :
      (e.finishFooter indexOffset indexSize).2.sticky =
        (e.finishFooter indexOffset indexSize).1 :=
    (Encoder.finishFooter_emits good indexOffset indexSize).sticky
  have index (e : Encoder) (good : e.sticky = .ok) (nblocks : Nat) :
      (e.finishIndex nblocks).2.sticky = (e.finishIndex nblocks).1 := by
    unfold Encoder.finishIndex
    dsimp only
    split
    · rfl
    · refine step (Encoder.emit_emits good _).sticky fun e₁ good₁ => ?_
      exact step (Encoder.emit_emits good₁ _).sticky fun e₂ good₂ =>
        (Encoder.emitAll_emits good₂ _).sticky
  rw [Encoder.finishTail_eq]
  refine step (Encoder.emit_emits good _).sticky fun e₁ good₁ => ?_
  refine step (Encoder.pushed_emits good₁ _ _).sticky fun e₂ good₂ => ?_
  unfold Encoder.finishIndexed
  dsimp only
  split
  · exact step (index e₂ good₂ _) fun e₃ good₃ => footer e₃ good₃ _ _
  · exact footer e₂ good₂ 0 0

end Finished

end Xq
