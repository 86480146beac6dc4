import Xq.Proofs.Core.EncoderThreads

/-! The file a finished run has emitted: its sections are those of a container, in both encoders. -/

namespace Xq

open Lib

section Containers

variable {zstd : Option CodecVt} {sink : Nat → Bytes → Bytes → XqStatus} {p : XqParams}
  {rawSizeHint : UInt64} {e : Encoder} {record : Option FileDict}

/-- The container that jobs make up behind the header and the dictionary of an encoder. -/
def Encoder.container (e : Encoder) (rawSizeHint : UInt64) (record : Option FileDict)
    (jobs : List EncJob) : Container :=
  { header := e.fileHeader rawSizeHint, dict := record, blocks := e.fileBlocks 0 jobs
    rawSize := (jobs.map fun j => j.raw.length).sum
    streamChecksum :=
      if e.p.checksum ≠ .none then
        xxh64Final (jobs.foldl (fun s j => xxh64Update s j.raw) (xxh64Init 0))
      else 0 }

theorem Encoder.Created.front (fresh : e.Created zstd sink p rawSizeHint record)
    (jobs : List EncJob) : (e.container rawSizeHint record jobs).front = e.out := by
  -- A new encoder has emitted its header and its dictionary record.
  rw [fresh.out]
  rfl

/-- All jobs of a container have been fed, and its end is still to come. -/
theorem Encoder.Created.behind (fresh : e.Created zstd sink p rawSizeHint record)
    {jobs : List EncJob} {e' : Encoder} (fed : Encoder.feed jobs e = (.ok, e')) :
    e'.BehindBlocks (e.container rawSizeHint record jobs) ∧
      e'.out = (e.container rawSizeHint record jobs).front ++
        (e.container rawSizeHint record jobs).blockBytes := by
  -- The account of the jobs is that of the container's blocks.
  have themselves : List.Forall₂ (fun j j' : EncJob => j.st = .ok → j = j') jobs jobs :=
    List.forall₂_same.mpr fun _ _ _ => rfl
  have emits := Encoder.feed_emits fresh.sticky themselves
  rw [fed] at emits
  obtain ⟨out, offset, books⟩ := emits.done rfl
  have start : e.rawOffset = 0 := congrArg Books.rawOffset fresh.books
  have empty : e.idx = [] := congrArg Books.idx fresh.books
  have state : e.streamCk = xxh64Init 0 := congrArg Books.streamCk fresh.books
  have params : e'.p = e.p := congrArg Setup.p emits.setup
  have front := fresh.front jobs
  rw [start] at out offset
  dsimp only at out offset
  have all : (e.container rawSizeHint record jobs).blocks.take
      (e.container rawSizeHint record jobs).blocks.length = e.fileBlocks 0 jobs :=
    List.take_length
  refine ⟨⟨?_, ?_, ?_, ?_⟩, ?_⟩
  · rw [offset, fresh.fileOffset, Container.position, all, front]
  · have idx : e'.idx = _ := congrArg Books.idx books
    rw [idx, Encoder.booksFed, empty, start, fresh.fileOffset, front]
    rfl
  · have rawOffset : e'.rawOffset = _ := congrArg Books.rawOffset books
    rw [rawOffset, Encoder.booksFed, start, Nat.zero_add]
    rfl
  · have streamCk : e'.streamCk = _ := congrArg Books.streamCk books
    rw [params, streamCk, Encoder.booksFed, state, Encoder.container]
    dsimp only
    split
    · rfl
    · rfl
  · rw [out, front]
    rfl

/-- What the end of a file plans to emit behind the blocks. -/
def Container.tail (c : Container) : Bytes := endOfBlocks ++ (c.index ++ fmtFooterStore c.footer)

theorem Container.bytes_eq (c : Container) : c.bytes = c.front ++ c.blockBytes ++ c.tail := by
  -- The sections are grouped in another way.
  rw [Container.bytes, Container.body, Container.tail, List.append_assoc, List.append_assoc,
    List.append_assoc]

/-- The end of a file, behind the blocks of a created encoder. -/
theorem Encoder.Created.tail_emits (fresh : e.Created zstd sink p rawSizeHint record)
    {jobs : List EncJob} {e' : Encoder} (fed : Encoder.feed jobs e = (.ok, e')) :
    e'.Emits (e.container rawSizeHint record jobs).tail
      { e'.books with idx := (e.container rawSizeHint record jobs).entries } e'.finishTail := by
  -- The account behind the blocks is the container's.
  have themselves : List.Forall₂ (fun j j' : EncJob => j.st = .ok → j = j') jobs jobs :=
    List.forall₂_same.mpr fun _ _ _ => rfl
  have emits := Encoder.feed_emits fresh.sticky themselves
  rw [fed] at emits
  exact Encoder.finishTail_emits emits.sticky (emits.indexed fresh.indexed) (fresh.behind fed).1

/-- A run that succeeds has emitted the container of its jobs. -/
theorem Encoder.Created.whole (fresh : e.Created zstd sink p rawSizeHint record)
    {jobs : List EncJob} {e' : Encoder}
    (ran : andThen (Encoder.feed jobs e) Encoder.finishTail = (.ok, e')) :
    e'.out = (e.container rawSizeHint record jobs).bytes ∧
      e'.idx = (e.container rawSizeHint record jobs).entries ∧ (∀ j ∈ jobs, j.st = .ok) ∧
      ∀ v ∈ e'.verdicts, v = .ok := by
  -- The tail comes behind the blocks, and every sink call on the way was answered well.
  obtain ⟨e₁, fed, tail⟩ := andThen_eq_ok.mp ran
  have emits := fresh.tail_emits fed
  have themselves : List.Forall₂ (fun j j' : EncJob => j.st = .ok → j = j') jobs jobs :=
    List.forall₂_same.mpr fun _ _ _ => rfl
  have before := Encoder.feed_emits fresh.sticky themselves
  have made := Encoder.feed_made fresh.sticky (congrArg Prod.fst fed)
  rw [tail] at emits
  rw [fed] at before
  obtain ⟨out, _, books⟩ := emits.done rfl
  obtain ⟨answers, verdicts, _, good⟩ := before.answers
  obtain ⟨answers', verdicts', _, good'⟩ := emits.answers
  refine ⟨?_, congrArg Books.idx books, made, ?_⟩
  · rw [Container.bytes_eq, ← (fresh.behind fed).2]
    exact out
  · dsimp only at verdicts verdicts'
    rw [verdicts', verdicts]
    exact List.forall_mem_append.mpr
      ⟨List.forall_mem_append.mpr ⟨fresh.verdicts, good rfl⟩, good' rfl⟩

end Containers

end Xq
