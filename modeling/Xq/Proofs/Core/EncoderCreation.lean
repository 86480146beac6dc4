import Xq.Proofs.Core.Emission
import Xq.Proofs.Format.Parsers

/-! What a new encoder is: its parameters, and the header and dictionary it has already emitted. -/

namespace Xq

/-- How a dictionary is stored: compressed by the file's codec when that is smaller, or plain. -/
inductive DictStored (codec : CodecVt) (level : Int) (d : XqDict) : UInt8 → Bytes → Prop
  | compressed {cctx cctx' : Cctx} {id : UInt8} {stored : Bytes} : id = codec.id →
    codec.compress cctx (codec.bound d.bytes.length) d.bytes level none = ((.ok, stored), cctx') →
    stored.length < d.bytes.length → DictStored codec level d id stored
  | plain : DictStored codec level d 0 d.bytes

/-- The DICT record of a dictionary. -/
inductive DictRecord (codec : CodecVt) (level : Int) : Option XqDict → Option FileDict → Prop
  | none : DictRecord codec level none none
  | some {d : XqDict} {id : UInt8} {stored : Bytes} : d.bytes ≠ [] → codecHasDict codec →
    DictStored codec level d id stored →
    DictRecord codec level (some d)
      (some { head := dictPayloadStore d id stored.length, stored := stored })

/-- A new encoder: nothing but the header and the dictionary has been emitted. -/
structure Encoder.Created (zstd : Option CodecVt) (sink : Nat → Bytes → Bytes → XqStatus)
    (p : XqParams) (rawSizeHint : UInt64) (e : Encoder) (record : Option FileDict) : Prop where
  accepted : paramsCheck (codecAvailable zstd) p = .ok
  codec : codecGet zstd p.codec.id = some e.codec
  sink : e.sink = sink
  params : e.p = p
  blockSize : e.blockSize = p.effectiveBlockSize
  blockSizeLog : e.blockSizeLog = blockSizeLogFor p.effectiveBlockSize
  checksumLen : e.checksumLen = fmtChecksumSize p.checksum.id
  cbufCap : e.cbufCap = e.codec.bound p.effectiveBlockSize
  sticky : e.sticky = .ok
  finished : e.finished = false
  raw : e.raw = []
  out : e.out = fmtHeaderStore (e.fileHeader rawSizeHint) ++ (record.map FileDict.bytes).getD []
  fileOffset : e.fileOffset = e.out.length
  books : e.books = { idx := [], rawOffset := 0, streamCk := xxh64Init 0 }
  indexed : e.Indexed
  dict : DictRecord e.codec p.level e.dict record
  cdict : e.cdict.isSome = e.dict.isSome
  verdicts : ∀ v ∈ e.verdicts, v = .ok

section Creation

variable {e e' : Encoder} {m : Machine}

/-- The steps in front of the first sink call set up contexts, dictionary and workers, and leave
everything else alone. -/
def Encoder.SameStart (e e' : Encoder) : Prop :=
  ∃ cctx cdict dict mt heap,
    e' = { e with cctx := cctx, cdict := cdict, dict := dict, mt := mt, heap := heap }

theorem Encoder.SameStart.trans {e'' : Encoder} (first : e.SameStart e')
    (second : e'.SameStart e'') : e.SameStart e'' := by
  -- What differs from the start differs in the same five fields.
  obtain ⟨_, _, _, _, _, rfl⟩ := first
  obtain ⟨cctx, cdict, dict, mt, heap, rfl⟩ := second
  exact ⟨cctx, cdict, dict, mt, heap, rfl⟩

theorem Encoder.createCctx_ok (made : e.createCctx m = (.ok, e')) :
    e.SameStart e' ∧ e'.dict = e.dict ∧ e'.cdict = e.cdict := by
  -- Only the context is set.
  unfold Encoder.createCctx at made
  split at made
  · cases made
    exact ⟨⟨_, _, _, _, _, rfl⟩, rfl, rfl⟩
  · split at made
    · cases made
    · cases made
      exact ⟨⟨_, _, _, _, _, rfl⟩, rfl, rfl⟩

/-- A dictionary that is taken is not empty, and the codec has one. -/
theorem Encoder.createDict_ok {dict : Option XqDict} (blank : e.dict = none)
    (nothing : e.cdict = none) (made : e.createDict m dict = (.ok, e')) :
    e.SameStart e' ∧ e'.cdict.isSome = e'.dict.isSome ∧
      ∀ d, e'.dict = some d → d.bytes ≠ [] ∧ codecHasDict e.codec := by
  have same : e.SameStart e := ⟨_, _, _, _, _, rfl⟩
  have none : e.cdict.isSome = e.dict.isSome ∧
      ∀ d, e.dict = some d → d.bytes ≠ [] ∧ codecHasDict e.codec := by
    rw [blank, nothing]
    exact ⟨rfl, fun _ absurd => by cases absurd⟩
  unfold Encoder.createDict at made
  split at made
  · -- No dictionary was given.
    cases made
    exact ⟨same, none⟩
  rename_i d
  split at made
  · -- An empty one counts as none.
    cases made
    exact ⟨same, none⟩
  rename_i some_byte
  split at made
  · cases made
  -- A codec without dictionaries refuses it.
  rename_i supported
  split at made
  · cases made
  · cases made
    refine ⟨⟨_, _, _, _, _, rfl⟩, rfl,
      fun d' here => ?_⟩
    obtain rfl := Option.some.inj here
    exact ⟨some_byte, not_not.mp supported⟩

theorem Encoder.createMt_ok (made : e.createMt m = (.ok, e')) :
    e.SameStart e' ∧ e'.dict = e.dict ∧ e'.cdict = e.cdict := by
  -- Only the workers are set, if there are any.
  unfold Encoder.createMt at made
  dsimp only at made
  split at made
  · split at made
    · cases made
    · cases made
      exact ⟨⟨_, _, _, _, _, rfl⟩, rfl, rfl⟩
  · cases made
    exact ⟨⟨_, _, _, _, _, rfl⟩, rfl, rfl⟩

/-- The context a codec starts with; one without contexts has a null one. -/
def CodecVt.freshCctx (codec : CodecVt) (heap : Heap) : Cctx :=
  (codec.cctxNew.map fun cctxNew => cctxNew heap).getD .null

/-- The digest of a dictionary for compression, when the codec makes one. -/
def CodecVt.digest (codec : CodecVt) (heap : Heap) (dict : Option XqDict) : Option Cdict :=
  dict.bind fun d => (codec.cdictNew.map fun cdictNew => (cdictNew heap d.bytes).1).join

theorem Encoder.createCctx_context (null : e.cctx = .null)
    (made : e.createCctx m = (.ok, e')) : e'.cctx = e.codec.freshCctx m.cctxHeap := by
  -- A codec either has no creator or its creator succeeded.
  unfold Encoder.createCctx at made
  rw [CodecVt.freshCctx]
  split at made
  · rename_i absent
    obtain rfl := (Prod.mk.inj made).2
    rw [absent, null]
    rfl
  · rename_i cctxNew present
    split at made
    · cases made
    · obtain rfl := (Prod.mk.inj made).2
      rw [present]
      rfl

theorem Encoder.createDict_context {dict : Option XqDict} (blank : e.dict = none)
    (nothing : e.cdict = none) (made : e.createDict m dict = (.ok, e')) :
    e'.cctx = e.cctx ∧ e'.cdict = e.codec.digest m.cdictHeap e'.dict ∧
      ∀ d, e'.dict = some d → dict = some d := by
  -- Only the last branch sets the dictionary and its digest.
  have none : e.cdict = e.codec.digest m.cdictHeap e.dict ∧ ∀ d, e.dict = some d → dict = some d := by
    rw [blank, nothing]
    exact ⟨rfl, fun _ absurd => by cases absurd⟩
  unfold Encoder.createDict at made
  split at made
  · cases made
    exact ⟨rfl, none⟩
  split at made
  · cases made
    exact ⟨rfl, none⟩
  split at made
  · cases made
  split at made
  · cases made
  · rename_i digested
    cases made
    exact ⟨rfl, digested.symm, fun _ here => here⟩

theorem Encoder.createMt_context (made : e.createMt m = (.ok, e')) : e'.cctx = e.cctx := by
  -- The workers have contexts of their own.
  unfold Encoder.createMt at made
  dsimp only at made
  split at made
  · split at made
    · cases made
    · cases made
      rfl
  · cases made
    rfl

/-- A dictionary that is stored leaves only the context behind. -/
theorem Encoder.storeDict_ok {d : XqDict} {id : UInt8} {stored : Bytes}
    (made : e.storeDict d = (.ok, (id, stored), e')) :
    (∃ cctx, e' = { e with cctx := cctx }) ∧
      ((id = e.p.codec.id ∧ ∃ cctx', e.codec.compress e.cctx (e.codec.bound d.bytes.length) d.bytes
          e.p.level none = ((.ok, stored), cctx') ∧ stored.length < d.bytes.length) ∨
        (id = 0 ∧ stored = d.bytes)) := by
  rcases packed : e.codec.compress e.cctx (e.codec.bound d.bytes.length) d.bytes e.p.level none
    with ⟨⟨st, out⟩, cctx⟩
  simp only [Encoder.storeDict, packed] at made
  split at made
  · -- Compression made it smaller, so it is stored compressed.
    rename_i smaller
    obtain ⟨rfl, smaller⟩ := smaller
    cases made
    exact ⟨⟨cctx, rfl⟩, .inl ⟨rfl, cctx, rfl, smaller⟩⟩
  · -- Otherwise it is stored as it is, unless compression failed.
    split at made
    · rename_i failed
      cases made
      exact (failed.1 rfl).elim
    · cases made
      exact ⟨⟨cctx, rfl⟩, .inr ⟨rfl, rfl⟩⟩

/-- A dictionary record is emitted in three pieces. -/
theorem Encoder.writeDictRecord_ok {d : XqDict} (good : e.sticky = .ok)
    (made : e.writeDictRecord d = (.ok, e')) :
    ∃ id stored base, (∃ heap cctx, base = { e with heap := heap, cctx := cctx }) ∧
      ((id = e.p.codec.id ∧ ∃ cctx', e.codec.compress e.cctx (e.codec.bound d.bytes.length) d.bytes
          e.p.level none = ((.ok, stored), cctx') ∧ stored.length < d.bytes.length) ∨
        (id = 0 ∧ stored = d.bytes)) ∧
      base.Emits (FileDict.bytes { head := dictPayloadStore d id stored.length, stored := stored })
        base.books (.ok, e') := by
  unfold Encoder.writeDictRecord at made
  split at made
  · cases made
  rename_i heap _
  split at made
  · rename_i id stored base store
    obtain ⟨⟨cctx, rfl⟩, how⟩ := Encoder.storeDict_ok store
    refine ⟨id, stored, _, ⟨heap, cctx, rfl⟩, how, ?_⟩
    dsimp only at made
    rw [← made, FileDict.bytes, List.append_assoc]
    dsimp only
    have good' : ({ e with heap := heap, cctx := cctx } : Encoder).sticky = .ok := good
    -- The header of the record, the head of its payload, and the stored bytes.
    have headed := Encoder.emit_emits good' (dictRecordHeader
      (dictPayloadStore d id stored.length) stored)
    refine headed.andThen fun fine => ?_
    have second := Encoder.emit_emits (headed.sticky.trans fine)
      (dictPayloadStore d id stored.length)
    rw [← (headed.done fine).2.2]
    refine second.andThen fun fine' => ?_
    rw [← (second.done fine').2.2]
    exact Encoder.emit_emits (second.sticky.trans fine') stored
  · rename_i failed _
    cases made
    exact (failed _ _ rfl rfl).elim

/-- An encoder at its first sink call. -/
structure Encoder.Started (c : CodecVt) (sink : Nat → Bytes → Bytes → XqStatus) (p : XqParams)
    (e : Encoder) : Prop where
  codec : e.codec = c
  sink : e.sink = sink
  params : e.p = p
  blockSize : e.blockSize = p.effectiveBlockSize
  blockSizeLog : e.blockSizeLog = blockSizeLogFor p.effectiveBlockSize
  checksumLen : e.checksumLen = fmtChecksumSize p.checksum.id
  cbufCap : e.cbufCap = c.bound p.effectiveBlockSize
  sticky : e.sticky = .ok
  finished : e.finished = false
  raw : e.raw = []
  out : e.out = []
  fileOffset : e.fileOffset = 0
  books : e.books = { idx := [], rawOffset := 0, streamCk := xxh64Init 0 }
  indexed : e.Indexed
  verdicts : e.verdicts = []
  dict : ∀ d, e.dict = some d → d.bytes ≠ [] ∧ codecHasDict c
  cdict : e.cdict.isSome = e.dict.isSome

/-- The context, the digest and the dictionary of an encoder at its first sink call. -/
structure Encoder.Prepared (m : Machine) (dict : Option XqDict) (e : Encoder) : Prop where
  cctx : e.cctx = e.codec.freshCctx m.cctxHeap
  cdict : e.cdict = e.codec.digest m.cdictHeap e.dict
  given : ∀ d, e.dict = some d → dict = some d

theorem encoderCreate_started {zstd : Option CodecVt} {sink : Nat → Bytes → Bytes → XqStatus}
    {p : XqParams} {rawSizeHint : UInt64} {dict : Option XqDict}
    (created : encoderCreate zstd m sink p rawSizeHint dict = .ok e) :
    paramsCheck (codecAvailable zstd) p = .ok ∧ ∃ codec, codecGet zstd p.codec.id = some codec ∧
      ∃ start : Encoder, start.Started codec sink p ∧ start.Prepared m dict ∧
        (andThen (start.writeFileHeader rawSizeHint) fun e =>
          match e.dict with
          | none => (.ok, e)
          | some d => e.writeDictRecord d) = (.ok, e) := by
  -- The parameters, the codec and the allocation are checked first, then each part is created in
  -- turn.
  unfold encoderCreate at created
  dsimp only at created
  split at created; · cases created
  rename_i accepted
  split at created; · cases created
  rename_i codec found
  split at created; · cases created
  rename_i heap granted
  split at created; swap; · cases created
  rename_i done
  obtain ⟨a, cctx, done⟩ := andThen_eq_ok.mp (Prod.ext done (Except.ok.inj created))
  obtain ⟨b, digest, done⟩ := andThen_eq_ok.mp done
  obtain ⟨c, workers, done⟩ := andThen_eq_ok.mp done
  obtain ⟨start₁, dict₁, cdict₁⟩ := Encoder.createCctx_ok cctx
  obtain ⟨start₂, digested, kept⟩ := Encoder.createDict_ok dict₁ cdict₁ digest
  obtain ⟨start₃, dict₃, cdict₃⟩ := Encoder.createMt_ok workers
  have context := Encoder.createCctx_context rfl cctx
  obtain ⟨same, digest, given⟩ := Encoder.createDict_context dict₁ cdict₁ digest
  rw [← dict₃, ← cdict₃] at digested digest
  rw [← dict₃] at kept given
  rw [← same, ← Encoder.createMt_context workers] at context
  have codec₁ : a.codec = codec := by
    obtain ⟨_, _, _, _, _, rfl⟩ := start₁
    rfl
  rw [codec₁] at kept digest
  obtain ⟨cctx', cdict', dict', mt', heap', rfl⟩ := (start₁.trans start₂).trans start₃
  -- Creation changes only the contexts, the dictionary and the heap.
  exact ⟨not_not.mp accepted, codec, found, _,
    { codec := rfl, sink := rfl, params := rfl, blockSize := rfl, blockSizeLog := rfl
      checksumLen := rfl, cbufCap := rfl, sticky := rfl, finished := rfl, raw := rfl, out := rfl
      fileOffset := rfl, books := rfl, indexed := ⟨le_rfl, Nat.two_pow_pos 60⟩, verdicts := rfl
      dict := kept, cdict := digested }, ⟨context, digest, given⟩, done⟩

/-- What the header and the dictionary record make of an encoder at its first sink call. -/
theorem Encoder.Started.created {zstd : Option CodecVt} {codec : CodecVt}
    {sink : Nat → Bytes → Bytes → XqStatus} {p : XqParams} {rawSizeHint : UInt64}
    {c d base : Encoder} {record : Option FileDict} (started : c.Started codec sink p)
    (accepted : paramsCheck (codecAvailable zstd) p = .ok)
    (found : codecGet zstd p.codec.id = some codec)
    (first : c.Emits (fmtHeaderStore (c.fileHeader rawSizeHint)) c.books (.ok, d))
    (same : ∃ heap cctx, base = { d with heap := heap, cctx := cctx })
    (recorded : DictRecord codec p.level c.dict record)
    (last : base.Emits ((record.map FileDict.bytes).getD []) base.books (.ok, e))
    (unfinished : e.finished = false) : e.Created zstd sink p rawSizeHint record := by
  obtain ⟨heap₁, cctx₁, rfl⟩ := same
  obtain ⟨out₁, offset₁, books₁⟩ := first.done rfl
  obtain ⟨out₂, offset₂, books₂⟩ := last.done rfl
  obtain ⟨answers₁, verdicts₁, _, good₁⟩ := first.answers
  obtain ⟨answers₂, verdicts₂, _, good₂⟩ := last.answers
  -- The dictionary only changes the context and the heap.
  have setup : e.setup = { c.setup with cctx := e.cctx, grants := e.heap.grants } := by
    have setup₁ : d.setup = c.setup := first.setup
    have setup₂ : e.setup = { d.setup with cctx := cctx₁, grants := heap₁.grants } :=
      last.setup
    have cctx : e.cctx = cctx₁ := congrArg Setup.cctx setup₂
    have grants : e.heap.grants = heap₁.grants := congrArg Setup.grants setup₂
    rw [cctx, grants, ← setup₁, setup₂]
  have codec' : e.codec = c.codec := congrArg Setup.codec setup
  have params : e.p = c.p := congrArg Setup.p setup
  have dict : e.dict = c.dict := congrArg Setup.dict setup
  have cdict : e.cdict = c.cdict := congrArg Setup.cdict setup
  have log : e.blockSizeLog = c.blockSizeLog := congrArg Setup.blockSizeLog setup
  have header : e.fileHeader rawSizeHint = c.fileHeader rawSizeHint := by
    rw [Encoder.fileHeader, Encoder.fileHeader, params, log, dict]
  -- What has been emitted is the header and the record, and the account follows it.
  have outEnd : e.out =
      fmtHeaderStore (e.fileHeader rawSizeHint) ++ (record.map FileDict.bytes).getD [] := by
    calc e.out = d.out ++ (record.map FileDict.bytes).getD [] := out₂
      _ = c.out ++ fmtHeaderStore (c.fileHeader rawSizeHint) ++ _ := by rw [← out₁]
      _ = _ := by rw [started.out, List.nil_append, header]
  have offsetEnd : e.fileOffset = e.out.length := by
    calc e.fileOffset = d.fileOffset + ((record.map FileDict.bytes).getD []).length := offset₂
      _ = c.fileOffset + (fmtHeaderStore (c.fileHeader rawSizeHint)).length + _ := by
        rw [← offset₁]
      _ = _ := by rw [started.fileOffset, Nat.zero_add, outEnd, List.length_append, header]
  have verdictsEnd : e.verdicts = answers₁ ++ answers₂ := by
    calc e.verdicts = d.verdicts ++ answers₂ := verdicts₂
      _ = c.verdicts ++ answers₁ ++ answers₂ := by rw [← verdicts₁]
      _ = _ := by rw [started.verdicts, List.nil_append]
  -- Every field is that of the start, or what the two emissions made of it.
  exact {
    accepted := accepted
    codec := by rw [codec', started.codec, found]
    sink := (congrArg Setup.sink setup).trans started.sink
    params := params.trans started.params
    blockSize := (congrArg Setup.blockSize setup).trans started.blockSize
    blockSizeLog := log.trans started.blockSizeLog
    checksumLen := (congrArg Setup.checksumLen setup).trans started.checksumLen
    cbufCap := by
      rw [codec', started.codec]
      exact (congrArg Setup.cbufCap setup).trans started.cbufCap
    sticky := last.sticky
    finished := unfinished
    raw := (congrArg Setup.raw setup).trans started.raw
    out := outEnd
    fileOffset := offsetEnd
    books := books₂.trans (books₁.trans started.books)
    indexed := last.indexed (first.indexed started.indexed)
    dict := by
      rw [codec', started.codec, dict]
      exact recorded
    cdict := by rw [cdict, dict, started.cdict]
    verdicts := by
      rw [verdictsEnd]
      exact List.forall_mem_append.mpr ⟨good₁ rfl, good₂ rfl⟩ }

theorem Encoder.writeDictRecord_finished {b : Bool} (same : e.finished = b) (d : XqDict) :
    (e.writeDictRecord d).2.finished = b := by
  -- The record is emitted by sink calls alone, and those keep the flag.
  unfold Encoder.writeDictRecord
  split
  · exact same
  rename_i heap _
  have stored : (Encoder.storeDict { e with heap := heap } d).2.2.finished = b := by
    unfold Encoder.storeDict
    dsimp only
    split
    · exact same
    · split
      all_goals exact same
  generalize Encoder.storeDict { e with heap := heap } d = r at stored
  split
  · refine andThen_keeps (P := (Encoder.finished · = b)) (Encoder.emit_finished stored _)
      fun _ kept => ?_
    exact andThen_keeps (P := (Encoder.finished · = b)) (Encoder.emit_finished kept _)
      fun _ kept => Encoder.emit_finished kept _
  · exact stored

/-- How the dictionary of an encoder is digested, and how its record has been packed. -/
structure Encoder.Packed (m : Machine) (dict : Option XqDict) (e : Encoder)
    (record : Option FileDict) : Prop where
  digest : e.cdict = e.codec.digest m.cdictHeap e.dict
  given : ∀ d, e.dict = some d → dict = some d
  stored : ∀ d r, e.dict = some d → record = some r → ∃ id,
    r.head = dictPayloadStore d id r.stored.length ∧
      (id = e.codec.id ∧ r.stored.length < d.bytes.length ∧
          (e.codec.compress (e.codec.freshCctx m.cctxHeap) (e.codec.bound d.bytes.length) d.bytes
            e.p.level none).1 = (.ok, r.stored) ∨
        id = 0 ∧ r.stored = d.bytes)

/-- A successful creation, with what becomes of the dictionary. -/
theorem encoderCreate_packed {zstd : Option CodecVt} {sink : Nat → Bytes → Bytes → XqStatus}
    {p : XqParams} {rawSizeHint : UInt64} {dict : Option XqDict}
    (created : encoderCreate zstd m sink p rawSizeHint dict = .ok e) :
    ∃ record, e.Created zstd sink p rawSizeHint record ∧ e.Packed m dict record := by
  obtain ⟨accepted, codec, found, c, started, prepared, done⟩ := encoderCreate_started created
  obtain ⟨d, headed, done⟩ := andThen_eq_ok.mp done
  have first := Encoder.emit_emits started.sticky (fmtHeaderStore (c.fileHeader rawSizeHint))
  have open_ := Encoder.emit_finished started.finished (fmtHeaderStore (c.fileHeader rawSizeHint))
  rw [Encoder.writeFileHeader] at headed
  rw [headed] at first open_
  have setup : d.setup = c.setup := first.setup
  have dict' : d.dict = c.dict := congrArg Setup.dict setup
  have params : d.p = c.p := congrArg Setup.p setup
  have codec' : d.codec = c.codec := congrArg Setup.codec setup
  have cdict : d.cdict = c.cdict := congrArg Setup.cdict setup
  have context : d.cctx = c.cctx := congrArg Setup.cctx setup
  have same_id : codec.id = p.codec.id := by
    have := List.find?_some found
    exact of_decide_eq_true this
  rw [dict'] at done
  cases given : c.dict with
  | none =>
    -- Without a dictionary the header is all that is emitted.
    rw [given] at done
    obtain rfl := (Prod.mk.inj done).2
    refine ⟨none, started.created accepted found first ⟨_, _, rfl⟩ (given ▸ .none)
      (.nothing first.sticky) open_, ⟨?_, ?_, fun _ _ _ absent => by cases absent⟩⟩
    · rw [cdict, codec', dict', prepared.cdict]
    · rw [dict']
      exact prepared.given
  | some dictionary =>
    rw [given] at done
    obtain ⟨some_byte, supported⟩ := started.dict dictionary given
    have written : d.writeDictRecord dictionary = (.ok, e) := done
    have sticky : d.sticky = .ok := first.sticky
    have closed : (d.writeDictRecord dictionary).2.finished = false :=
      Encoder.writeDictRecord_finished open_ dictionary
    obtain ⟨id, stored, base, same, how, last⟩ := Encoder.writeDictRecord_ok sticky written
    rw [written] at closed
    rw [params, codec', started.params, started.codec, context, prepared.cctx, started.codec]
      at how
    -- The record holds the dictionary compressed, or as it is.
    have record : DictStored codec p.level dictionary id stored := by
      rcases how with ⟨named, cctx', packed, smaller⟩ | ⟨rfl, rfl⟩
      · exact .compressed (named.trans same_id.symm) packed smaller
      · exact .plain
    -- The record changes neither the codec nor the dictionary.
    have kept : e.codec = codec ∧ e.p = p ∧ e.dict = some dictionary ∧ e.cdict = c.cdict := by
      obtain ⟨heap, cctx, rfl⟩ := same
      have setup' := last.setup
      exact ⟨(congrArg Setup.codec setup').trans (codec'.trans started.codec),
        (congrArg Setup.p setup').trans (params.trans started.params),
        (congrArg Setup.dict setup').trans (dict'.trans given),
        (congrArg Setup.cdict setup').trans cdict⟩
    obtain ⟨codec₁, params₁, dict₁, cdict₁⟩ := kept
    refine ⟨some { head := dictPayloadStore dictionary id stored.length, stored := stored },
      started.created accepted found first same ?_ last closed, ⟨?_, ?_, ?_⟩⟩
    · rw [given]
      exact .some some_byte supported record
    · rw [cdict₁, codec₁, dict₁, prepared.cdict, started.codec, given]
    · rw [dict₁, ← given]
      exact prepared.given
    · intro d' r here there
      obtain rfl := Option.some.inj there
      obtain rfl := Option.some.inj (dict₁.symm.trans here)
      refine ⟨id, rfl, ?_⟩
      rw [codec₁, params₁]
      rcases how with ⟨named, cctx', packed, smaller⟩ | plain
      · exact .inl ⟨named.trans same_id.symm, smaller, congrArg Prod.fst packed⟩
      · exact .inr plain

/-- A successful creation. -/
theorem encoderCreate_ok {zstd : Option CodecVt} {sink : Nat → Bytes → Bytes → XqStatus}
    {p : XqParams} {rawSizeHint : UInt64} {dict : Option XqDict}
    (created : encoderCreate zstd m sink p rawSizeHint dict = .ok e) :
    ∃ record, e.Created zstd sink p rawSizeHint record := by
  -- What becomes of the dictionary is left out.
  obtain ⟨record, fresh, _⟩ := encoderCreate_packed created
  exact ⟨record, fresh⟩

end Creation

section Context

variable {e e' : Encoder} {m : Machine} {Good : Cctx → Prop}

/-- Storing a dictionary takes one use of the context. -/
theorem Encoder.storeDict_state (e : Encoder) (d : XqDict) :
    (e.storeDict d).2.2 = { e with
      cctx := (e.codec.compress e.cctx (e.codec.bound d.bytes.length) d.bytes e.p.level none).2 } := by
  -- The dictionary is compressed once, whatever is stored in the end.
  rcases packed : e.codec.compress e.cctx (e.codec.bound d.bytes.length) d.bytes e.p.level none
    with ⟨⟨st, out⟩, cctx⟩
  simp only [Encoder.storeDict, packed]
  split
  · rfl
  · split
    all_goals rfl

/-- A dictionary record leaves the context as compression leaves it. -/
theorem Encoder.writeDictRecord_context {d : XqDict}
    (keeps : ∀ c cap level, Good c → Good (e.codec.compress c cap d.bytes level none).2)
    (good : Good e.cctx) (sticky : e.sticky = .ok) (made : e.writeDictRecord d = (.ok, e')) :
    Good e'.cctx := by
  unfold Encoder.writeDictRecord at made
  split at made
  · cases made
  rename_i heap _
  have state := Encoder.storeDict_state { e with heap := heap } d
  split at made
  · rename_i id stored base store
    rw [store] at state
    dsimp only at state made
    have context : Good base.cctx := by
      rw [state]
      exact keeps _ _ _ good
    have open_ : base.sticky = .ok := by
      rw [state]
      exact sticky
    obtain ⟨first, headed, made⟩ := andThen_eq_ok.mp made
    obtain ⟨second, named, made⟩ := andThen_eq_ok.mp made
    -- A sink call leaves the context alone.
    have same (a b : Encoder) (buf : Bytes) (good : a.sticky = .ok)
        (emitted : a.emit buf = (.ok, b)) : b.cctx = a.cctx ∧ b.sticky = .ok := by
      have emits := Encoder.emit_emits good buf
      rw [emitted] at emits
      exact ⟨congrArg Setup.cctx emits.setup, emits.sticky⟩
    obtain ⟨context₁, good₁⟩ := same _ _ _ open_ headed
    obtain ⟨context₂, good₂⟩ := same _ _ _ good₁ named
    obtain ⟨context₃, _⟩ := same _ _ _ good₂ made
    rw [context₃, context₂, context₁]
    exact context
  · rename_i failed _
    cases made
    exact (failed _ _ rfl rfl).elim

/-- The context of a new encoder: a fresh one, or one that has compressed the dictionary. -/
theorem encoderCreate_cctx {zstd : Option CodecVt} {codec : CodecVt}
    {sink : Nat → Bytes → Bytes → XqStatus} {p : XqParams} {rawSizeHint : UInt64}
    {dict : Option XqDict} (found : codecGet zstd p.codec.id = some codec)
    (fresh : Good (codec.freshCctx m.cctxHeap))
    (created : encoderCreate zstd m sink p rawSizeHint dict = .ok e)
    (keeps : ∀ d, e.dict = some d → ∀ c cap level, Good c →
      Good (codec.compress c cap d.bytes level none).2) : Good e.cctx := by
  obtain ⟨_, codec', found', c, started, prepared, done⟩ := encoderCreate_started created
  obtain rfl := Option.some.inj (found.symm.trans found')
  obtain ⟨d, headed, done⟩ := andThen_eq_ok.mp done
  have good : Good c.cctx := by
    rw [prepared.cctx, started.codec]
    exact fresh
  have emits := Encoder.emit_emits started.sticky (fmtHeaderStore (c.fileHeader rawSizeHint))
  rw [Encoder.writeFileHeader] at headed
  rw [headed] at emits
  have good' : Good d.cctx := by
    have same : d.cctx = c.cctx := congrArg Setup.cctx emits.setup
    rwa [same]
  have codec' : d.codec = codec := (congrArg Setup.codec emits.setup).trans started.codec
  have sticky : d.sticky = .ok := emits.sticky
  split at done
  · obtain ⟨_, rfl⟩ := Prod.mk.inj done
    exact good'
  · rename_i dictionary given
    -- The record does not change which dictionary the encoder has.
    have kept : e.dict = some dictionary := by
      obtain ⟨id, stored, base, ⟨heap, cctx, rfl⟩, _, last⟩ := Encoder.writeDictRecord_ok sticky done
      exact (congrArg Setup.dict last.setup).trans given
    refine Encoder.writeDictRecord_context ?_ good' sticky done
    rw [codec']
    exact keeps dictionary kept

/-- The same for a kind of contexts that all uses keep. -/
theorem encoderCreate_context {zstd : Option CodecVt} {codec : CodecVt}
    {sink : Nat → Bytes → Bytes → XqStatus} {p : XqParams} {rawSizeHint : UInt64}
    {dict : Option XqDict} (found : codecGet zstd p.codec.id = some codec)
    (fresh : Good ((codec.cctxNew.map fun cctxNew => cctxNew m.cctxHeap).getD .null))
    (keeps : ∀ c cap src level, Good c → Good (codec.compress c cap src level none).2)
    (created : encoderCreate zstd m sink p rawSizeHint dict = .ok e) : Good e.cctx :=
  encoderCreate_cctx found fresh created fun d _ c cap level good => keeps c cap d.bytes level good

end Context

end Xq
