import Xq.Proofs.Core.DecodeCalls
import Xq.Proofs.Format.Index

/-! Reads through the cache: every read is served as if each block were decoded afresh. -/

namespace Xq

/-- A codec's answer is decided by its arguments; of its context only the maker matters, and that
stays the same. -/
structure CodecVt.Steady (c : CodecVt) : Prop where
  answer : ∀ {d d' : Dctx}, d.maker = d'.maker → ∀ cap src expectedLen ddict,
    (c.decompress d cap src expectedLen ddict).1 = (c.decompress d' cap src expectedLen ddict).1
  keeps : ∀ d cap src expectedLen ddict,
    (c.decompress d cap src expectedLen ddict).2.maker = d.maker

theorem storedVt_steady : storedVt.Steady := ⟨fun _ _ _ _ _ => rfl, fun _ _ _ _ _ => rfl⟩

theorem lzbVt_steady : lzbVt.Steady := ⟨fun _ _ _ _ _ => rfl, fun _ _ _ _ _ => rfl⟩

/-- The capacity of the staging buffer does not show in what lze decodes. -/
theorem lzeDecompress_answer (d d' : LzeDctx) (cap : Nat) (src : Bytes)
    (ddict : Option LzbDdict) :
    (lzeDecompress d cap src ddict).1 = (lzeDecompress d' cap src ddict).1 := by
  -- The staging buffer is grown where it is too small.
  cases src with
  | nil => rfl
  | cons mode inp =>
    rw [lzeDecompress, lzeDecompress]
    split; · rfl
    split; · rfl
    split
    · rfl
    split; · rfl
    split; · rfl
    split
    · rfl
    · dsimp only
      split <;> rfl

theorem lzeVt_steady : lzeVt.Steady where
  answer {d d'} same cap src expectedLen ddict := by
    -- Two contexts of one maker are both lze contexts, or neither is.
    cases d <;> cases d' <;> cases same
    · rfl
    · exact lzeDecompress_answer ..
    · rfl
  keeps d cap src expectedLen ddict := by
    cases d <;> rfl

section

variable {zstd : Option CodecVt}

theorem codecGet_steady (external : ∀ c ∈ zstd, c.Steady) {id : UInt8} {c : CodecVt}
    (found : codecGet zstd id = some c) : c.Steady := by
  -- The three codecs of the source, and the external one if it is built in.
  have listed : c ∈ codecs zstd := List.mem_of_find?_eq_some found
  simp only [codecs, List.mem_append, List.mem_cons, List.not_mem_nil, or_false,
    Option.mem_toList] at listed
  rcases listed with (rfl | rfl | rfl) | listed
  · exact storedVt_steady
  · exact lzbVt_steady
  · exact lzeVt_steady
  · exact external c listed

/-- What a payload step writes, and its status, do not depend on the history of its context. -/
theorem blockPayload_steady (external : ∀ c ∈ zstd, c.Steady) {d d' : Dctx}
    (same : d.maker = d'.maker) (ddict : Option Ddict) (cap : Nat) (b : BlockHeader)
    (payload : Bytes) :
    (blockPayload zstd d ddict cap b payload).status =
        (blockPayload zstd d' ddict cap b payload).status ∧
      (blockPayload zstd d ddict cap b payload).written =
        (blockPayload zstd d' ddict cap b payload).written ∧
      (blockPayload zstd d ddict cap b payload).dctx.maker = d.maker := by
  unfold blockPayload
  split
  · split <;> exact ⟨rfl, rfl, rfl⟩
  split
  · -- No codec has the id of the block.
    exact ⟨rfl, rfl, rfl⟩
  · rename_i c found
    have steady := codecGet_steady external found
    dsimp only
    split
    · exact ⟨rfl, rfl, rfl⟩
    · -- The codec answers alike from both contexts.
      have answer := steady.answer same cap payload b.rawSize.toNat
        (if b.bflags &&& bflagUsesDict ≠ 0 then ddict else none)
      exact ⟨congrArg Prod.fst answer, congrArg Prod.snd answer, steady.keeps ..⟩

/-- So the decode of a block does not depend on the slot it happens in. -/
theorem Reader.decodeBlockSlot_steady (external : ∀ c ∈ zstd, c.Steady) (r : Reader) {d d' : Dctx}
    (same : d.maker = d'.maker) (bi : Nat) :
    (Reader.decodeBlockSlot zstd r d bi).1 = (Reader.decodeBlockSlot zstd r d' bi).1 ∧
      (Reader.decodeBlockSlot zstd r d bi).2.written =
        (Reader.decodeBlockSlot zstd r d' bi).2.written ∧
      (Reader.decodeBlockSlot zstd r d bi).2.dctx.maker = d.maker := by
  -- All tests but the last are about the file alone.
  unfold Reader.decodeBlockSlot
  dsimp only
  split; · exact ⟨rfl, rfl, rfl⟩
  split; · exact ⟨rfl, rfl, rfl⟩
  split
  · split; · exact ⟨rfl, rfl, rfl⟩
    split
    · exact ⟨rfl, rfl, rfl⟩
    split; · exact ⟨rfl, rfl, rfl⟩
    split; · exact ⟨rfl, rfl, rfl⟩
    split; · exact ⟨rfl, rfl, rfl⟩
    split; · exact ⟨rfl, rfl, rfl⟩
    split
    · exact ⟨rfl, rfl, rfl⟩
    · rename_i b _ _ _ _ _ _
      have steady := blockPayload_steady external same r.ddict r.maxRaw b
      refine ⟨?_, (steady _).2.1, (steady _).2.2⟩
      rw [blockFinish, blockFinish, (steady _).1, (steady _).2.1]
  · exact ⟨rfl, rfl, rfl⟩

/-- What a block decodes to: in a context fresh from the header's codec. -/
def Reader.blockDecode (zstd : Option CodecVt) (r : Reader) (bi : Nat) : Except XqStatus Bytes :=
  let (st, p) := Reader.decodeBlockSlot zstd r (r.codec.dctxNew.getD .null) bi
  if st ≠ .ok then .error st else .ok p.written

/-- A read as it would be served without a cache: block by block, each decoded afresh. -/
def Reader.serveLoop (zstd : Option CodecVt) (r : Reader) (off n : Nat) :
    Nat → Bytes → Except XqStatus Bytes
  | 0, out => .ok out
  | fuel + 1, out =>
    if out.length < n then
      match fmtIndexFind r.entries r.nentries (UInt64.ofNat (off + out.length)) with
      | none => .error .corruptIndex
      | some bi =>
        let within := off + out.length - (r.entryAt bi).rawOffset.toNat
        match Reader.blockDecode zstd r bi with
        | .error st => .error st
        | .ok data =>
          if within ≥ data.length then .error .corruptBlock
          else Reader.serveLoop zstd r off n fuel (out ++ blockBytes data within (n - out.length))
    else .ok out

/-- The whole of such a read. -/
def Reader.serve (zstd : Option CodecVt) (r : Reader) (n off : Nat) : Except XqStatus Bytes :=
  if n = 0 then .ok []
  else if off ≥ r.rawSize.toNat then .ok []
  else
    let n := min n (r.rawSize.toNat - off)
    Reader.serveLoop zstd r off n n []

/-- The part of a reader that opening it decides, with everything that reads change blanked. -/
def Reader.opened (r : Reader) : Reader :=
  { r with
    dctx := .null, cache := [], slots := [], clock := 0, statHits := 0, statMisses := 0,
    calls := [] }

/-- The state of a reader that was `base` when its reads began: nothing but cache, slots, clock
and statistics has changed, each cache entry holds the decode of the block it names, and every
slot has a context of the right kind. -/
structure Reader.Serves (zstd : Option CodecVt) (base r : Reader) : Prop where
  same : r.opened = base.opened
  dctx : r.dctx.maker = (base.codec.dctxNew.getD .null).maker
  cached : ∀ c ∈ r.cache, c.block = noBlock ∨ base.blockDecode zstd c.block = .ok c.data
  slotDctx : ∀ s ∈ r.slots, s.dctx.maker = (base.codec.dctxNew.getD .null).maker
  slotFree : ∀ s ∈ r.slots, s.busy = false
  slotSome : r.slots ≠ []

/-- What is read off readers that were opened alike is the same. -/
theorem Reader.opened_common {base r : Reader} (same : r.opened = base.opened) {α : Type}
    (f : Reader → α) : f r.opened = f base.opened :=
  congrArg f same

/-- What is read off a serving reader is what opening it has decided. -/
theorem Reader.Serves.common {base r : Reader} (serves : base.Serves zstd r) {α : Type}
    (f : Reader → α) : f r.opened = f base.opened :=
  Reader.opened_common serves.same f

/-- Decoding in a context of the right kind is decoding afresh. -/
theorem Reader.decodeBlockSlot_fresh (external : ∀ c ∈ zstd, c.Steady) {base r : Reader}
    (same : r.opened = base.opened) {d : Dctx}
    (kind : d.maker = (base.codec.dctxNew.getD .null).maker) (bi : Nat) :
    base.blockDecode zstd bi =
        (if (Reader.decodeBlockSlot zstd r d bi).1 ≠ .ok then
          .error (Reader.decodeBlockSlot zstd r d bi).1
        else .ok (Reader.decodeBlockSlot zstd r d bi).2.written) ∧
      (Reader.decodeBlockSlot zstd r d bi).2.dctx.maker =
        (base.codec.dctxNew.getD .null).maker := by
  -- The decode reads only what the reader has in common with its base.
  have common : Reader.decodeBlockSlot zstd r d bi = Reader.decodeBlockSlot zstd base d bi :=
    Reader.opened_common same fun o => Reader.decodeBlockSlot zstd o d bi
  have steady := Reader.decodeBlockSlot_steady external base kind bi
  rw [common, Reader.blockDecode]
  dsimp only
  rw [← steady.1, ← steady.2.1]
  exact ⟨rfl, steady.2.2.trans kind⟩

/-- A cache hit delivers the decode of the block, when the entries hold what they name. -/
theorem Reader.cacheFind_data {base r : Reader}
    (cached : ∀ c ∈ r.cache, c.block = noBlock ∨ base.blockDecode zstd c.block = .ok c.data)
    {bi i : Nat} (named : bi ≠ noBlock) (found : r.cacheFind bi = some i) :
    base.blockDecode zstd bi = .ok ((r.cache.map CacheEntry.data).getD i []) := by
  -- The entry found names the block, and the empty ones name none.
  obtain ⟨inside, block, _⟩ := List.findIdx?_eq_some_iff_getElem.mp found
  have block : r.cache[i].block = bi := of_decide_eq_true block
  have data : (r.cache.map CacheEntry.data).getD i [] = r.cache[i].data := by
    simp [List.getD_eq_getElem?_getD, inside]
  rw [data]
  rcases cached _ (List.getElem_mem inside) with empty | decoded
  · exact absurd (block.symm.trans empty) named
  · rwa [block] at decoded

/-- Decoding in a slot of a serving reader is decoding afresh. -/
theorem Reader.Serves.decode (external : ∀ c ∈ zstd, c.Steady) {base r : Reader}
    (serves : base.Serves zstd r) {d : Dctx}
    (kind : d.maker = (base.codec.dctxNew.getD .null).maker) (bi : Nat) :
    base.blockDecode zstd bi =
        (if (Reader.decodeBlockSlot zstd r d bi).1 ≠ .ok then
          .error (Reader.decodeBlockSlot zstd r d bi).1
        else .ok (Reader.decodeBlockSlot zstd r d bi).2.written) ∧
      (Reader.decodeBlockSlot zstd r d bi).2.dctx.maker =
        (base.codec.dctxNew.getD .null).maker :=
  Reader.decodeBlockSlot_fresh external serves.same kind bi

/-- A serving reader always has a free slot, since a single caller returns what it takes. -/
theorem Reader.Serves.slotAcquire {base r : Reader} (serves : base.Serves zstd r) :
    r.slotAcquire = some 0 := by
  -- The first slot is free.
  have free := serves.slotFree
  have nonempty := serves.slotSome
  rw [Reader.slotAcquire]
  cases slots : r.slots with
  | nil => exact absurd slots nonempty
  | cons s rest =>
    rw [slots] at free
    rw [List.findIdx?_cons, free s List.mem_cons_self]
    rfl

/-- One block for a read: the cache and the slots only ever hand out what the block decodes to. -/
theorem Reader.Serves.blockCopy (external : ∀ c ∈ zstd, c.Steady) {base r : Reader}
    (serves : base.Serves zstd r) {bi : Nat} (named : bi ≠ noBlock) (within take : Nat) :
    (Reader.blockCopy zstd r bi within take).1 =
        (base.blockDecode zstd bi).map
          (fun data => (data.length, blockBytes data within take)) ∧
      base.Serves zstd (Reader.blockCopy zstd r bi within take).2 := by
  rw [Reader.blockCopy]
  cases found : r.cacheFind bi with
  | some i =>
    -- A hit: the entry holds the decode of the block it names.
    have decoded := Reader.cacheFind_data serves.cached named found
    dsimp only
    rw [decoded]
    refine ⟨rfl, serves.same, serves.dctx, fun c member => ?_, serves.slotDctx, serves.slotFree,
      serves.slotSome⟩
    rcases mem_modify member with kept | ⟨old, kept, rfl⟩
    · exact serves.cached c kept
    · exact serves.cached old kept
  | none =>
    rw [serves.slotAcquire]
    dsimp only
    have kind := Reader.slot_dctx (.null) serves.slotDctx serves.slotAcquire
    generalize (r.slots.map DecSlot.dctx).getD 0 .null = d at kind
    obtain ⟨decoded, maker⟩ := serves.decode external kind bi
    rw [decoded]
    -- A miss: the slot keeps its kind of context, and the victim takes the block over.
    have slots : ∀ s ∈ r.slots.modify 0 fun s =>
        { s with
          dctx := (Reader.decodeBlockSlot zstd r d bi).2.dctx
          raw := (Reader.decodeBlockSlot zstd r d bi).2.written },
        s.dctx.maker = (base.codec.dctxNew.getD .null).maker ∧ s.busy = false := by
      intro s member
      rcases mem_modify member with kept | ⟨old, kept, rfl⟩
      · exact ⟨serves.slotDctx s kept, serves.slotFree s kept⟩
      · exact ⟨maker, serves.slotFree old kept⟩
    have someSlot : r.slots.modify 0 (fun s =>
        { s with
          dctx := (Reader.decodeBlockSlot zstd r d bi).2.dctx
          raw := (Reader.decodeBlockSlot zstd r d bi).2.written }) ≠ [] := by
      intro none
      have := congrArg List.length none
      rw [List.length_modify] at this
      exact serves.slotSome (List.length_eq_zero_iff.mp this)
    -- Only a decode that succeeds enters the cache.
    by_cases failed : (Reader.decodeBlockSlot zstd r d bi).1 ≠ .ok
    · rw [if_pos failed, if_pos failed]
      exact ⟨rfl, serves.same, serves.dctx, serves.cached, fun s member => (slots s member).1,
        fun s member => (slots s member).2, someSlot⟩
    · rw [if_neg failed, if_neg failed]
      refine ⟨rfl, serves.same, serves.dctx, fun c member => ?_, fun s member => (slots s member).1,
        fun s member => (slots s member).2, someSlot⟩
      rcases mem_modify member with kept | ⟨_, _, rfl⟩
      · exact serves.cached c kept
      · right
        rw [decoded, if_neg failed]

/-- A read through the cache is served as without one, and leaves the reader serving. -/
theorem Reader.Serves.preadLoop (external : ∀ c ∈ zstd, c.Steady) {base r : Reader}
    (serves : base.Serves zstd r) (few : base.nentries ≤ 2 ^ 64)
    (zero : indexRaw base.entries 0 = 0) (off n fuel : Nat) (out : Bytes) :
    (Reader.preadLoop zstd off n fuel out r).1 = base.serveLoop zstd off n fuel out ∧
      base.Serves zstd (Reader.preadLoop zstd off n fuel out r).2 := by
  -- Each round serves one block, and the invariant carries over to the next.
  induction fuel generalizing out r with
  | zero => exact ⟨rfl, serves⟩
  | succ fuel ih =>
    rw [Reader.preadLoop, Reader.serveLoop]
    by_cases more : out.length < n
    · rw [if_pos more, if_pos more]
      have find : fmtIndexFind r.entries r.nentries (UInt64.ofNat (off + out.length)) =
          fmtIndexFind base.entries base.nentries (UInt64.ofNat (off + out.length)) :=
        serves.common fun o =>
          fmtIndexFind o.entries o.nentries (UInt64.ofNat (off + out.length))
      rw [find]
      cases found : fmtIndexFind base.entries base.nentries
          (UInt64.ofNat (off + out.length)) with
      | none => exact ⟨rfl, serves⟩
      | some bi =>
        have entry : r.entryAt bi = base.entryAt bi :=
          serves.common fun o => o.entryAt bi
        -- A block that is found is not the number of an empty entry.
        have named : bi ≠ noBlock := by
          have := (fmtIndexFind_some zero found).1
          rw [noBlock]
          omega
        dsimp only
        rw [entry]
        have copied := serves.blockCopy external named
          (off + out.length - (base.entryAt bi).rawOffset.toNat) (n - out.length)
        revert copied
        generalize Reader.blockCopy zstd r bi
          (off + out.length - (base.entryAt bi).rawOffset.toNat) (n - out.length) = copy
        obtain ⟨result, next⟩ := copy
        rintro ⟨result_eq, next_serves⟩
        dsimp only at result_eq next_serves
        rw [result_eq]
        cases base.blockDecode zstd bi with
        | error st => exact ⟨rfl, next_serves⟩
        | ok data =>
          dsimp only [Except.map]
          split
          · exact ⟨rfl, next_serves⟩
          · exact ih next_serves _
    · rw [if_neg more, if_neg more]
      exact ⟨rfl, serves⟩

theorem Reader.Serves.pread (external : ∀ c ∈ zstd, c.Steady) {base r : Reader}
    (serves : base.Serves zstd r) (few : base.nentries ≤ 2 ^ 64)
    (zero : indexRaw base.entries 0 = 0) (n off : Nat) :
    (Reader.pread zstd r n off).1 = base.serve zstd n off ∧
      base.Serves zstd (Reader.pread zstd r n off).2 := by
  -- Both tests in front of the loop are about the file.
  have size : r.rawSize = base.rawSize := serves.common Reader.rawSize
  rw [Reader.pread, Reader.serve, size]
  split
  · exact ⟨rfl, serves⟩
  split
  · exact ⟨rfl, serves⟩
  · exact serves.preadLoop external few zero off _ _ []

/-- Whatever reads have come before, the reader still serves. -/
theorem Reader.Serves.preads (external : ∀ c ∈ zstd, c.Steady) {base r : Reader}
    (serves : base.Serves zstd r) (few : base.nentries ≤ 2 ^ 64)
    (zero : indexRaw base.entries 0 = 0) (history : List (Nat × Nat)) :
    base.Serves zstd (Reader.preads zstd history r) := by
  -- The induction is on the reads that come before.
  induction history generalizing r with
  | nil => exact serves
  | cons call rest ih => exact ih (serves.pread external few zero call.1 call.2).2

/-- Decoding a dictionary leaves a context the kind it was. -/
theorem dictDecode_maker (external : ∀ c ∈ zstd, c.Steady) (d : Dctx) (info : DictInfo)
    (stored : Bytes) : (dictDecode zstd d info stored).1.2.maker = d.maker := by
  rw [dictDecode]
  split
  · -- A plain dictionary is copied.
    split <;> rfl
  split
  · rfl
  · rename_i c found
    have kept := (codecGet_steady external found).keeps d info.rawSize.toNat stored
      info.rawSize.toNat none
    revert kept
    generalize c.decompress d info.rawSize.toNat stored info.rawSize.toNat none = answer
    obtain ⟨⟨st, raw⟩, d'⟩ := answer
    intro kept
    cases st <;> dsimp only <;> first
      | exact kept
      | (split <;> exact kept)

/-- What loading the metadata cannot change: the parts of a reader that come from the header, the
footer and the index, and the kind of its context. -/
structure Reader.FromIndex (blank r : Reader) : Prop where
  file : r.file = blank.file
  hdr : r.hdr = blank.hdr
  entries : r.entries = blank.entries
  nentries : r.nentries = blank.nentries
  blockCount : r.blockCount = blank.blockCount
  rawSize : r.rawSize = blank.rawSize
  codec : r.codec = blank.codec
  footer : r.footer = blank.footer
  dctx : r.dctx.maker = (blank.codec.dctxNew.getD .null).maker

theorem Reader.fromIndex_kept (external : ∀ c ∈ zstd, c.Steady) (blank : Reader) :
    Reader.Kept zstd (Reader.FromIndex blank) where
  loadDict {r} memLimit payload holds := by
    unfold Reader.loadDict
    -- Only the last steps touch the context, and they leave it the kind it was.
    split
    · exact holds
    · rename_i info _
      split
      · exact holds
      have kept := dictDecode_maker external r.dctx info (payload.drop dictPayloadHeader)
      revert kept
      generalize dictDecode zstd r.dctx info (payload.drop dictPayloadHeader) = decoded
      obtain ⟨⟨raw, d⟩, call⟩ := decoded
      intro kept
      have next := kept.trans holds.dctx
      dsimp only
      split
      · exact { holds with dctx := next }
      · split
        · exact { holds with dctx := next }
        · exact { holds with dctx := next }
  buffers {r} opts cpus holds := by
    unfold Reader.setupBuffers
    dsimp only
    split
    · exact holds
    · exact { holds with }
  blockCopy {r} bi within take holds := by
    unfold Reader.blockCopy
    split
    · exact { holds with }
    split
    · exact holds
    · dsimp only
      split
      · exact { holds with }
      · exact { holds with }
  blockOwn {r} bi holds := by
    -- The decode of a block leaves a context the kind it was.
    have own : r.dctx.maker = (r.codec.dctxNew.getD .null).maker := by
      rw [holds.codec]
      exact holds.dctx
    have kept := (Reader.decodeBlockSlot_fresh external (rfl : r.opened = r.opened) own bi).2
    rw [holds.codec] at kept
    exact { holds with dctx := kept }

/-- The steps of a successful opening. -/
structure ReaderOpening (zstd : Option CodecVt) (file : Bytes) (opts : Option ReaderOpts)
    (cpus : Nat) (r : Reader) where
  hdr : FileHeader
  footer : Footer
  codec : CodecVt
  ip : IndexPreamble
  entries : Bytes
  loaded : Reader
  tail : loadTail file = .ok (hdr, footer)
  found : codecGet zstd hdr.codecId = some codec
  index : loadIndex file hdr footer = .ok (ip, entries)
  metadata : Reader.loadMeta zstd (readerBlank file hdr footer codec ip entries)
    ((opts.map ReaderOpts.memLimit).getD 0) = (.ok, loaded)
  buffers : loaded.setupBuffers opts cpus = (.ok, r)

theorem readerOpen_ok {file : Bytes} {opts : Option ReaderOpts} {cpus : Nat} {r : Reader} :
    readerOpen zstd file opts cpus = .ok r ↔ Nonempty (ReaderOpening zstd file opts cpus r) := by
  constructor
  · -- Each of the steps has succeeded.
    intro opened
    rw [readerOpen] at opened
    split at opened; · cases opened
    rename_i hdr footer tail
    split at opened; · cases opened
    rename_i codec found
    split at opened; · cases opened
    rename_i ip entries index
    split at opened
    · rename_i loaded metadata
      split at opened
      · rename_i r' buffers
        cases opened
        exact ⟨hdr, footer, codec, ip, entries, loaded, tail, found, index, metadata, buffers⟩
      · cases opened
    · cases opened
  · -- The steps make the reader that is returned.
    rintro ⟨o⟩
    rw [readerOpen, o.tail]
    dsimp only
    rw [o.found]
    dsimp only
    rw [o.index]
    dsimp only
    rw [o.metadata]
    dsimp only
    rw [o.buffers]

/-- What an accepted index record says. -/
structure IndexLoaded (file : Bytes) (hdr : FileHeader) (footer : Footer) (ip : IndexPreamble)
    (entries : Bytes) : Prop where
  record : (filePread file recordHeaderSize footer.indexOffset.toNat).1 = .ok
  base : entries = ((file.drop (footer.indexOffset.toNat + recordHeaderSize)).take
    (footer.indexSize - UInt64.ofNat recordHeaderSize).toNat).drop indexPreambleSize
  preamble : fmtIndexPreambleParse ((file.drop
    (footer.indexOffset.toNat + recordHeaderSize)).take
      (footer.indexSize - UInt64.ofNat recordHeaderSize).toNat) = .ok ip
  count : fmtIndexPayloadSize ip.blockCount ≠ 0
  valid : fmtIndexValidate ip entries file.length = .ok

theorem loadIndex_ok {file : Bytes} {hdr : FileHeader} {footer : Footer} {ip : IndexPreamble}
    {entries : Bytes} (loaded : loadIndex file hdr footer = .ok (ip, entries)) :
    IndexLoaded file hdr footer ip entries := by
  -- Each of the tests has passed, in the order of the source.
  rw [loadIndex] at loaded
  split at loaded
  · rename_i rec read
    obtain ⟨_, loaded⟩ := guard_eq_ok.mp loaded
    split at loaded; · cases loaded
    rename_i rh parsed
    obtain ⟨_, loaded⟩ := guard_eq_ok.mp loaded
    obtain ⟨size, loaded⟩ := guard_eq_ok.mp loaded
    obtain ⟨_, loaded⟩ := guard_eq_ok.mp loaded
    split at loaded
    · rename_i base mapped
      split at loaded; · cases loaded
      rename_i ip' preamble
      dsimp only at loaded
      obtain ⟨want, loaded⟩ := guard_eq_ok.mp loaded
      obtain ⟨_, loaded⟩ := guard_eq_ok.mp loaded
      obtain ⟨valid, loaded⟩ := guard_eq_ok.mp loaded
      obtain ⟨_, loaded⟩ := guard_eq_ok.mp loaded
      obtain ⟨rfl, rfl⟩ := Prod.mk.inj (Except.ok.inj loaded)
      rw [fileMap] at mapped
      split at mapped
      · cases mapped
      · obtain rfl := (Prod.mk.inj mapped).2
        rw [not_not.mp size] at preamble
        refine ⟨by rw [read], by rw [← not_not.mp size], preamble, ?_, not_not.mp valid⟩
        exact fun none => want (.inl none)
    · cases loaded
  · cases loaded

/-- The counts of an accepted index do not wrap. -/
theorem IndexLoaded.blockCount_lt {file : Bytes} {hdr : FileHeader} {footer : Footer}
    {ip : IndexPreamble} {entries : Bytes} (loaded : IndexLoaded file hdr footer ip entries) :
    ip.blockCount.toNat + 1 < 2 ^ 64 := by
  -- A count that wrapped would have made the payload size zero.
  have count := loaded.count
  rw [fmtIndexPayloadSize, addU64Ok] at count
  split at count
  · exact absurd rfl count
  · rename_i n added
    by_cases wraps : ip.blockCount.toNat + (1 : UInt64).toNat < 2 ^ 64
    · exact wraps
    · rw [if_neg wraps] at added
      cases added

/-- The buffers of a reader: at least one cache entry and one slot, all of them empty. -/
theorem Reader.setupBuffers_ok {r r' : Reader} {opts : Option ReaderOpts} {cpus : Nat}
    (ready : r.setupBuffers opts cpus = (.ok, r')) :
    ∃ ncache nslots, 0 < ncache ∧ 0 < nslots ∧ r' = { r with
      maxRaw := r.hdr.blockSize
      cbufCap := blockHeaderSize + r.codec.bound r.hdr.blockSize + 8
      cache := List.replicate ncache { block := noBlock, used := 0, data := [] }
      slots := List.replicate nslots
        { dctx := r.codec.dctxNew.getD .null, raw := [], busy := false } } := by
  unfold Reader.setupBuffers at ready
  extract_lets bs ncache limit overhead room ncache' cbufCap nslots per room' nslots' at ready
  split at ready
  · cases ready
  · refine ⟨ncache', nslots', ?_, ?_, (Prod.mk.inj ready).2.symm⟩
    · -- The default is positive, a requested number is, and the memory limit leaves one.
      have some_cache : 0 < ncache := by
        dsimp only [ncache]
        cases opts with
        | none => decide
        | some o =>
          dsimp only
          split
          · exact Nat.pos_of_ne_zero (by assumption)
          · decide
      show 0 < if limit ≠ 0 ∧ room < ncache then room else ncache
      split
      · exact Nat.lt_of_lt_of_le Nat.one_pos (Nat.le_max_right _ 1)
      · exact some_cache
    · have some_slot : 0 < nslots := by
        dsimp only [nslots]
        cases opts with
        | none =>
          dsimp only
          omega
        | some o =>
          dsimp only
          split <;> omega
      show 0 < if limit ≠ 0 ∧ room' < nslots then room' else nslots
      split
      · exact Nat.lt_of_lt_of_le Nat.one_pos (Nat.le_max_right _ 1)
      · exact some_slot

/-- What opening a file establishes: the reader serves, and its index is in order. -/
structure Reader.Ready (zstd : Option CodecVt) (file : Bytes) (r : Reader) : Prop where
  serves : r.Serves zstd r
  file_eq : r.file = file
  index : IndexValid r.entries r.blockCount r.rawSize file.length
  nentries : r.nentries = r.blockCount + 1
  few : r.nentries ≤ 2 ^ 64
  found : codecGet zstd r.hdr.codecId = some r.codec
  maxRaw : r.maxRaw = r.hdr.blockSize
  cbufCap : r.cbufCap = blockHeaderSize + r.codec.bound r.hdr.blockSize + 8

theorem readerOpen_ready (external : ∀ c ∈ zstd, c.Steady) {file : Bytes}
    {opts : Option ReaderOpts} {cpus : Nat} {r : Reader}
    (opened : readerOpen zstd file opts cpus = .ok r) : r.Ready zstd file := by
  obtain ⟨hdr, footer, codec, ip, entries, loaded, _, found, index, metadata, buffers⟩ :=
    readerOpen_ok.mp opened
  have accepted := loadIndex_ok index
  -- Loading the metadata leaves the index as it was read.
  have same : (readerBlank file hdr footer codec ip entries).FromIndex loaded := by
    have kept := (Reader.fromIndex_kept external
      (readerBlank file hdr footer codec ip entries)).loadMeta
        ((opts.map ReaderOpts.memLimit).getD 0) ⟨rfl, rfl, rfl, rfl, rfl, rfl, rfl, rfl, rfl⟩
    rwa [metadata] at kept
  obtain ⟨ncache, nslots, _, some_slot, rfl⟩ := Reader.setupBuffers_ok buffers
  refine ⟨⟨rfl, same.codec ▸ same.dctx, fun c member => ?_, fun s member => ?_,
    fun s member => ?_, ?_⟩, same.file, ?_, ?_, ?_, ?_, rfl, rfl⟩
  · rw [List.eq_of_mem_replicate member]
    exact .inl rfl
  · rw [List.eq_of_mem_replicate member]
  · rw [List.eq_of_mem_replicate member]
  · intro none
    have := congrArg List.length none
    rw [List.length_replicate] at this
    exact absurd this (Nat.ne_of_gt some_slot)
  · have valid := fmtIndexValidate_ok accepted.valid
    have entries := same.entries
    have blockCount := same.blockCount
    have rawSize := same.rawSize
    dsimp only [readerBlank] at entries blockCount rawSize ⊢
    rwa [entries, blockCount, rawSize]
  · exact same.nentries.trans (congrArg (· + 1) same.blockCount.symm)
  · have nentries := same.nentries
    dsimp only [readerBlank] at nentries ⊢
    rw [nentries]
    exact accepted.blockCount_lt.le
  · have hdr := same.hdr
    have codec := same.codec
    dsimp only [readerBlank] at hdr codec ⊢
    rw [hdr, codec]
    exact found

end

end Xq
