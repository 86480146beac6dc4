import Xq.Core.ReaderThreads
import Xq.Proofs.Core.Runs
import Xq.Proofs.Format.RoundTrip

/-! Which contexts and digests the decode paths hand to which codec. -/

namespace Xq

/-- The id of the codec that made a context; a null context was made by none. -/
def Dctx.maker : Dctx → Option UInt8
  | .null => none
  | .lze _ => some lzeVt.id
  | .zstd => some 3

/-- The call got a context of the called codec's own making, if that codec has contexts at all,
and no digest but one of its own making. -/
def DecodeCall.Own (call : DecodeCall) : Prop :=
  (call.codec.dctxNew = none ∨ call.dctx.maker = some call.codec.id) ∧
    ∀ d ∈ call.ddict, ∃ make bytes, call.codec.ddictNew = some make ∧ d = make bytes

/-- The bytes of a file that decide it: the codec a section names has no contexts or is the
header's, and a section that asks for the dictionary names a codec that digests it as the
header's does. -/
def SectionFits (zstd : Option CodecVt) (headerId named : UInt8) (usesDict : Bool) : Prop :=
  ((codecGet zstd named).bind CodecVt.dctxNew = none ∨ named = headerId) ∧
    (usesDict →
      (codecGet zstd named).bind CodecVt.ddictNew =
        (codecGet zstd headerId).bind CodecVt.ddictNew)

/-- What is assumed of the external entry of the codec table: its id, that its creators make its
own kind of context and digest, and that it leaves a context the kind it was. -/
structure ZstdVt (c : CodecVt) : Prop where
  id : c.id = 3
  dctxNew : c.dctxNew = some .zstd
  ddictNew : c.ddictNew = some .zstd
  keeps : ∀ d cap src expectedLen ddict,
    (c.decompress d cap src expectedLen ddict).2.maker = d.maker

section Table

variable {zstd : Option CodecVt}

theorem codecGet_id {id : UInt8} {c : CodecVt} (found : codecGet zstd id = some c) : c.id = id := by
  simpa using List.find?_some found

/-- The entries of the table, by what their creators make. -/
theorem codecGet_cases (external : ∀ c ∈ zstd, ZstdVt c) {id : UInt8} {c : CodecVt}
    (found : codecGet zstd id = some c) :
    c = storedVt ∨ c = lzbVt ∨ c = lzeVt ∨ ZstdVt c := by
  -- The table lists three codecs of its own, and the external one if it is built in.
  have listed : c ∈ codecs zstd := List.mem_of_find?_eq_some found
  simp only [codecs, List.mem_append, List.mem_cons, List.not_mem_nil, or_false,
    Option.mem_toList] at listed
  rcases listed with (rfl | rfl | rfl) | listed
  · exact .inl rfl
  · exact .inr (.inl rfl)
  · exact .inr (.inr (.inl rfl))
  · exact .inr (.inr (.inr (external c listed)))

/-- No codec turns a context into another codec's. -/
theorem decompress_maker (external : ∀ c ∈ zstd, ZstdVt c) {id : UInt8} {c : CodecVt}
    (found : codecGet zstd id = some c) (d : Dctx) (cap : Nat) (src : Bytes) (expectedLen : Nat)
    (ddict : Option Ddict) : (c.decompress d cap src expectedLen ddict).2.maker = d.maker := by
  rcases codecGet_cases external found with rfl | rfl | rfl | external
  · rfl
  · rfl
  · -- Only lze changes its context, and it keeps it an lze context.
    cases d with
    | lze d => rfl
    | null => rfl
    | zstd => rfl
  · exact external.keeps d cap src expectedLen ddict

/-- The context and the digest of a decode path were made for one codec. -/
structure MadeFor (codec : CodecVt) (dctx : Dctx) (ddict : Option Ddict) : Prop where
  dctx : dctx.maker = (codec.dctxNew.getD .null).maker
  ddict : ∀ d ∈ ddict, ∃ make bytes, codec.ddictNew = some make ∧ d = make bytes

/-- A creator's context belongs to its codec. -/
theorem dctxNew_maker (external : ∀ c ∈ zstd, ZstdVt c) {id : UInt8} {c : CodecVt}
    (found : codecGet zstd id = some c) {d : Dctx} (made : c.dctxNew = some d) :
    d.maker = some c.id := by
  -- Stored and lzb have no creator at all.
  rcases codecGet_cases external found with rfl | rfl | rfl | external
  · cases made
  · cases made
  · cases made
    rfl
  · rw [external.dctxNew] at made
    cases made
    rw [external.id]
    rfl

/-- Two codecs whose digests have a digest in common make digests the same way. -/
theorem ddictNew_eq (external : ∀ c ∈ zstd, ZstdVt c) {id id' : UInt8} {c c' : CodecVt}
    (found : codecGet zstd id = some c) (found' : codecGet zstd id' = some c')
    {make make' : Bytes → Ddict} (made : c.ddictNew = some make) (made' : c'.ddictNew = some make')
    {bytes bytes' : Bytes} (common : make bytes = make' bytes') : c.ddictNew = c'.ddictNew := by
  -- There are two makers of digests, and their digests differ in kind.
  have kinds : ∀ {id : UInt8} {c : CodecVt} {make : Bytes → Ddict}, codecGet zstd id = some c →
      c.ddictNew = some make → make = lzbDdictNewVt ∨ make = .zstd := by
    intro id c make found made
    rcases codecGet_cases external found with rfl | rfl | rfl | external
    · cases made
    · cases made
      exact .inl rfl
    · cases made
      exact .inl rfl
    · rw [external.ddictNew] at made
      cases made
      exact .inr rfl
  rw [made, made']
  rcases kinds found made with rfl | rfl <;> rcases kinds found' made' with rfl | rfl
  · rfl
  · cases common
  · cases common
  · rfl

/-- A call in the contexts of the header's codec is the called codec's own exactly when the bytes
that name the codecs fit. -/
theorem DecodeCall.own_iff_fits (external : ∀ c ∈ zstd, ZstdVt c) {headerId : UInt8}
    {codec : CodecVt} (header : codecGet zstd headerId = some codec) {call : DecodeCall}
    (named : codecGet zstd call.named = some call.codec)
    (made : MadeFor codec call.dctx call.ddict) (asks : call.usesDict = call.ddict.isSome) :
    call.Own ↔ SectionFits zstd headerId call.named call.usesDict := by
  unfold DecodeCall.Own SectionFits
  rw [named, header, Option.bind_some, Option.bind_some, Option.bind_some, asks]
  refine and_congr (or_congr_right' fun present => ?_) ?_
  · rw [made.dctx]
    constructor
    · -- A context with a maker comes from the header codec's creator.
      intro own
      cases created : codec.dctxNew with
      | none =>
        rw [created] at own
        cases own
      | some d =>
        rw [created, Option.getD_some, dctxNew_maker external header created] at own
        rw [← codecGet_id named, ← codecGet_id header]
        exact (Option.some.inj own).symm
    · intro same
      have equal : call.codec = codec := by
        rw [same, header] at named
        exact (Option.some.inj named).symm
      cases created : codec.dctxNew with
      | none =>
        rw [equal, created] at present
        exact absurd rfl present
      | some d => rw [Option.getD_some, dctxNew_maker external header created, equal]
  · cases digest : call.ddict with
    | none => simp
    | some d =>
      obtain ⟨make, bytes, creator, rfl⟩ := made.ddict d (by rw [digest]; rfl)
      constructor
      · intro own _
        obtain ⟨make', bytes', creator', common⟩ := own _ rfl
        exact (ddictNew_eq external header named creator creator' common).symm
      · intro same d' member
        cases member
        exact ⟨make, bytes, by rw [same rfl, creator], rfl⟩

/-- The invariant of every decode path: its context and its digest were made for the header's
codec, and so were those of every call it has made. -/
structure DecodeState (zstd : Option CodecVt) (headerId : UInt8) (codec : CodecVt) (dctx : Dctx)
    (ddict : Option Ddict) (calls : List DecodeCall) : Prop where
  header : codecGet zstd headerId = some codec
  made : MadeFor codec dctx ddict
  calls : ∀ call ∈ calls, codecGet zstd call.named = some call.codec ∧
    MadeFor codec call.dctx call.ddict ∧ call.usesDict = call.ddict.isSome

variable {headerId : UInt8} {codec : CodecVt} {dctx : Dctx} {ddict : Option Ddict}
  {calls : List DecodeCall}

/-- A path that has just been set up has made no call. -/
theorem DecodeState.fresh (header : codecGet zstd headerId = some codec) :
    DecodeState zstd headerId codec (codec.dctxNew.getD .null) none [] :=
  ⟨header, ⟨rfl, by simp⟩, by simp⟩

/-- In every state, the calls made so far are the called codecs' own exactly when all the sections
they were made for fit. -/
theorem DecodeState.own_iff_fits (external : ∀ c ∈ zstd, ZstdVt c)
    (state : DecodeState zstd headerId codec dctx ddict calls) :
    (∀ call ∈ calls, call.Own) ↔
      ∀ call ∈ calls, SectionFits zstd headerId call.named call.usesDict := by
  -- The equivalence holds for each of the calls.
  refine forall₂_congr fun call member => ?_
  obtain ⟨named, made, asks⟩ := state.calls call member
  exact call.own_iff_fits external state.header named made asks

/-- One more call in the present contexts, which leaves a context of the same kind. -/
theorem DecodeState.called (state : DecodeState zstd headerId codec dctx ddict calls)
    {call : DecodeCall} (named : codecGet zstd call.named = some call.codec)
    (context : call.dctx = dctx) (digest : ∀ d ∈ call.ddict, d ∈ ddict)
    (asks : call.usesDict = call.ddict.isSome) {dctx' : Dctx} (kind : dctx'.maker = dctx.maker) :
    DecodeState zstd headerId codec dctx' ddict (calls ++ [call]) := by
  -- The calls before are as they were; the new one has the context and digest at hand.
  refine ⟨state.header, ⟨kind.trans state.made.dctx, state.made.ddict⟩, ?_⟩
  intro c member
  rcases List.mem_append.mp member with earlier | now
  · exact state.calls c earlier
  · rw [List.mem_singleton.mp now]
    refine ⟨named, ⟨?_, fun d inside => state.made.ddict d (digest d inside)⟩, asks⟩
    rw [context]
    exact state.made.dctx

theorem DecodeState.blockPayload (external : ∀ c ∈ zstd, ZstdVt c)
    (state : DecodeState zstd headerId codec dctx ddict calls) (cap : Nat) (b : BlockHeader)
    (payload : Bytes) :
    DecodeState zstd headerId codec (blockPayload zstd dctx ddict cap b payload).dctx ddict
      (calls ++ (blockPayload zstd dctx ddict cap b payload).call.toList) := by
  have unchanged : DecodeState zstd headerId codec dctx ddict (calls ++ []) := by
    rwa [List.append_nil]
  unfold Xq.blockPayload
  split
  · split
    · exact unchanged
    · exact unchanged
  · split
    · exact unchanged
    · rename_i c found
      dsimp only
      split
      · exact unchanged
      · rename_i available
        refine state.called found rfl ?_ ?_ (decompress_maker external found _ _ _ _ _)
        · dsimp only
          split
          · exact fun d inside => inside
          · simp
        · -- A block that asks for a digest got one, or it would have been refused.
          by_cases uses : b.bflags &&& bflagUsesDict ≠ 0
          · have digest : ddict.isSome := Option.isSome_iff_ne_none.mpr fun absent =>
              available ⟨uses, Option.isNone_iff_eq_none.mpr absent⟩
            simp only [if_pos uses, digest, decide_eq_true_eq]
            exact uses
          · simp only [if_neg uses, Option.isSome_none, decide_eq_false_iff_not]
            exact uses

theorem DecodeState.dictDecode (external : ∀ c ∈ zstd, ZstdVt c)
    (state : DecodeState zstd headerId codec dctx ddict calls) (info : DictInfo) (stored : Bytes) :
    DecodeState zstd headerId codec (dictDecode zstd dctx info stored).1.2 ddict
      (calls ++ (dictDecode zstd dctx info stored).2.toList) := by
  have unchanged : DecodeState zstd headerId codec dctx ddict (calls ++ []) := by
    rwa [List.append_nil]
  unfold Xq.dictDecode
  split
  · -- A dictionary stored plainly is not handed to a codec.
    split
    · exact unchanged
    · exact unchanged
  · split
    · exact unchanged
    · -- The codec the dictionary names is called, without a digest.
      rename_i c found
      have kind := decompress_maker external found dctx info.rawSize.toNat stored
        info.rawSize.toNat none
      dsimp only
      split
      · rename_i result
        rw [result] at kind
        split
        · exact state.called found rfl (by simp) rfl kind
        · exact state.called found rfl (by simp) rfl kind
      · rename_i result
        rw [result] at kind
        exact state.called found rfl (by simp) rfl kind

/-- A digest of the header's codec may take the place of the old one. -/
theorem DecodeState.digested (state : DecodeState zstd headerId codec dctx ddict calls)
    {info : DictInfo} {raw : Bytes} {d : Ddict} (digest : dictDigest codec info raw = .ok d) :
    DecodeState zstd headerId codec dctx (some d) calls := by
  -- The digest was made by the header's codec from the dictionary's bytes.
  refine ⟨state.header, ⟨state.made.dctx, ?_⟩, state.calls⟩
  unfold dictDigest at digest
  obtain ⟨_, digest⟩ := guard_eq_ok.mp digest
  obtain ⟨_, digest⟩ := guard_eq_ok.mp digest
  split at digest
  · cases digest
  · rename_i make creator
    cases digest
    intro d' member
    cases member
    exact ⟨make, raw, creator, rfl⟩

end Table

section Runs

variable {zstd : Option CodecVt}

/-- The invariant, of a sequential decoder. -/
def Decoder.State (zstd : Option CodecVt) (d : Decoder) : Prop :=
  DecodeState zstd d.hdr.codecId d.codec d.dctx d.ddict d.calls

theorem Decoder.state_kept (external : ∀ c ∈ zstd, ZstdVt c) :
    Decoder.Kept zstd (Decoder.State zstd) where
  io _ holds := holds
  sawEob holds := holds
  rawPos _ holds := holds
  sticky _ holds := holds
  loadDict {d} info stored holds := by
    have decoded := DecodeState.dictDecode external holds info stored
    unfold Decoder.loadDict
    split
    rename_i result
    rw [result] at decoded
    dsimp only
    split
    · exact decoded
    · split
      · exact decoded
      · rename_i digest
        exact decoded.digested digest
  -- A payload is one call at most, in the decoder's own context.
  decodePayload {d b payload} _ _ holds := by
    have decoded := DecodeState.blockPayload external holds d.rawCap b payload
    unfold Decoder.decodePayload
    dsimp only
    split
    · exact decoded
    · exact decoded

theorem DecoderRun.state (external : ∀ c ∈ zstd, ZstdVt c) {src : Source} {memLimit : Nat}
    {d : Decoder} (run : DecoderRun zstd src memLimit d) : d.State zstd := by
  -- A new decoder has made no call yet.
  refine run.invariant (Decoder.state_kept external) fun d created => ?_
  obtain ⟨_, _, _, found, _, rfl⟩ := decoderCreate_ok created
  exact .fresh found

/-- The invariant of a reader, whose slots have contexts of their own. -/
def Reader.State (zstd : Option CodecVt) (r : Reader) : Prop :=
  DecodeState zstd r.hdr.codecId r.codec r.dctx r.ddict r.calls ∧
    ∀ s ∈ r.slots, s.dctx.maker = (r.codec.dctxNew.getD .null).maker

/-- What a modified list holds was there before, or is what became of something that was. -/
theorem mem_modify {α : Type} {l : List α} {i : Nat} {f : α → α} {a : α}
    (member : a ∈ l.modify i f) : a ∈ l ∨ ∃ b ∈ l, a = f b := by
  -- The element stands at some place, and that place is modified or not.
  obtain ⟨j, inside, rfl⟩ := List.getElem_of_mem member
  rw [List.getElem_modify]
  split
  · exact .inr ⟨_, List.getElem_mem _, rfl⟩
  · exact .inl (List.getElem_mem _)

/-- The context of the slot that `slot_acquire` returns is one of the slots' contexts. -/
theorem Reader.slot_dctx (blank : Dctx) {r : Reader} {maker : Option UInt8}
    (kind : ∀ s ∈ r.slots, s.dctx.maker = maker) {si : Nat} (acquired : r.slotAcquire = some si) :
    ((r.slots.map DecSlot.dctx).getD si blank).maker = maker := by
  -- The slot acquired is the first free one, and all slots are of this kind.
  obtain ⟨inside, _⟩ := List.findIdx?_eq_some_iff_getElem.mp acquired
  have slot : (r.slots.map DecSlot.dctx).getD si blank = r.slots[si].dctx := by
    simp [List.getD_eq_getElem?_getD, inside]
  rw [slot]
  exact kind _ (List.getElem_mem inside)

/-- A block decoded in some context of the right kind keeps the invariant. -/
theorem Reader.State.decodeBlockSlot (external : ∀ c ∈ zstd, ZstdVt c) {r : Reader}
    (state : r.State zstd) {dctx : Dctx}
    (kind : dctx.maker = (r.codec.dctxNew.getD .null).maker) (bi : Nat) :
    DecodeState zstd r.hdr.codecId r.codec (Reader.decodeBlockSlot zstd r dctx bi).2.dctx r.ddict
      (r.calls ++ (Reader.decodeBlockSlot zstd r dctx bi).2.call.toList) := by
  -- Every refusal comes before the codec is called.
  have slot : DecodeState zstd r.hdr.codecId r.codec dctx r.ddict r.calls :=
    ⟨state.1.header, ⟨kind, state.1.made.ddict⟩, state.1.calls⟩
  have refused : DecodeState zstd r.hdr.codecId r.codec dctx r.ddict (r.calls ++ []) := by
    rwa [List.append_nil]
  unfold Reader.decodeBlockSlot
  dsimp only
  split; · exact refused
  split; · exact refused
  split
  · split; · exact refused
    split
    · exact refused
    split; · exact refused
    split; · exact refused
    split; · exact refused
    split; · exact refused
    split
    · exact refused
    · exact slot.blockPayload external _ _ _
  · exact refused

theorem Reader.state_kept (external : ∀ c ∈ zstd, ZstdVt c) :
    Reader.Kept zstd (Reader.State zstd) where
  loadDict {r} memLimit payload holds := by
    unfold Reader.loadDict
    split
    · exact holds
    · rename_i info _
      split
      · exact holds
      have decoded := DecodeState.dictDecode external holds.1 info (payload.drop dictPayloadHeader)
      split
      rename_i result
      rw [result] at decoded
      dsimp only
      split
      · exact ⟨decoded, holds.2⟩
      · split
        · exact ⟨decoded, holds.2⟩
        · rename_i digest
          exact ⟨decoded.digested digest, holds.2⟩
  -- The slots are made with contexts of the header's codec.
  buffers {r} opts cpus holds := by
    unfold Reader.setupBuffers
    dsimp only
    split
    · exact holds
    · refine ⟨holds.1, fun s member => ?_⟩
      rw [List.eq_of_mem_replicate member]
  blockCopy {r} bi within take holds := by
    unfold Reader.blockCopy
    split
    · exact holds
    split
    · exact holds
    · rename_i si acquired
      have kind := Reader.slot_dctx (.null) holds.2 acquired
      have decoded := holds.decodeBlockSlot external kind bi
      -- The slot keeps the context the decode has left in it.
      have slots : ∀ s ∈ r.slots.modify si fun s =>
          { s with
            dctx := (Reader.decodeBlockSlot zstd r ((r.slots.map DecSlot.dctx).getD si .null)
              bi).2.dctx
            raw := (Reader.decodeBlockSlot zstd r ((r.slots.map DecSlot.dctx).getD si .null)
              bi).2.written },
          s.dctx.maker = (r.codec.dctxNew.getD .null).maker := by
        intro s member
        rcases mem_modify member with same | ⟨old, _, rfl⟩
        · exact holds.2 s same
        · exact decoded.made.dctx
      dsimp only
      split
      · exact ⟨⟨decoded.header, holds.1.made, decoded.calls⟩, slots⟩
      · exact ⟨⟨decoded.header, holds.1.made, decoded.calls⟩, slots⟩
  blockOwn {r} bi holds := ⟨holds.decodeBlockSlot external holds.1.made.dctx bi, holds.2⟩

theorem ReaderRun.state (external : ∀ c ∈ zstd, ZstdVt c) {file : Bytes} {r : Reader}
    (run : ReaderRun zstd file r) : r.State zstd :=
  run.invariant (Reader.state_kept external) fun _ _ _ _ _ found =>
    ⟨.fresh found, fun _ member => absurd member List.not_mem_nil⟩

/-- The invariant of a shared handle: that of its reader, and a thread that holds a slot holds one
there is. -/
structure ReaderMt.State {ι : Type} (zstd : Option CodecVt) (s : ReaderMt ι) : Prop where
  reader : s.reader.State zstd
  inside : ∀ i si, (s.threads i).place.slot = some si → si < s.reader.slots.length

/-- A thread that goes on to its next block, or has returned, holds no slot. -/
theorem ReadThread.goOn_slot (t : ReadThread) (next : Except (Except XqStatus Bytes) ReadCopy) :
    (t.goOn next).place.slot = none := by
  -- The thread is idle or looks up its next block.
  cases next <;> rfl

section Threads

variable {ι : Type} [DecidableEq ι] {s : ReaderMt ι}

/-- What one thread does to the reader and to its own place. -/
theorem ReaderMt.State.update (state : s.State zstd) {i : ι} {r : Reader} {t : ReadThread}
    (reader : r.State zstd) (length : r.slots.length = s.reader.slots.length)
    (mine : ∀ si, t.place.slot = some si → si < s.reader.slots.length) :
    ReaderMt.State zstd { reader := r, threads := Function.update s.threads i t } := by
  refine ⟨reader, fun j sj held => ?_⟩
  dsimp only at held ⊢
  rw [length]
  -- The other threads are where they were.
  rcases eq_or_ne j i with rfl | other
  · rw [Function.update_self] at held
    exact mine sj held
  · rw [Function.update_of_ne other] at held
    exact state.inside j sj held

/-- A change to one slot that leaves its context the kind it was. -/
theorem Reader.State.modifySlot {r : Reader} (state : r.State zstd) (si : Nat)
    {f : DecSlot → DecSlot}
    (kind : ∀ sl ∈ r.slots, (f sl).dctx.maker = (r.codec.dctxNew.getD .null).maker) :
    ({ r with slots := r.slots.modify si f } : Reader).State zstd := by
  -- The other slots are as they were.
  refine ⟨state.1, fun sl member => ?_⟩
  rcases mem_modify member with kept | ⟨old, kept, rfl⟩
  · exact state.2 sl kept
  · exact kind old kept

/-- A wakeup moves one thread, which holds no slot. -/
theorem ReaderMt.State.wake (state : s.State zstd) {j : ι} {woken : ReaderMt ι}
    (wakes : s.wake j = some woken) : woken.State zstd := by
  -- Only a thread asleep is woken.
  rw [ReaderMt.wake] at wakes
  split at wakes
  · cases wakes
    exact state.update state.reader rfl fun _ held => by cases held
  · cases wakes

/-- A release gives a slot back with the context it has. -/
theorem ReaderMt.State.release (state : s.State zstd) (i : ι) (c : ReadCopy) (si : Nat)
    (result : Except XqStatus (Nat × Bytes)) : (s.release i c si result).State zstd := by
  -- The slot keeps its context, and the thread does not hold it any more.
  unfold ReaderMt.release
  refine state.update (state.reader.modifySlot si fun sl member => state.reader.2 sl member)
    (List.length_modify _ _ _) fun sj held => ?_
  rw [ReadThread.goOn_slot] at held
  cases held

/-- A decode uses the context of the slot its thread holds, and leaves it of its kind. -/
theorem ReaderMt.State.decode (external : ∀ c ∈ zstd, ZstdVt c) (state : s.State zstd) {i : ι}
    {c : ReadCopy} {si : Nat} (at_place : (s.threads i).place = .decoding c si) :
    (s.decode zstd i c si).State zstd := by
  -- The slot is inside the list, and its context goes into the decode and comes back out of it.
  have inside := state.inside i si (by rw [at_place]; rfl)
  have slot : (s.reader.slots.map DecSlot.dctx).getD si .null = s.reader.slots[si].dctx := by
    simp [List.getD_eq_getElem?_getD, inside]
  have kind : s.reader.slots[si].dctx.maker = (s.reader.codec.dctxNew.getD .null).maker :=
    state.reader.2 _ (List.getElem_mem inside)
  unfold ReaderMt.decode
  dsimp only
  rw [slot]
  have decoded := state.reader.decodeBlockSlot external kind c.bi
  generalize Reader.decodeBlockSlot zstd s.reader s.reader.slots[si].dctx c.bi = answer at decoded ⊢
  obtain ⟨st, p⟩ := answer
  have called : ({ s.reader with calls := s.reader.calls ++ p.call.toList } : Reader).State zstd :=
    ⟨⟨decoded.header, state.reader.1.made, decoded.calls⟩, state.reader.2⟩
  refine state.update (called.modifySlot si fun sl _ => decoded.made.dctx)
    (List.length_modify _ _ _) fun sj held => ?_
  have same : si = sj := by
    revert held
    split <;> exact Option.some.inj
  exact same ▸ inside

/-- Every step of every thread keeps the contexts what they are. -/
theorem ReaderMt.State.step (external : ∀ c ∈ zstd, ZstdVt c) (state : s.State zstd)
    {a : ReadAction ι} {s' : ReaderMt ι} (step : ReaderMt.Step zstd s a s') : s'.State zstd := by
  cases step with
  | begins _ _ =>
    refine state.update state.reader rfl fun sj held => ?_
    rw [ReadThread.goOn_slot] at held
    cases held
  | lookup _ =>
    unfold ReaderMt.lookup
    dsimp only
    split
    · -- A hit changes the cache and its clock.
      refine state.update state.reader rfl fun sj held => ?_
      rw [ReadThread.goOn_slot] at held
      cases held
    · exact state.update state.reader rfl fun _ held => by cases held
  | acquire _ =>
    unfold ReaderMt.acquire
    split
    · exact state.update state.reader rfl fun _ held => by cases held
    next si acquired =>
      -- The slot that is found is one of the handle's.
      obtain ⟨inside, _⟩ := List.findIdx?_eq_some_iff_getElem.mp acquired
      refine state.update
        (state.reader.modifySlot si fun sl member => state.reader.2 sl member)
        (List.length_modify _ _ _) fun sj held => ?_
      obtain rfl : si = sj := Option.some.inj held
      exact inside
  | decode at_place => exact state.decode external at_place
  | @insert i c si len at_place =>
    refine state.update state.reader rfl fun sj held => ?_
    obtain rfl : si = sj := Option.some.inj held
    exact state.inside i si (by rw [at_place]; rfl)
  | release _ _ => exact state.release _ _ _ _
  | signal _ wakes => exact (state.release _ _ _ _).wake wakes
  | spurious wakes => exact state.wake wakes

/-- Whatever the threads that share a reader do, its contexts and theirs stay what they are. -/
theorem ReaderMt.Reachable.state (external : ∀ c ∈ zstd, ZstdVt c) {r : Reader}
    (opened : r.State zstd) {issued : ι → List (Nat × Nat)}
    (reached : ReaderMt.Reachable zstd (ReaderMt.init r issued) s) : s.State zstd := by
  -- The induction is on the steps.
  induction reached with
  | refl => exact ⟨opened, fun _ _ held => by cases held⟩
  | step _ step state => exact state.step external step

end Threads

/-- The invariant, of a repair. -/
def RepairCtx.State (zstd : Option CodecVt) (c : RepairCtx) : Prop :=
  DecodeState zstd c.hdr.codecId c.codec c.dctx c.ddict c.calls

theorem RepairCtx.state_kept (external : ∀ c ∈ zstd, ZstdVt c) :
    RepairCtx.Kept zstd (RepairCtx.State zstd) where
  loadDictRecord {c} rh payload holds := by
    unfold RepairCtx.loadDictRecord
    dsimp only
    split
    · exact holds
    split
    · exact holds
    · -- A dictionary that parses is decoded in the shared context.
      rename_i info _
      have decoded := DecodeState.dictDecode external holds info (payload.drop dictPayloadHeader)
      split
      · exact decoded
      split
      · exact decoded
      · rename_i digest
        exact decoded.digested digest
  decodeAt {c} off b holds := by
    have refused : DecodeState zstd c.hdr.codecId c.codec c.dctx c.ddict (c.calls ++ []) := by
      rw [List.append_nil]
      exact holds
    -- So is a block behind the checks of its header, range and checksum.
    have decoded : DecodeState zstd c.hdr.codecId c.codec
        (RepairCtx.decodeBlockAt zstd c off b).2.dctx c.ddict
        (c.calls ++ (RepairCtx.decodeBlockAt zstd c off b).2.call.toList) := by
      unfold RepairCtx.decodeBlockAt
      dsimp only
      split; · exact refused
      split; · exact refused
      split
      · split; · exact refused
        split
        · exact refused
        · exact DecodeState.blockPayload external holds _ _ _
      · exact refused
    unfold RepairCtx.decodeAt
    split
    rename_i result
    rw [result] at decoded
    exact decoded

theorem RepairRun.state (external : ∀ c ∈ zstd, ZstdVt c) {file : Bytes} {c : RepairCtx}
    (run : RepairRun zstd file c) : c.State zstd := by
  -- A fresh repair has called nothing.
  refine run.invariant (RepairCtx.state_kept external) fun c read => ?_
  unfold repairReadHeader at read
  obtain ⟨_, read⟩ := guard_eq_ok.mp read
  split at read
  · cases read
  split at read
  · cases read
  · rename_i found
    cases read
    exact .fresh found

/-- Over every run of the three decode paths, and of threads that share a reader, the contexts and
digests handed to the codecs are their own exactly when the codec ids and the dictionary flags of
the sections fit the header. -/
theorem decodeCalls_own_iff (external : ∀ c ∈ zstd, ZstdVt c) :
    (∀ src memLimit d, DecoderRun zstd src memLimit d →
      ((∀ call ∈ d.calls, call.Own) ↔
        ∀ call ∈ d.calls, SectionFits zstd d.hdr.codecId call.named call.usesDict)) ∧
    (∀ file r, ReaderRun zstd file r →
      ((∀ call ∈ r.calls, call.Own) ↔
        ∀ call ∈ r.calls, SectionFits zstd r.hdr.codecId call.named call.usesDict)) ∧
    (∀ file c, RepairRun zstd file c →
      ((∀ call ∈ c.calls, call.Own) ↔
        ∀ call ∈ c.calls, SectionFits zstd c.hdr.codecId call.named call.usesDict)) ∧
    (∀ (ι : Type) [DecidableEq ι] file r, ReaderRun zstd file r →
      ∀ (issued : ι → List (Nat × Nat)) s,
        ReaderMt.Reachable zstd (ReaderMt.init r issued) s →
          ((∀ call ∈ s.reader.calls, call.Own) ↔
            ∀ call ∈ s.reader.calls,
              SectionFits zstd s.reader.hdr.codecId call.named call.usesDict)) :=
  ⟨fun _ _ _ run => (run.state external).own_iff_fits external,
    fun _ _ run => (run.state external).1.own_iff_fits external,
    fun _ _ run => DecodeState.own_iff_fits external (run.state external),
    fun _ _ _ _ run _ _ reached =>
      (reached.state external (run.state external)).reader.1.own_iff_fits external⟩

/-- A file whose header names lzb while its block names lze. -/
def crossedHeader : FileHeader :=
  { formatMajor := 1, formatMinor := 0, headerSize := 32, flags := 0, codecId := lzbVt.id,
    level := 6, checksumId := 0, blockSizeLog := 12, rawSize := 5 }

def crossedBlock : BlockHeader :=
  { bflags := 0, codecId := lzeVt.id, storedSize := 4, rawSize := 5, rawOffset := 0 }

def crossedFile : Bytes := fmtHeaderStore crossedHeader ++ fmtBlockStore crossedBlock ++ [0, 0, 0, 0]

/-- Decoding that file calls lze with the null context of lzb. -/
theorem crossedFile_calls : ∃ d, DecoderRun none (memSrc crossedFile) 0 d ∧
    d.calls.map (fun call => (call.codec.dctxNew, call.dctx)) =
      [(some (.lze lzeDctxNew), .null)] := by
  -- The calls of the first block are evaluated.
  have created : ((decoderCreate none (memSrc crossedFile) 0).toOption.map fun d =>
      (Decoder.nextBlock none d).2.calls.map fun call =>
        (call.codec.dctxNew, call.dctx)) = some [(some (.lze lzeDctxNew), .null)] := by
    decide +kernel
  cases create : decoderCreate none (memSrc crossedFile) 0 with
  | error st =>
    rw [create] at created
    cases created
  | ok d =>
    rw [create] at created
    exact ⟨_, .nextBlock (.create create), Option.some.inj created⟩

/-- Not every call is made in a context of the called codec's own making. -/
theorem decodeCalls_crossed :
    ¬ ∀ src memLimit d, DecoderRun none src memLimit d → ∀ call ∈ d.calls, call.Own := by
  -- The one call hands the null context to a codec that has a creator.
  intro own
  obtain ⟨d, run, calls⟩ := crossedFile_calls
  obtain ⟨call, member, context⟩ := List.mem_map.mp (calls ▸ List.mem_singleton.mpr rfl)
  obtain ⟨creator, null⟩ := Prod.mk.inj context
  rcases (own _ _ _ run call member).1 with absent | maker
  · rw [creator] at absent
    cases absent
  · rw [null] at maker
    cases maker

/-- The two sides of the equivalence, on the run that crosses its contexts. -/
theorem decodeCalls_own_iff_crossed : ∃ d, DecoderRun none (memSrc crossedFile) 0 d ∧
    ((∀ call ∈ d.calls, call.Own) ↔
      ∀ call ∈ d.calls, SectionFits none d.hdr.codecId call.named call.usesDict) := by
  -- The run is one of a decoder.
  obtain ⟨d, run, _⟩ := crossedFile_calls
  exact ⟨d, run, (decodeCalls_own_iff (by simp)).1 _ _ d run⟩

end Runs

end Xq
