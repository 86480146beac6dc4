import Xq.Proofs.Core.Delivery
import Xq.Proofs.Format.RoundTrip

/-! The decoder over a source that cuts its bytes anyhow: it reads what a parser of the whole buffer
reads. -/

namespace Xq

open Lib

/-- The decoder with all of its input in the window: the parser of the whole buffer. -/
def Decoder.whole (d : Decoder) : Decoder := { d with io := Stream.whole d.io.bytes }

/-- A step answers as its counterpart on the whole buffer, and after a success the two still read
the same bytes. -/
structure Refines (x y : XqStatus × Decoder) : Prop where
  status : x.1 = y.1
  next : x.1 = .ok → x.2.io.Delivers ∧ x.2.whole = y.2

/-- A step that fails on both sides alike refines. -/
theorem Refines.fails {st : XqStatus} (failed : st ≠ .ok) (d d' : Decoder) :
    Refines (st, d) (st, d') :=
  ⟨rfl, fun done => (failed done).elim⟩

/-- A branch both sides take alike. -/
theorem Refines.ite {c : Prop} [Decidable c] {x x' y y' : XqStatus × Decoder}
    (left : c → Refines x x') (right : ¬ c → Refines y y') :
    Refines (if c then x else y) (if c then x' else y') := by
  -- The test is about what both sides share.
  by_cases taken : c
  · rw [if_pos taken, if_pos taken]
    exact left taken
  · rw [if_neg taken, if_neg taken]
    exact right taken

/-- A step that goes on after a success of another. -/
theorem Refines.bind {x x' : XqStatus × Decoder} {f : Decoder → XqStatus × Decoder} :
    Refines x x' → (∀ d : Decoder, d.io.Delivers → Refines (f d) (f d.whole)) →
    Refines (match x with | (.ok, d) => f d | (st, d) => (st, d))
      (match x' with | (.ok, d) => f d | (st, d) => (st, d)) := by
  intro first next
  obtain ⟨st, d⟩ := x
  obtain ⟨st', d'⟩ := x'
  obtain rfl : st = st' := first.status
  by_cases done : st = .ok
  · subst done
    -- A success leaves the two decoders alike again.
    obtain ⟨delivers, same⟩ := first.next rfl
    obtain rfl : d.whole = d' := same
    exact next d delivers
  · -- A failure is returned by both.
    cases st
    case ok => exact (done rfl).elim
    all_goals exact .fails done _ _

/-- A step that goes on once the window holds enough bytes. -/
theorem Refines.need {io : Stream} (delivers : io.Delivers) (n : Nat)
    {f f' : Stream → XqStatus × Decoder} {g g' : Stream → Decoder}
    (next : ∀ io', io'.Delivers → io'.bytes = io.bytes → n ≤ io'.rbuf.length →
      Refines (f io') (f' (Stream.whole io.bytes))) :
    Refines (match io.need n with | (.ok, io) => f io | (st, io) => (st, g io))
      (match (Stream.whole io.bytes).need n with
        | (.ok, io) => f' io
        | (st, io) => (st, g' io)) := by
  -- Waiting for bytes has the same outcome, and afterwards the window shows them or the end.
  obtain ⟨st, io', needed, stays, delivers', bytes, there⟩ := delivers.need n
  rw [needed, stays]
  by_cases granted : st = .ok
  · subst granted
    exact next io' delivers' bytes (there rfl)
  · cases st
    case ok => exact (granted rfl).elim
    all_goals exact .fails granted _ _

section Sections

variable {zstd : Option CodecVt} {d : Decoder}

/-- A decoder over another stream, seen whole. -/
theorem Decoder.whole_io (d : Decoder) {io : Stream} {bytes : Bytes} (same : io.bytes = bytes) :
    ({ d with io := io } : Decoder).whole = { d with io := Stream.whole bytes } := by
  -- The whole view only sees the bytes of the stream.
  rw [Decoder.whole, same]

/-- Loading a dictionary does not read the stream. -/
theorem Decoder.loadDict_whole (zstd : Option CodecVt) (delivers : d.io.Delivers)
    (info : DictInfo) (stored : Bytes) :
    Refines (Decoder.loadDict zstd d info stored)
      (Decoder.loadDict zstd d.whole info stored) := by
  -- The dictionary is decoded and digested from bytes already read.
  unfold Decoder.loadDict
  have dctx : d.whole.dctx = d.dctx := rfl
  have codec : d.whole.codec = d.codec := rfl
  rw [dctx, codec]
  generalize dictDecode zstd d.dctx info stored = decoded
  obtain ⟨⟨raw, dctx'⟩, call⟩ := decoded
  cases raw with
  | error st => exact ⟨rfl, fun _ => ⟨delivers, rfl⟩⟩
  | ok raw =>
    dsimp only
    cases dictDigest d.codec info raw with
    | error st => exact ⟨rfl, fun _ => ⟨delivers, rfl⟩⟩
    | ok ddict => exact ⟨rfl, fun _ => ⟨delivers, rfl⟩⟩

/-- A dictionary record is read alike. -/
theorem Decoder.readDictRecord_whole (zstd : Option CodecVt) (delivers : d.io.Delivers) (rhdr : Bytes)
    (r : RecordHeader) :
    Refines (Decoder.readDictRecord zstd d rhdr r)
      (Decoder.readDictRecord zstd d.whole rhdr r) := by
  unfold Decoder.readDictRecord
  have ddict : d.whole.ddict = d.ddict := rfl
  have memLimit : d.whole.memLimit = d.memLimit := rfl
  have io : d.whole.io = Stream.whole d.io.bytes := rfl
  rw [ddict, memLimit, io]
  refine Refines.ite (fun _ => .fails (by decide) _ _) fun _ => ?_
  refine Refines.ite (fun _ => .fails (by decide) _ _) fun _ => ?_
  refine Refines.ite (fun _ => .fails (by decide) _ _) fun _ => ?_
  refine Refines.ite (fun _ => .fails (by decide) _ _) fun _ => ?_
  -- The payload arrives whole on both sides, or on neither.
  obtain ⟨status, reads⟩ := delivers.readExact r.size.toNat
  rw [Stream.readExact_whole] at status ⊢
  by_cases fits : r.size.toNat ≤ d.io.bytes.length
  · obtain ⟨io', read, delivers', bytes'⟩ := reads fits
    rw [read, if_pos fits]
    dsimp only
    generalize d.io.bytes.take r.size.toNat = payload
    refine Refines.ite (fun damaged => .fails damaged _ _) fun _ => ?_
    cases dictPayloadParse payload with
    | error st => exact ⟨rfl, fun _ => ⟨delivers', d.whole_io bytes'⟩⟩
    | ok info =>
      refine Refines.ite (fun _ => .fails (by decide) _ _) fun _ => ?_
      have loaded := Decoder.loadDict_whole zstd (d := { d with io := io' }) delivers'
        info (payload.drop dictPayloadHeader)
      rwa [d.whole_io bytes'] at loaded
  · rw [if_neg fits] at status ⊢
    generalize d.io.readExact r.size.toNat = result at status
    obtain ⟨st, payload, io'⟩ := result
    obtain rfl : st = .truncated := status
    exact .fails (by decide) _ _

/-- A record is handled alike, once its header is in the window. -/
theorem Decoder.handleRecord_whole (zstd : Option CodecVt) (delivers : d.io.Delivers)
    (there : recordHeaderSize ≤ d.io.rbuf.length) (hdrbytes : Bytes) :
    Refines (Decoder.handleRecord zstd d hdrbytes)
      (Decoder.handleRecord zstd d.whole hdrbytes) := by
  unfold Decoder.handleRecord
  have io : d.whole.io = Stream.whole d.io.bytes := rfl
  obtain ⟨next, bytes⟩ := delivers.consume there
  cases fmtRecordParse hdrbytes with
  | error st => exact ⟨rfl, fun _ => ⟨delivers, rfl⟩⟩
  | ok r =>
    dsimp only
    rw [io, Stream.consume_whole, ← bytes]
    generalize d.io.consume recordHeaderSize = io' at next bytes
    have same : ({ d with io := io' } : Decoder).whole =
        { d with io := Stream.whole io'.bytes } := rfl
    refine Refines.ite (fun _ => ?_) fun _ => ?_
    · -- END_OF_BLOCKS: only its header counts.
      refine Refines.ite (fun _ => .fails (by decide) _ _) fun _ => ?_
      refine Refines.ite (fun damaged => .fails damaged _ _) fun _ => ?_
      exact ⟨rfl, fun _ => ⟨next, rfl⟩⟩
    refine Refines.ite (fun _ => ?_) fun _ => ?_
    · exact Decoder.readDictRecord_whole zstd (d := { d with io := io' }) next hdrbytes r
    refine Refines.ite (fun _ => .fails (by decide) _ _) fun _ => ?_
    -- Any other record is skipped.
    obtain ⟨status, skips⟩ := next.skip r.size.toNat
    rw [Stream.skip_whole] at status
    show Refines ((io'.skip r.size.toNat).1, { d with io := (io'.skip r.size.toNat).2 })
      (((Stream.whole io'.bytes).skip r.size.toNat).1,
        { d with io := ((Stream.whole io'.bytes).skip r.size.toNat).2 })
    rw [Stream.skip_whole]
    by_cases fits : r.size.toNat ≤ io'.bytes.length
    · obtain ⟨io'', skip, delivers'', bytes''⟩ := skips fits
      rw [skip, if_pos fits]
      exact ⟨rfl, fun _ => ⟨delivers'', d.whole_io bytes''⟩⟩
    · rw [if_neg fits] at status ⊢
      rw [status]
      exact .fails (by decide) _ _

/-- Decoding a payload does not read the stream. -/
theorem Decoder.decodePayload_whole (zstd : Option CodecVt) (delivers : d.io.Delivers) (b : BlockHeader)
    (payload : Bytes) :
    Refines (Decoder.decodePayload zstd d b payload)
      (Decoder.decodePayload zstd d.whole b payload) := by
  -- The payload has been read, and the two decoders share everything else.
  unfold Decoder.decodePayload
  have dctx : d.whole.dctx = d.dctx := rfl
  have ddict : d.whole.ddict = d.ddict := rfl
  have rawCap : d.whole.rawCap = d.rawCap := rfl
  rw [dctx, ddict, rawCap]
  generalize blockPayload zstd d.dctx d.ddict d.rawCap b payload = r
  exact Refines.ite (fun failed => .fails failed _ _) fun _ => ⟨rfl, fun _ => ⟨delivers, rfl⟩⟩

/-- A block is read alike: its payload and its checksum arrive whole on both sides, or on
neither. -/
theorem Decoder.readBlock_whole (zstd : Option CodecVt) (delivers : d.io.Delivers) (b : BlockHeader) :
    Refines (Decoder.readBlock zstd d b) (Decoder.readBlock zstd d.whole b) := by
  -- The checks of the header come first, then the payload, then the checksum.
  unfold Decoder.readBlock
  have io : d.whole.io = Stream.whole d.io.bytes := rfl
  have rawOffset : d.whole.rawOffset = d.rawOffset := rfl
  have rawCap : d.whole.rawCap = d.rawCap := rfl
  have cbufCap : d.whole.cbufCap = d.cbufCap := rfl
  have checksumLen : d.whole.checksumLen = d.checksumLen := rfl
  have hdr : d.whole.hdr = d.hdr := rfl
  rw [io, rawOffset, rawCap, cbufCap, checksumLen, hdr]
  refine Refines.ite (fun _ => .fails (by decide) _ _) fun _ => ?_
  refine Refines.ite (fun _ => .fails (by decide) _ _) fun _ => ?_
  refine Refines.ite (fun _ => .fails (by decide) _ _) fun _ => ?_
  obtain ⟨status, reads⟩ := delivers.readExact b.storedSize.toNat
  rw [Stream.readExact_whole] at status ⊢
  by_cases fits : b.storedSize.toNat ≤ d.io.bytes.length
  · obtain ⟨io', read, delivers', bytes'⟩ := reads fits
    rw [read, if_pos fits]
    dsimp only
    generalize d.io.bytes.take b.storedSize.toNat = payload
    rw [← bytes']
    by_cases sealed : d.checksumLen ≠ 0
    · -- The checksum follows the payload.
      rw [if_pos sealed, if_pos sealed]
      obtain ⟨status', reads'⟩ := delivers'.readExact d.checksumLen
      rw [Stream.readExact_whole] at status' ⊢
      by_cases fits' : d.checksumLen ≤ io'.bytes.length
      · obtain ⟨io'', read', delivers'', bytes''⟩ := reads' fits'
        rw [read', if_pos fits']
        refine Refines.ite (fun _ => .fails (by decide) _ _) fun _ => ?_
        have decoded := Decoder.decodePayload_whole zstd (d := { d with io := io'' })
          delivers'' b payload
        rwa [d.whole_io bytes''] at decoded
      · -- The stream ends inside the checksum.
        rw [if_neg fits'] at status' ⊢
        generalize io'.readExact d.checksumLen = result at status'
        obtain ⟨st, ck, io''⟩ := result
        obtain rfl : st = .truncated := status'
        exact .fails (by decide) _ _
    · -- There is no checksum to read.
      rw [if_neg sealed, if_neg sealed]
      refine Refines.ite (fun _ => .fails (by decide) _ _) fun _ => ?_
      exact Decoder.decodePayload_whole zstd (d := { d with io := io' }) delivers' b payload
  · -- The stream ends inside the payload.
    rw [if_neg fits] at status ⊢
    generalize d.io.readExact b.storedSize.toNat = result at status
    obtain ⟨st, payload, io'⟩ := result
    obtain rfl : st = .truncated := status
    exact .fails (by decide) _ _

/-- The first bytes of the window are the first bytes of the stream. -/
theorem Stream.ld16le_rbuf {io : Stream} (there : 2 ≤ io.rbuf.length) :
    ld16le io.rbuf 0 = ld16le io.bytes 0 := by
  -- The window comes first.
  rw [Stream.bytes, ld16le_append_left (by omega)]

/-- The section loop goes through the same sections. -/
theorem Decoder.nextBlockLoop_whole (fuel : Nat) {d : Decoder} (delivers : d.io.Delivers) :
    Refines (Decoder.nextBlockLoop zstd fuel d) (Decoder.nextBlockLoop zstd fuel d.whole) := by
  -- The induction is on the sections.
  induction fuel generalizing d with
  | zero => exact ⟨rfl, fun _ => ⟨delivers, rfl⟩⟩
  | succ fuel ih =>
    rw [Decoder.nextBlockLoop, Decoder.nextBlockLoop]
    have sawEob : d.whole.sawEob = d.sawEob := rfl
    have io : d.whole.io = Stream.whole d.io.bytes := rfl
    rw [sawEob, io]
    refine Refines.ite (fun _ => ⟨rfl, fun _ => ⟨delivers, rfl⟩⟩) fun _ => ?_
    -- Two bytes tell a block from a record.
    refine Refines.need delivers 2 fun io₂ delivers₂ bytes₂ there₂ => ?_
    dsimp only
    rw [Stream.ld16le_rbuf there₂, bytes₂, Stream.rbuf_whole]
    refine Refines.ite (fun _ => ?_) fun _ => ?_
    · -- A record: its header, and the loop goes on behind it.
      rw [← bytes₂]
      refine Refines.need delivers₂ recordHeaderSize fun io' delivers' bytes' there' => ?_
      rw [Stream.take_rbuf there', bytes', Stream.rbuf_whole]
      have handled := Decoder.handleRecord_whole zstd (d := { d with io := io' })
        delivers' there' (io₂.bytes.take recordHeaderSize)
      rw [d.whole_io bytes'] at handled
      exact Refines.bind handled fun e delivers => ih (d := e) delivers
    · -- A block: its header, and then the block itself.
      rw [← bytes₂]
      refine Refines.need delivers₂ blockHeaderSize fun io' delivers' bytes' there' => ?_
      rw [Stream.take_rbuf there', bytes', Stream.rbuf_whole]
      cases fmtBlockParse (io₂.bytes.take blockHeaderSize) with
      | error st => exact ⟨rfl, fun _ => ⟨delivers', d.whole_io bytes'⟩⟩
      | ok b =>
        obtain ⟨next, rest⟩ := delivers'.consume there'
        rw [bytes'] at rest
        have read := Decoder.readBlock_whole zstd
          (d := { d with io := io'.consume blockHeaderSize }) next b
        rwa [d.whole_io rest] at read

/-- `next_block` refines its counterpart on the whole buffer. -/
theorem Decoder.nextBlock_whole (zstd : Option CodecVt) (delivers : d.io.Delivers) :
    Refines (Decoder.nextBlock zstd d) (Decoder.nextBlock zstd d.whole) := by
  -- The same bytes remain, so both loops have the same fuel.
  have remaining : d.whole.remaining = d.remaining := by
    show d.io.bytes.length + 0 = d.io.rbuf.length + d.io.src.rest.length
    rw [Stream.bytes, List.length_append, Nat.add_zero]
  rw [Decoder.nextBlock, Decoder.nextBlock, remaining]
  exact Decoder.nextBlockLoop_whole _ delivers

end Sections

section Reads

variable {zstd : Option CodecVt}

/-- Creating a decoder on a source, and then reading: what the creation fails with, or what the
reads return. -/
def decodeReads (zstd : Option CodecVt) (src : Source) (memLimit : Nat) (lens : List Nat) :
    Except XqStatus (List (Except XqStatus Bytes)) :=
  (decoderCreate zstd src memLimit).map (Decoder.reads zstd lens)

/-- Two decoders from which reads return the same: one is the other over the whole buffer, or both
have failed with the same status. -/
def Decoder.Alike (d d' : Decoder) : Prop :=
  d.sticky = d'.sticky ∧ (d.sticky = .ok → d.io.Delivers ∧ d.whole = d')

/-- The loop of a read delivers the same bytes. -/
theorem Decoder.readLoop_whole (len fuel : Nat) (out : Bytes) {d : Decoder}
    (delivers : d.io.Delivers) :
    (Decoder.readLoop zstd len fuel out d).1 = (Decoder.readLoop zstd len fuel out d.whole).1 ∧
      Decoder.Alike (Decoder.readLoop zstd len fuel out d).2
        (Decoder.readLoop zstd len fuel out d.whole).2 := by
  -- The induction is on the rounds; each of them takes from one block.
  induction fuel generalizing out d with
  | zero => exact ⟨rfl, rfl, fun _ => ⟨delivers, rfl⟩⟩
  | succ fuel ih =>
    rw [Decoder.readLoop, Decoder.readLoop]
    have rawPos : d.whole.rawPos = d.rawPos := rfl
    have rawLen : d.whole.rawLen = d.rawLen := rfl
    have sawEob : d.whole.sawEob = d.sawEob := rfl
    have raw : d.whole.raw = d.raw := rfl
    rw [rawPos, rawLen, sawEob, raw]
    by_cases more : out.length < len
    · rw [if_pos more, if_pos more]
      by_cases empty : d.rawPos = d.rawLen
      · rw [if_pos empty, if_pos empty]
        by_cases ended : d.sawEob
        · rw [if_pos ended, if_pos ended]
          exact ⟨rfl, rfl, fun _ => ⟨delivers, rfl⟩⟩
        rw [if_neg ended, if_neg ended]
        -- The next block comes alike, or fails alike.
        have next := Decoder.nextBlock_whole zstd delivers
        generalize Decoder.nextBlock zstd d = block at next
        generalize Decoder.nextBlock zstd d.whole = block' at next
        obtain ⟨st, e⟩ := block
        obtain ⟨st', e'⟩ := block'
        obtain rfl : st = st' := next.status
        cases st
        case ok =>
          obtain ⟨delivers, same⟩ := next.next rfl
          obtain rfl : e.whole = e' := same
          have rawPos : e.whole.rawPos = e.rawPos := rfl
          have rawLen : e.whole.rawLen = e.rawLen := rfl
          have raw : e.whole.raw = e.raw := rfl
          dsimp only
          rw [rawPos, rawLen, raw]
          by_cases none : e.rawPos = e.rawLen
          · rw [if_pos none, if_pos none]
            exact ⟨rfl, rfl, fun _ => ⟨delivers, rfl⟩⟩
          · rw [if_neg none, if_neg none]
            exact ih _ (d := { e with rawPos := _ }) delivers
        all_goals exact ⟨rfl, rfl, fun done => by cases done⟩
      · rw [if_neg empty, if_neg empty]
        exact ih _ (d := { d with rawPos := _ }) delivers
    · rw [if_neg more, if_neg more]
      exact ⟨rfl, rfl, fun _ => ⟨delivers, rfl⟩⟩

/-- A read returns the same from decoders that are alike, and leaves them alike. -/
theorem Decoder.Alike.read {d d' : Decoder} (alike : d.Alike d') (len : Nat) :
    (Decoder.read zstd d len).1 = (Decoder.read zstd d' len).1 ∧
      (Decoder.read zstd d len).2.Alike (Decoder.read zstd d' len).2 := by
  rw [Decoder.read, Decoder.read, ← alike.1]
  by_cases failed : d.sticky ≠ .ok
  · -- A decoder that has failed returns its status without reading.
    rw [if_pos failed, if_pos failed]
    exact ⟨rfl, alike⟩
  · rw [if_neg failed, if_neg failed]
    obtain ⟨delivers, rfl⟩ := alike.2 (not_not.mp failed)
    exact Decoder.readLoop_whole len (len + 1) [] delivers

theorem Decoder.Alike.reads {d d' : Decoder} (alike : d.Alike d') (lens : List Nat) :
    Decoder.reads zstd lens d = Decoder.reads zstd lens d' := by
  -- The induction is on the reads, and each leaves the two alike.
  induction lens generalizing d d' with
  | nil => rfl
  | cons len rest ih =>
    obtain ⟨same, next⟩ := alike.read len
    rw [Decoder.reads, Decoder.reads, same, ih next]

/-- Two creations with one outcome: decoders that are alike, or one failure. -/
inductive CreatedAlike : Except XqStatus Decoder → Except XqStatus Decoder → Prop
  | created {d d' : Decoder} : d.Alike d' → CreatedAlike (.ok d) (.ok d')
  | failed (st : XqStatus) : CreatedAlike (.error st) (.error st)

/-- The header is read alike. -/
theorem readFileHeader_whole (zstd : Option CodecVt) (memLimit : Nat) {io : Stream}
    (delivers : io.Delivers) :
    CreatedAlike (readFileHeader zstd memLimit io)
      (readFileHeader zstd memLimit (Stream.whole io.bytes)) := by
  -- The header's fixed part, its longer part, and the checks of its fields, in this order.
  rw [readFileHeader, readFileHeader]
  obtain ⟨st, io₁, needed, stays, delivers₁, bytes₁, there₁⟩ := delivers.need fileHeaderSize
  rw [needed, stays]
  cases st
  case ok =>
    have there₁ := there₁ rfl
    dsimp only
    rw [Stream.take_rbuf there₁, bytes₁, Stream.rbuf_whole]
    cases fmtHeaderParse (io.bytes.take fileHeaderSize) with
    | error st => exact .failed st
    | ok hdr =>
      obtain ⟨delivers₂, bytes₂⟩ := delivers₁.consume there₁
      rw [bytes₁] at bytes₂
      dsimp only
      rw [Stream.consume_whole, ← bytes₂]
      -- A header may be longer than the part of it that is read.
      obtain ⟨st, io₃, needed₃, stays₃, delivers₃, bytes₃, there₃⟩ :=
        delivers₂.needSome (hdr.headerSize.toNat - fileHeaderSize)
      rw [needed₃, stays₃]
      cases st
      case ok =>
        obtain ⟨delivers₄, bytes₄⟩ := delivers₃.consume (there₃ rfl)
        rw [bytes₃] at bytes₄
        dsimp only
        rw [Stream.consume_whole, ← bytes₄]
        cases codecGet zstd hdr.codecId with
        | none => exact .failed _
        | some codec =>
          dsimp only
          by_cases limited : memLimit ≠ 0 ∧ hdr.blockSize > memLimit
          · rw [if_pos limited, if_pos limited]
            exact .failed _
          rw [if_neg limited, if_neg limited]
          by_cases large : hdr.blockSize > maxBlock
          · rw [if_pos large, if_pos large]
            exact .failed _
          rw [if_neg large, if_neg large]
          exact .created ⟨rfl, fun _ => ⟨delivers₄, rfl⟩⟩
      all_goals exact .failed _
  all_goals exact .failed _

/-- Decoding one buffer with all of the bytes in it. -/
def decodeWhole (zstd : Option CodecVt) (bytes : Bytes) (memLimit : Nat) (lens : List Nat) :
    Except XqStatus (List (Except XqStatus Bytes)) :=
  (readFileHeader zstd memLimit (Stream.whole bytes)).map (Decoder.reads zstd lens)

/-- A source that never fails is read as one buffer with all of its bytes. -/
theorem decodeReads_whole (zstd : Option CodecVt) {src : Source} (never : src.NeverFails)
    (memLimit : Nat) (lens : List Nat) :
    decodeReads zstd src memLimit lens = decodeWhole zstd src.rest memLimit lens := by
  -- A new stream delivers all of the source's bytes, and so do the decoders made on it.
  have fresh : (Stream.init src).Delivers := ⟨never, fun ended => by cases ended⟩
  have created := readFileHeader_whole zstd memLimit fresh
  have bytes : (Stream.init src).bytes = src.rest := List.nil_append _
  rw [bytes] at created
  rw [decodeReads, decodeWhole, decoderCreate]
  generalize readFileHeader zstd memLimit (Stream.init src) = made at created
  generalize readFileHeader zstd memLimit (Stream.whole src.rest) = made' at created
  cases created with
  | created alike => exact congrArg Except.ok (alike.reads lens)
  | failed st => rfl

/-- The loops under the creation of a decoder and its reads all end. -/
structure LoopsEnd (zstd : Option CodecVt) : Prop where
  need : ∀ n ≤ rbufSize, ∀ io : Stream, Ends (Stream.needRound n) io (io.need n)
  readLoop : ∀ (n : Nat) (dst : Bytes) (io : Stream),
    Ends Stream.readRound (n, dst, io) (Stream.readLoop (n + 1) n dst io)
  skip : ∀ (n : Nat) (io : Stream), Ends Stream.skipRound (n, io) (io.skip n)
  nextBlock : ∀ d : Decoder, Ends (Decoder.nextBlockRound zstd) d (Decoder.nextBlock zstd d)

theorem loopsEnd (zstd : Option CodecVt) : LoopsEnd zstd where
  need _ small io := Stream.need_ends small io
  readLoop := Stream.readLoop_ends
  skip n io := io.skip_ends n
  nextBlock := Decoder.nextBlock_ends zstd

/-- Whatever non-empty pieces a source that never fails delivers its bytes in, creating a decoder
and reading ends, and returns what decoding one buffer with all of them returns; so does any other
such source with the same bytes. -/
theorem decodeReads_chunking (zstd : Option CodecVt) {src : Source} (never : src.NeverFails)
    (memLimit : Nat) (lens : List Nat) :
    LoopsEnd zstd ∧
    (∀ d, decoderCreate zstd src memLimit = .ok d → d.ReadsEnd zstd lens) ∧
    decodeReads zstd src memLimit lens = decodeWhole zstd src.rest memLimit lens ∧
    ∀ src' : Source, src'.NeverFails → src'.rest = src.rest →
      decodeReads zstd src' memLimit lens = decodeReads zstd src memLimit lens := by
  refine ⟨loopsEnd zstd, fun d created => ?_, decodeReads_whole zstd never memLimit lens,
    fun src' never' same => ?_⟩
  · exact Decoder.readsEnd zstd lens fun _ => (decoderCreate_inBlock created).1
  · -- Both sources are read as the same buffer.
    rw [decodeReads_whole zstd never', decodeReads_whole zstd never, same]

/-- A source that delivers one byte a call, over a stream that is cut off behind its first block. -/
def byteSrc : Source := { rest := cutFile, answer := fun _ _ => (.ok, 1), calls := 0 }

theorem byteSrc_never : byteSrc.NeverFails := fun _ _ => rfl

/-- The statement on that source, and what its reads return. -/
theorem decodeReads_chunking_bytes :
    (LoopsEnd none ∧
      (∀ d, decoderCreate none byteSrc 0 = .ok d → d.ReadsEnd none [1, 1]) ∧
      decodeReads none byteSrc 0 [1, 1] = decodeWhole none cutFile 0 [1, 1] ∧
      ∀ src' : Source, src'.NeverFails → src'.rest = cutFile →
        decodeReads none src' 0 [1, 1] = decodeReads none byteSrc 0 [1, 1]) ∧
    decodeReads none byteSrc 0 [1, 1] = .ok [.ok [0x41], .error .truncated] :=
  ⟨decodeReads_chunking none byteSrc_never 0 [1, 1], by decide +kernel⟩

end Reads

end Xq
