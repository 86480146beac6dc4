import Xq.Core.Encoder
import Xq.Proofs.Core.Chunking
import Xq.Proofs.Format.Exact

/-! Unknown records: a record that a decoder may skip changes nothing of what it reads, wherever
between two sections it stands. -/

namespace Xq

open Lib

/-- The decoder over a buffer of its own. -/
def Decoder.over (d : Decoder) (bytes : Bytes) : Decoder := { d with io := Stream.whole bytes }

/-- Two steps over streams with one front answer alike, and after a success one decoder stands
over what was behind the front in each. -/
structure Agrees (d : Decoder) (t t' : Bytes) (x y : XqStatus × Decoder) : Prop where
  status : x.1 = y.1
  next : x.1 = .ok → ∃ e : Decoder, e.checksumLen = d.checksumLen ∧ x.2 = e.over t ∧ y.2 = e.over t'

section Fronts

variable {zstd : Option CodecVt} {d : Decoder} {t t' : Bytes}

theorem Agrees.fails {st : XqStatus} (failed : st ≠ .ok) (x y : Decoder) :
    Agrees d t t' (st, x) (st, y) :=
  ⟨rfl, fun done => (failed done).elim⟩

theorem Agrees.goes (st : XqStatus) {e : Decoder} (same : e.checksumLen = d.checksumLen) :
    Agrees d t t' (st, e.over t) (st, e.over t') :=
  ⟨rfl, fun _ => ⟨e, same, rfl, rfl⟩⟩

/-- A branch both sides take alike. -/
theorem Agrees.ite {c : Prop} [Decidable c] {x x' y y' : XqStatus × Decoder}
    (left : c → Agrees d t t' x x') (right : ¬ c → Agrees d t t' y y') :
    Agrees d t t' (if c then x else y) (if c then x' else y') := by
  by_cases taken : c
  · rw [if_pos taken, if_pos taken]
    exact left taken
  · rw [if_neg taken, if_neg taken]
    exact right taken

/-- A read of the whole front leaves what is behind it. -/
theorem Stream.readExact_front (front t : Bytes) :
    (Stream.whole (front ++ t)).readExact front.length = (.ok, front, Stream.whole t) := by
  rw [Stream.readExact_whole, if_pos (by rw [List.length_append]; omega), List.take_left',
    List.drop_left']
  · rfl
  · rfl

/-- So does a skip. -/
theorem Stream.skip_front (front t : Bytes) :
    (Stream.whole (front ++ t)).skip front.length = (.ok, Stream.whole t) := by
  rw [Stream.skip_whole, if_pos (by rw [List.length_append]; omega), List.drop_left']
  rfl

theorem Decoder.loadDict_agrees (zstd : Option CodecVt) (d : Decoder) (info : DictInfo)
    (stored : Bytes) : Agrees d t t' (Decoder.loadDict zstd (d.over t) info stored)
      (Decoder.loadDict zstd (d.over t') info stored) := by
  -- Neither decoding nor digesting looks at the stream.
  unfold Decoder.loadDict
  have dctx (b : Bytes) : (d.over b).dctx = d.dctx := rfl
  have codec (b : Bytes) : (d.over b).codec = d.codec := rfl
  rw [dctx, dctx, codec, codec]
  generalize dictDecode zstd d.dctx info stored = decoded
  obtain ⟨⟨raw, dctx'⟩, call⟩ := decoded
  cases raw with
  | error st =>
    exact ⟨rfl, fun _ => ⟨{ d with dctx := dctx', calls := d.calls ++ call.toList }, rfl, rfl, rfl⟩⟩
  | ok raw =>
    dsimp only
    cases dictDigest d.codec info raw with
    | error st =>
      exact ⟨rfl, fun _ => ⟨{ d with dctx := dctx', calls := d.calls ++ call.toList },
        rfl, rfl, rfl⟩⟩
    | ok ddict =>
      exact ⟨rfl, fun _ => ⟨{ d with
        dctx := dctx', calls := d.calls ++ call.toList, ddict := some ddict }, rfl, rfl, rfl⟩⟩

/-- A dictionary record whose payload is the front. -/
theorem Decoder.readDictRecord_agrees (zstd : Option CodecVt) (d : Decoder) (rhdr : Bytes)
    {r : RecordHeader} {payload : Bytes} (sized : payload.length = r.size.toNat) :
    Agrees d t t' (Decoder.readDictRecord zstd (d.over (payload ++ t)) rhdr r)
      (Decoder.readDictRecord zstd (d.over (payload ++ t')) rhdr r) := by
  -- The payload is the front of both streams, so each test answers alike.
  unfold Decoder.readDictRecord
  have ddict (b : Bytes) : (d.over b).ddict = d.ddict := rfl
  have memLimit (b : Bytes) : (d.over b).memLimit = d.memLimit := rfl
  have io (b : Bytes) : (d.over b).io = Stream.whole b := rfl
  rw [ddict, ddict, memLimit, memLimit, io, io, ← sized, Stream.readExact_front,
    Stream.readExact_front]
  refine Agrees.ite (fun _ => .fails (by decide) _ _) fun _ => ?_
  refine Agrees.ite (fun _ => .fails (by decide) _ _) fun _ => ?_
  refine Agrees.ite (fun _ => .fails (by decide) _ _) fun _ => ?_
  refine Agrees.ite (fun _ => .fails (by decide) _ _) fun _ => ?_
  dsimp only
  refine Agrees.ite (fun damaged => .fails damaged _ _) fun _ => ?_
  cases dictPayloadParse payload with
  | error st => exact .goes st rfl
  | ok info =>
    exact Agrees.ite (fun _ => .fails (by decide) _ _) fun _ =>
      Decoder.loadDict_agrees zstd d info (payload.drop dictPayloadHeader)

/-- A record that does not end the blocks. -/
theorem Decoder.handleRecord_agrees (zstd : Option CodecVt) (d : Decoder) {hdr payload : Bytes}
    {r : RecordHeader} (header : hdr.length = recordHeaderSize)
    (parsed : fmtRecordParse hdr = .ok r) (goes : r.tag ≠ recEndOfBlocks)
    (sized : payload.length = r.size.toNat) :
    Agrees d t t' (Decoder.handleRecord zstd (d.over (hdr ++ payload ++ t)) hdr)
      (Decoder.handleRecord zstd (d.over (hdr ++ payload ++ t')) hdr) := by
  have consumed (b : Bytes) :
      (d.over (hdr ++ payload ++ b)).io.consume recordHeaderSize = Stream.whole (payload ++ b) := by
    show Stream.whole ((hdr ++ payload ++ b).drop recordHeaderSize) = _
    rw [List.append_assoc, List.drop_left' header]
  unfold Decoder.handleRecord
  rw [parsed]
  dsimp only
  rw [if_neg goes, if_neg goes, consumed, consumed]
  refine Agrees.ite (fun _ => ?_) fun _ => ?_
  · exact Decoder.readDictRecord_agrees zstd d hdr sized
  refine Agrees.ite (fun _ => .fails (by decide) _ _) fun _ => ?_
  -- Any other record is skipped.
  rw [← sized, Stream.skip_front, Stream.skip_front]
  exact .goes .ok rfl

theorem Decoder.decodePayload_agrees (zstd : Option CodecVt) (d : Decoder) (b : BlockHeader)
    (payload : Bytes) : Agrees d t t' (Decoder.decodePayload zstd (d.over t) b payload)
      (Decoder.decodePayload zstd (d.over t') b payload) := by
  -- Only what has been read of the stream is used.
  unfold Decoder.decodePayload
  have dctx (b : Bytes) : (d.over b).dctx = d.dctx := rfl
  have ddict (b : Bytes) : (d.over b).ddict = d.ddict := rfl
  have rawCap (b : Bytes) : (d.over b).rawCap = d.rawCap := rfl
  rw [dctx, dctx, ddict, ddict, rawCap, rawCap]
  generalize blockPayload zstd d.dctx d.ddict d.rawCap b payload = r
  refine Agrees.ite (fun failed => .fails failed _ _) fun _ => ?_
  exact ⟨rfl, fun _ => ⟨{ d with
    raw := r.written
    dctx := r.dctx
    calls := d.calls ++ r.call.toList
    streamCk := if d.hdr.checksumId ≠ 0 then xxh64Update d.streamCk r.written else d.streamCk
    rawLen := r.written.length
    rawPos := 0
    rawOffset := d.rawOffset + UInt64.ofNat r.written.length }, rfl, rfl, rfl⟩⟩

/-- A block whose payload and checksum are the front. -/
theorem Decoder.readBlock_agrees (zstd : Option CodecVt) (d : Decoder) {b : BlockHeader}
    {payload ck : Bytes} (sized : payload.length = b.storedSize.toNat)
    (sealed : ck.length = d.checksumLen) :
    Agrees d t t' (Decoder.readBlock zstd (d.over (payload ++ (ck ++ t))) b)
      (Decoder.readBlock zstd (d.over (payload ++ (ck ++ t'))) b) := by
  unfold Decoder.readBlock
  have rawOffset (b : Bytes) : (d.over b).rawOffset = d.rawOffset := rfl
  have rawCap (b : Bytes) : (d.over b).rawCap = d.rawCap := rfl
  have cbufCap (b : Bytes) : (d.over b).cbufCap = d.cbufCap := rfl
  have checksumLen (b : Bytes) : (d.over b).checksumLen = d.checksumLen := rfl
  have hdr (b : Bytes) : (d.over b).hdr = d.hdr := rfl
  have io (b : Bytes) : (d.over b).io = Stream.whole b := rfl
  simp only [rawOffset, rawCap, cbufCap, checksumLen, hdr, io]
  refine Agrees.ite (fun _ => .fails (by decide) _ _) fun _ => ?_
  refine Agrees.ite (fun _ => .fails (by decide) _ _) fun _ => ?_
  refine Agrees.ite (fun _ => .fails (by decide) _ _) fun _ => ?_
  rw [← sized, Stream.readExact_front, Stream.readExact_front]
  dsimp only
  -- A file without checksums has none behind the payload.
  have read (b : Bytes) : (if d.checksumLen ≠ 0 then
      (Stream.whole (ck ++ b)).readExact d.checksumLen else (.ok, [], Stream.whole (ck ++ b))) =
        (.ok, ck, Stream.whole b) := by
    by_cases some : d.checksumLen ≠ 0
    · rw [if_pos some, ← sealed, Stream.readExact_front]
    · have empty : ck = [] := List.length_eq_zero_iff.mp (sealed.trans (not_not.mp some))
      rw [if_neg some, empty]
      rfl
  rw [read, read]
  dsimp only
  refine Agrees.ite (fun _ => .fails (by decide) _ _) fun _ => ?_
  exact Decoder.decodePayload_agrees zstd d b payload

end Fronts

section Rounds

variable {zstd : Option CodecVt} {d e : Decoder}

/-- A round that goes on does not change what `next_block` comes to. -/
theorem Decoder.nextBlock_again (round : Decoder.nextBlockRound zstd d = .again e) :
    Decoder.nextBlock zstd d = Decoder.nextBlock zstd e :=
  (Decoder.nextBlock_ends zstd d).unique (.again round (Decoder.nextBlock_ends zstd e))

theorem Decoder.nextBlock_done {r : XqStatus × Decoder}
    (round : Decoder.nextBlockRound zstd d = .done r) : Decoder.nextBlock zstd d = r :=
  (Decoder.nextBlock_ends zstd d).unique (.done round)

theorem Decoder.blocks_ended (zstd : Option CodecVt) (ended : d.sawEob = true) (t : Bytes) :
    Decoder.blocks zstd (d.over t) = ([], .ok) := by
  rw [Decoder.blocks, Decoder.blocksLoop]
  exact if_pos ended

/-- Where `next_block` comes to no block, there are none. -/
theorem Decoder.blocks_none (going : d.sawEob = false)
    (next : Decoder.nextBlock zstd d = (.ok, e)) (none : e.rawPos = e.rawLen) :
    d.blocks zstd = ([], .ok) := by
  rw [Decoder.blocks, Decoder.blocksLoop, going, if_neg Bool.false_ne_true, next]
  dsimp only
  rw [if_pos none]

/-- A record in front changes none of the blocks behind it. -/
theorem Decoder.blocks_again (done : d.rawPos = d.rawLen) (going : d.sawEob = false)
    (round : Decoder.nextBlockRound zstd d = .again e) : d.blocks zstd = e.blocks zstd := by
  have section_ := Decoder.nextBlockRound_done zstd d
  rw [round] at section_
  have done' : e.rawPos = e.rawLen := by rw [section_.1.rawPos, section_.1.rawLen, done]
  have next := Decoder.nextBlock_again round
  cases ended : e.sawEob with
  | true =>
    -- The record was END_OF_BLOCKS.
    have last : Decoder.nextBlock zstd e = (.ok, e) := by
      refine Decoder.nextBlock_done ?_
      rw [Decoder.nextBlockRound, if_pos ended]
    rw [Decoder.blocks_none going (next.trans last) done', Decoder.blocks, Decoder.blocksLoop,
      if_pos ended]
  | false =>
    rcases block : Decoder.nextBlock zstd e with ⟨st, f⟩
    rw [block] at next
    by_cases fine : st = .ok
    · subst fine
      by_cases none : f.rawPos = f.rawLen
      · rw [Decoder.blocks_none going next none, Decoder.blocks_none ended block none]
      · rw [Decoder.blocks_next done going next none, Decoder.blocks_next done' ended block none]
    · rw [Decoder.blocks_failed going next fine, Decoder.blocks_failed ended block fine]

/-- The round on a record. -/
theorem Decoder.nextBlockRound_record {front t : Bytes} (going : d.sawEob = false)
    (there : recordHeaderSize ≤ front.length) (record : ld16le front 0 ≠ blockMagic) :
    Decoder.nextBlockRound zstd (d.over (front ++ t)) =
      match Decoder.handleRecord zstd (d.over (front ++ t)) (front.take recordHeaderSize) with
      | (.ok, d) => .again d
      | (st, d) => .done (st, d) := by
  -- The magic is not that of a block, and the header of a record is there.
  have size : recordHeaderSize = 14 := rfl
  have window : rbufSize = 262144 := rfl
  have ended : (d.over (front ++ t)).sawEob = false := going
  have io : (d.over (front ++ t)).io = Stream.whole (front ++ t) := rfl
  rw [Decoder.nextBlockRound, if_neg (by rw [ended]; exact Bool.false_ne_true), io,
    Stream.need_whole,
    if_neg (by omega), if_pos (by rw [List.length_append]; omega)]
  dsimp only
  rw [Stream.rbuf_whole, ld16le_append_left (by omega), if_pos record, Stream.need_whole,
    if_neg (by omega), if_pos (by rw [List.length_append]; omega)]
  dsimp only
  rw [Stream.rbuf_whole, List.take_append_of_le_length there]
  rfl

/-- The round on a block. -/
theorem Decoder.nextBlockRound_block {header rest : Bytes} {b : BlockHeader}
    (going : d.sawEob = false) (sized : header.length = blockHeaderSize)
    (parsed : fmtBlockParse header = .ok b) :
    Decoder.nextBlockRound zstd (d.over (header ++ rest)) =
      .done (Decoder.readBlock zstd (d.over rest) b) := by
  -- The magic is there, then the whole header, and it parses.
  have size : blockHeaderSize = 24 := rfl
  have window : rbufSize = 262144 := rfl
  have ended : (d.over (header ++ rest)).sawEob = false := going
  have io : (d.over (header ++ rest)).io = Stream.whole (header ++ rest) := rfl
  have block : ld16le header 0 = blockMagic := (fmtBlockParse_ok_iff.mp parsed).2.1
  rw [Decoder.nextBlockRound, if_neg (by rw [ended]; exact Bool.false_ne_true), io,
    Stream.need_whole,
    if_neg (by omega), if_pos (by rw [List.length_append]; omega)]
  dsimp only
  rw [Stream.rbuf_whole, ld16le_append_left (by omega), if_neg (not_not.mpr block),
    Stream.need_whole, if_neg (by omega), if_pos (by rw [List.length_append]; omega)]
  dsimp only
  rw [Stream.rbuf_whole, List.take_left' sized, parsed]
  dsimp only
  rw [Stream.consume_whole, List.drop_left' sized]
  rfl

end Rounds

section Insertion

variable {zstd : Option CodecVt}

/-- A record, as a decoder that goes on behind it sees it. -/
structure IsRecord (hdr payload : Bytes) (r : RecordHeader) : Prop where
  header : hdr.length = recordHeaderSize
  parsed : fmtRecordParse hdr = .ok r
  sized : payload.length = r.size.toNat

/-- A position of a stream at which a section begins, with no END_OF_BLOCKS in front of it;
`checksumLen` is the length of the checksum behind each block. -/
inductive SectionAt (checksumLen : Nat) : Bytes → Nat → Prop
  | here (bytes : Bytes) : SectionAt checksumLen bytes 0
  | record {hdr payload rest : Bytes} {r : RecordHeader} {k : Nat} :
    IsRecord hdr payload r → ld16le hdr 0 ≠ blockMagic → r.tag ≠ recEndOfBlocks →
    SectionAt checksumLen rest k →
    SectionAt checksumLen (hdr ++ payload ++ rest) ((hdr ++ payload).length + k)
  | block {header payload ck rest : Bytes} {b : BlockHeader} {k : Nat} :
    header.length = blockHeaderSize → fmtBlockParse header = .ok b →
    payload.length = b.storedSize.toNat → ck.length = checksumLen →
    SectionAt checksumLen rest k →
    SectionAt checksumLen (header ++ (payload ++ (ck ++ rest)))
      ((header ++ (payload ++ ck)).length + k)

/-- A stream with more bytes at a position. -/
def insertAt (bytes more : Bytes) (p : Nat) : Bytes := bytes.take p ++ more ++ bytes.drop p

theorem insertAt_front (front rest more : Bytes) (k : Nat) :
    insertAt (front ++ rest) more (front.length + k) = front ++ insertAt rest more k := by
  rw [insertAt, insertAt, List.take_length_add_append, List.drop_length_add_append]
  simp only [List.append_assoc]

/-- A record that the decoder may skip: neither a dictionary nor the end of the blocks, and not
critical. -/
structure RecordHeader.Skippable (r : RecordHeader) : Prop where
  notDict : r.tag ≠ recDict
  goes : r.tag ≠ recEndOfBlocks
  optional : r.rflags &&& rflagCritical = 0

/-- A record that is not critical does not begin like a block. -/
theorem RecordHeader.Skippable.ne_magic {r : RecordHeader} (skippable : r.Skippable) {hdr : Bytes}
    (parsed : fmtRecordParse hdr = .ok r) : ld16le hdr 0 ≠ blockMagic := by
  intro magic
  -- The second byte of the magic has the CRITICAL bit set.
  have flags : r.rflags = ld8 hdr 1 := by
    unfold fmtRecordParse at parsed
    obtain ⟨_, parsed⟩ := guard_eq_ok.mp parsed
    obtain ⟨_, parsed⟩ := guard_eq_ok.mp parsed
    rw [← Except.ok.inj parsed]
    rfl
  have optional := skippable.optional
  rw [flags] at optional
  have bytes := split16 (ld8 hdr 0) (ld8 hdr 1)
  rw [ld16le] at magic
  rw [magic] at bytes
  have high : 0xB1 = ld8 hdr 1 := (List.cons.inj (List.cons.inj bytes).2).1
  rw [← high] at optional
  exact absurd optional (by decide)

/-- Skipping such a record leaves the decoder where it would be without it. -/
theorem Decoder.blocks_skip {d : Decoder} {hdr payload t : Bytes} {r : RecordHeader}
    (going : d.sawEob = false) (done : d.rawPos = d.rawLen) (record : IsRecord hdr payload r)
    (skippable : r.Skippable) :
    Decoder.blocks zstd (d.over (hdr ++ payload ++ t)) = Decoder.blocks zstd (d.over t) := by
  -- The record is neither the end nor a dictionary nor critical, so its payload is skipped.
  refine Decoder.blocks_again done going ?_
  have there : recordHeaderSize ≤ (hdr ++ payload).length := by
    rw [List.length_append, record.header]
    omega
  have consumed : (d.over (hdr ++ payload ++ t)).io.consume recordHeaderSize =
      Stream.whole (payload ++ t) := by
    show Stream.whole ((hdr ++ payload ++ t).drop recordHeaderSize) = _
    rw [List.append_assoc, List.drop_left' record.header]
  have magic : ld16le (hdr ++ payload) 0 ≠ blockMagic := by
    rw [ld16le_append_left (by rw [record.header]; decide)]
    exact skippable.ne_magic record.parsed
  rw [Decoder.nextBlockRound_record going there magic, List.take_left' record.header]
  unfold Decoder.handleRecord
  rw [record.parsed]
  dsimp only
  rw [if_neg skippable.goes, if_neg skippable.notDict,
    if_neg (fun critical => critical.2.2 skippable.optional), consumed, ← record.sized,
    Stream.skip_front]
  rfl

/-- A record in front of two streams: they come alike to what is behind it, unless the decoder
fails on it. -/
theorem Decoder.blocks_record {d : Decoder} {hdr payload rest : Bytes} {r : RecordHeader}
    (going : d.sawEob = false) (done : d.rawPos = d.rawLen) (record : IsRecord hdr payload r)
    (magic : ld16le hdr 0 ≠ blockMagic) (goes : r.tag ≠ recEndOfBlocks)
    (good : (Decoder.blocks zstd (d.over (hdr ++ payload ++ rest))).2 = .ok) (rest' : Bytes) :
    ∃ e : Decoder, e.checksumLen = d.checksumLen ∧ e.rawPos = e.rawLen ∧
      Decoder.blocks zstd (d.over (hdr ++ payload ++ rest)) = Decoder.blocks zstd (e.over rest) ∧
      Decoder.blocks zstd (d.over (hdr ++ payload ++ rest')) =
        Decoder.blocks zstd (e.over rest') := by
  obtain ⟨status, next⟩ := @Decoder.handleRecord_agrees rest rest' zstd d hdr payload r
    record.header record.parsed goes record.sized
  have there : recordHeaderSize ≤ (hdr ++ payload).length := by
    rw [List.length_append, record.header]
    omega
  have magic' : ld16le (hdr ++ payload) 0 ≠ blockMagic := by
    rwa [ld16le_append_left (by rw [record.header]; decide)]
  -- The round hands the record on in both streams.
  have round (t : Bytes) := @Decoder.nextBlockRound_record zstd d (hdr ++ payload) t going there
    magic'
  rw [List.take_left' record.header] at round
  have first := round rest
  have second := round rest'
  generalize Decoder.handleRecord zstd (d.over (hdr ++ payload ++ rest)) hdr = x
    at first status next
  generalize Decoder.handleRecord zstd (d.over (hdr ++ payload ++ rest')) hdr = y
    at second status next
  obtain ⟨st, x⟩ := x
  obtain ⟨st', y⟩ := y
  obtain rfl : st = st' := status
  by_cases fine : st = .ok
  · subst fine
    obtain ⟨e, same, rfl, rfl⟩ := next rfl
    have kept := Decoder.nextBlockRound_done zstd (d.over (hdr ++ payload ++ rest))
    rw [first] at kept
    refine ⟨e, same, ?_, Decoder.blocks_again done going first,
      Decoder.blocks_again done going second⟩
    exact kept.1.rawPos.trans (done.trans kept.1.rawLen.symm)
  · -- A record that fails would have ended the blocks.
    have failed : Decoder.nextBlockRound zstd (d.over (hdr ++ payload ++ rest)) =
        .done (st, x) := by
      rw [first]
      cases st
      case ok => exact (fine rfl).elim
      all_goals rfl
    have none := Decoder.blocks_failed (d := d.over (hdr ++ payload ++ rest)) going
      (Decoder.nextBlock_done failed) fine
    rw [none] at good
    exact (fine good).elim

/-- A block in front of two streams likewise. -/
theorem Decoder.blocks_block {d : Decoder} {header payload ck rest : Bytes} {b : BlockHeader}
    (going : d.sawEob = false) (done : d.rawPos = d.rawLen)
    (sized : header.length = blockHeaderSize) (parsed : fmtBlockParse header = .ok b)
    (stored : payload.length = b.storedSize.toNat) (sealed : ck.length = d.checksumLen)
    (good : (Decoder.blocks zstd (d.over (header ++ (payload ++ (ck ++ rest))))).2 = .ok)
    (rest' : Bytes) :
    ∃ (e : Decoder) (raw : Bytes), e.checksumLen = d.checksumLen ∧ e.rawPos = e.rawLen ∧
      Decoder.blocks zstd (d.over (header ++ (payload ++ (ck ++ rest)))) =
        (raw ++ (Decoder.blocks zstd (e.over rest)).1, (Decoder.blocks zstd (e.over rest)).2) ∧
      Decoder.blocks zstd (d.over (header ++ (payload ++ (ck ++ rest')))) =
        (raw ++ (Decoder.blocks zstd (e.over rest')).1, (Decoder.blocks zstd (e.over rest')).2) := by
  obtain ⟨status, next⟩ := @Decoder.readBlock_agrees rest rest' zstd d b payload ck stored sealed
  -- The round reads the block in both streams.
  have round (t : Bytes) := Decoder.nextBlock_done (@Decoder.nextBlockRound_block zstd d header
    (payload ++ (ck ++ t)) b going sized parsed)
  have first := round rest
  have second := round rest'
  obtain ⟨_, _, _, valid, fields⟩ := fmtBlockParse_ok_iff.mp parsed
  have nonempty : b.rawSize ≠ 0 := by
    rw [← fields]
    exact valid.nonempty
  have begun := (Decoder.readBlock_begun zstd (d := d.over (payload ++ (ck ++ rest))) nonempty).2
  generalize Decoder.readBlock zstd (d.over (payload ++ (ck ++ rest))) b = x
    at first status next begun
  generalize Decoder.readBlock zstd (d.over (payload ++ (ck ++ rest'))) b = y at second status next
  obtain ⟨st, x⟩ := x
  obtain ⟨st', y⟩ := y
  obtain rfl : st = st' := status
  by_cases fine : st = .ok
  · subst fine
    obtain ⟨e, same, rfl, rfl⟩ := next rfl
    obtain ⟨position, length, nonempty⟩ := (begun rfl).1
    -- The block is there to be handed out, so the blocks go on behind it.
    have some_byte : e.rawPos ≠ e.rawLen := by
      intro none
      have position : e.rawPos = 0 := position
      have length : e.rawLen = e.raw.length := length
      have nonempty : 0 < e.raw.length := nonempty
      omega
    have before := Decoder.blocks_next (d := d.over (header ++ (payload ++ (ck ++ rest))))
      (e := e.over rest) done going first some_byte
    have after := Decoder.blocks_next (d := d.over (header ++ (payload ++ (ck ++ rest'))))
      (e := e.over rest') done going second some_byte
    exact ⟨{ e with rawPos := e.rawLen }, e.raw, same, rfl, before, after⟩
  · -- A block that fails would have ended the blocks.
    have none := Decoder.blocks_failed (d := d.over (header ++ (payload ++ (ck ++ rest)))) going
      first fine
    rw [none] at good
    exact (fine good).elim

/-- A record that may be skipped changes no block, at whatever section boundary it is inserted. -/
theorem Decoder.blocks_insert {d : Decoder} {bytes hdr payload : Bytes} {r : RecordHeader} {k : Nat}
    (boundary : SectionAt d.checksumLen bytes k) (done : d.rawPos = d.rawLen)
    (record : IsRecord hdr payload r) (skippable : r.Skippable)
    (good : (Decoder.blocks zstd (d.over bytes)).2 = .ok) :
    Decoder.blocks zstd (d.over (insertAt bytes (hdr ++ payload) k)) =
      Decoder.blocks zstd (d.over bytes) := by
  generalize len : d.checksumLen = checksumLen at boundary
  -- Induction on the sections in front of the position.
  induction boundary generalizing d with
  | here bytes =>
    rw [insertAt, List.take_zero, List.nil_append, List.drop_zero]
    cases ended : d.sawEob with
    | true => rw [Decoder.blocks_ended zstd ended, Decoder.blocks_ended zstd ended]
    | false => exact Decoder.blocks_skip ended done record skippable
  | @record front body rest s k inFront magic goes _ ih =>
    cases ended : d.sawEob with
    | true => rw [Decoder.blocks_ended zstd ended, Decoder.blocks_ended zstd ended]
    | false =>
      rw [insertAt_front]
      obtain ⟨e, same, done', first, second⟩ := Decoder.blocks_record ended done inFront magic goes
        good (insertAt rest (hdr ++ payload) k)
      rw [first] at good
      rw [second, first]
      exact ih done' good (same.trans len)
  | @block header body ck rest b k sized parsed stored sealed _ ih =>
    cases ended : d.sawEob with
    | true => rw [Decoder.blocks_ended zstd ended, Decoder.blocks_ended zstd ended]
    | false =>
      have front (t : Bytes) : header ++ (body ++ (ck ++ t)) = header ++ (body ++ ck) ++ t := by
        simp only [List.append_assoc]
      obtain ⟨e, raw, same, done', first, second⟩ := Decoder.blocks_block ended done sized parsed
        stored (sealed.trans len.symm) good (insertAt rest (hdr ++ payload) k)
      rw [first] at good
      rw [first, front, insertAt_front, ← front, second, ih done' good (same.trans len)]

end Insertion

section Files

variable {zstd : Option CodecVt} {memLimit : Nat} {d : Decoder}

/-- Creating a decoder over a whole buffer whose file header parses. -/
theorem readFileHeader_parsed {bytes : Bytes} {hdr : FileHeader}
    (parsed : fmtHeaderParse (bytes.take fileHeaderSize) = .ok hdr) :
    readFileHeader zstd memLimit (Stream.whole bytes) =
      if hdr.headerSize.toNat ≤ bytes.length then
        match codecGet zstd hdr.codecId with
        | none => .error .unsupportedCodec
        | some codec =>
          if memLimit ≠ 0 ∧ hdr.blockSize > memLimit then .error .memlimit
          else if hdr.blockSize > maxBlock then .error .memlimit
          else
            .ok { io := Stream.whole (bytes.drop hdr.headerSize.toNat), memLimit := memLimit,
                  hdr := hdr, codec := codec, dctx := codec.dctxNew.getD .null, ddict := none,
                  checksumLen := fmtChecksumSize hdr.checksumId, rawCap := hdr.blockSize,
                  cbufCap := codec.bound hdr.blockSize, raw := [], rawLen := 0, rawPos := 0,
                  rawOffset := 0, streamCk := xxh64Init 0, sawEob := false, sticky := .ok,
                  calls := [] }
      else .error .truncated := by
  have size : fileHeaderSize = 32 := rfl
  have window : rbufSize = 262144 := rfl
  obtain ⟨there, _, _, valid, fields⟩ := fmtHeaderParse_ok_iff.mp parsed
  rw [fields] at valid
  obtain ⟨least, most⟩ := valid.headerSize
  rw [List.length_take] at there
  rw [readFileHeader, Stream.need_whole, if_neg (by omega), if_pos (by omega)]
  dsimp only
  rw [Stream.rbuf_whole, parsed]
  dsimp only
  rw [Stream.consume_whole]
  -- A header may be longer than the part of it that is read.
  have behind : (if hdr.headerSize.toNat - fileHeaderSize > 0 then
      (Stream.whole (bytes.drop fileHeaderSize)).need (hdr.headerSize.toNat - fileHeaderSize)
      else (.ok, Stream.whole (bytes.drop fileHeaderSize))) =
        (if hdr.headerSize.toNat ≤ bytes.length then .ok else .truncated,
          Stream.whole (bytes.drop fileHeaderSize)) := by
    by_cases longer : hdr.headerSize.toNat - fileHeaderSize > 0
    · rw [if_pos longer, Stream.need_whole, if_neg (by omega), List.length_drop]
      by_cases fits : hdr.headerSize.toNat ≤ bytes.length
      · rw [if_pos fits, if_pos (by omega)]
      · rw [if_neg fits, if_neg (by omega)]
    · rw [if_neg longer, if_pos (by omega)]
  rw [behind]
  by_cases fits : hdr.headerSize.toNat ≤ bytes.length
  · -- The rest of the header is passed over.
    have stream : (Stream.whole (bytes.drop fileHeaderSize)).consume
        (hdr.headerSize.toNat - fileHeaderSize) =
          Stream.whole (bytes.drop hdr.headerSize.toNat) := by
      rw [Stream.consume_whole, List.drop_drop, Nat.add_sub_cancel' least]
    rw [if_pos fits, if_pos fits]
    cases codecGet zstd hdr.codecId with
    | none => rfl
    | some codec =>
      dsimp only
      rw [stream]
  · -- The stream ends inside the header.
    rw [if_neg fits, if_neg fits]

/-- A new decoder over a whole buffer stands behind the file header; another buffer with that header
in front makes the same decoder. -/
theorem readFileHeader_front {bytes : Bytes}
    (created : readFileHeader zstd memLimit (Stream.whole bytes) = .ok d) :
    d.InBlock ∧ d.sticky = .ok ∧ d.rawPos = d.rawLen ∧
      d = d.over (bytes.drop d.hdr.headerSize.toNat) ∧
      d.hdr.headerSize.toNat ≤ bytes.length ∧
      ∀ t, readFileHeader zstd memLimit
        (Stream.whole (bytes.take d.hdr.headerSize.toNat ++ t)) = .ok (d.over t) := by
  have size : fileHeaderSize = 32 := rfl
  have window : rbufSize = 262144 := rfl
  cases parsed : fmtHeaderParse (bytes.take fileHeaderSize) with
  | error st =>
    -- A header that does not parse creates no decoder.
    rw [readFileHeader, Stream.need_whole, if_neg (by omega)] at created
    split at created
    · rename_i needed
      obtain ⟨_, rfl⟩ := Prod.mk.inj needed
      rw [Stream.rbuf_whole, parsed] at created
      cases created
    · cases created
  | ok hdr =>
    obtain ⟨_, _, _, valid, fields⟩ := fmtHeaderParse_ok_iff.mp parsed
    rw [fields] at valid
    have least := valid.headerSize.1
    rw [readFileHeader_parsed parsed] at created
    split at created
    swap
    · cases created
    rename_i fits
    cases found : codecGet zstd hdr.codecId with
    | none =>
      rw [found] at created
      cases created
    | some codec =>
      rw [found] at created
      obtain ⟨limited, created⟩ := guard_eq_ok.mp created
      obtain ⟨large, created⟩ := guard_eq_ok.mp created
      obtain rfl := Except.ok.inj created
      refine ⟨⟨rfl, le_rfl⟩, rfl, rfl, rfl, fits, fun t => ?_⟩
      -- The part of the header that is read lies inside the header.
      have front : (bytes.take hdr.headerSize.toNat ++ t).take fileHeaderSize =
          bytes.take fileHeaderSize := by
        rw [List.take_append_of_le_length (by rw [List.length_take]; omega), List.take_take,
          Nat.min_eq_left least]
      have length : (bytes.take hdr.headerSize.toNat).length = hdr.headerSize.toNat := by
        rw [List.length_take, Nat.min_eq_left fits]
      dsimp only
      rw [readFileHeader_parsed (front ▸ parsed), if_pos (by rw [List.length_append]; omega), found]
      dsimp only
      rw [if_neg limited, if_neg large, List.drop_left' length]
      rfl

/-- What a stream that does not fail has ahead is all that reads depend on. -/
theorem Decoder.InBlock.reads_ahead {e : Decoder} (inBlock : d.InBlock) (inBlock' : e.InBlock)
    (good : d.sticky = .ok) (good' : e.sticky = .ok) (same : e.ahead zstd = d.ahead zstd)
    (fine : (d.ahead zstd).2 = .ok) (lens : List Nat) : e.reads zstd lens = d.reads zstd lens := by
  induction lens generalizing d e with
  | nil => rfl
  | cons len rest ih =>
    have first := inBlock.read zstd good len
    have second := inBlock'.read zstd good' len
    rw [Decoder.reads, Decoder.reads]
    rcases Nat.lt_or_ge (d.ahead zstd).1.length len with short | fits
    · -- The read comes to the end of the stream.
      obtain ⟨answer, next, sticky, left⟩ := first.ended short fine
      obtain ⟨answer', next', sticky', left'⟩ := second.ended (by rwa [same]) (by rwa [same])
      rw [answer, answer', same, ih next next' (sticky.trans good) (sticky'.trans good')
        (left'.trans left.symm) (by rw [left])]
    · obtain ⟨answer, next, sticky, left⟩ := first.enough fits
      obtain ⟨answer', next', sticky', left'⟩ := second.enough (by rwa [same])
      rw [same] at answer' left'
      rw [answer, answer', ih next next' (sticky.trans good) (sticky'.trans good')
        (left'.trans left.symm) (by rw [left]; exact fine)]

/--
A record that a decoder may skip is transparent to it.

Where a stream is decoded without a failure, inserting such a record with its payload at any section
boundary between the file header and END_OF_BLOCKS leaves every result of every sequence of reads,
however both streams are delivered.
-/
theorem decodeReads_insert {src src' : Source} (never : src.NeverFails) (never' : src'.NeverFails)
    (created : decoderCreate zstd src memLimit = .ok d)
    (succeeds : ∀ lens, ¬ SomeFails (d.reads zstd lens)) {k : Nat}
    (boundary : SectionAt d.checksumLen (src.rest.drop d.hdr.headerSize.toNat) k)
    {hdr payload : Bytes} {r : RecordHeader} (record : IsRecord hdr payload r)
    (skippable : r.Skippable)
    (inserted : src'.rest = insertAt src.rest (hdr ++ payload) (d.hdr.headerSize.toNat + k))
    (lens : List Nat) :
    decodeReads zstd src' memLimit lens = decodeReads zstd src memLimit lens := by
  -- Both sources are read as one buffer, and the decoders as their counterparts over it.
  have delivers : (Stream.init src).Delivers := ⟨never, fun ended => by cases ended⟩
  have bytes : (Stream.init src).bytes = src.rest := List.nil_append _
  have alike := readFileHeader_whole zstd memLimit delivers
  rw [← decoderCreate, created, bytes] at alike
  generalize whole : readFileHeader zstd memLimit (Stream.whole src.rest) = made at alike
  cases alike with
  | @created _ e alike =>
    have same := (alike.2 (decoderCreate_inBlock created).2.1).2
    obtain ⟨inBlock, sticky, done, stands, fits, others⟩ := readFileHeader_front whole
    have reads (lens : List Nat) : e.reads zstd lens = d.reads zstd lens :=
      (alike.reads lens).symm
    have hdr_eq : e.hdr = d.hdr := by rw [← same]; rfl
    have len_eq : e.checksumLen = d.checksumLen := by rw [← same]; rfl
    rw [hdr_eq] at stands fits others
    rw [← len_eq] at boundary
    generalize d.hdr.headerSize.toNat = n at stands fits others boundary inserted
    -- All of a new decoder's stream is blocks to come.
    have ahead (t : Bytes) : (e.over t).ahead zstd = (e.over t).blocks zstd := by
      have nothing : (e.over t).raw.drop (e.over t).rawPos = [] :=
        List.drop_eq_nil_of_le (le_of_eq (inBlock.rawLen.symm.trans done.symm))
      have position : { e.over t with rawPos := (e.over t).rawLen } = e.over t := by
        rw [Decoder.over, ← done]
      rw [Decoder.ahead, nothing, position, List.nil_append]
    have good : ((e.over (src.rest.drop n)).blocks zstd).2 = .ok := by
      by_contra bad
      rw [← ahead, ← stands] at bad
      refine succeeds [(e.ahead zstd).1.length + 1] ?_
      rw [← reads]
      exact ((inBlock.delivery zstd _ sticky).1).mpr ⟨bad, by simp⟩
    have blocks := Decoder.blocks_insert boundary done record skippable good
    -- The header stays in front, so the other stream makes the same decoder over its sections.
    have length : (src.rest.take n).length = n := by rw [List.length_take, Nat.min_eq_left fits]
    have split : insertAt src.rest (hdr ++ payload) (n + k) =
        src.rest.take n ++ insertAt (src.rest.drop n) (hdr ++ payload) k := by
      conv_lhs => rw [← List.take_append_drop n src.rest]
      rw [← insertAt_front, length]
    rw [decodeReads_whole zstd never', decodeReads_whole zstd never, decodeWhole, decodeWhole,
      inserted, split, others, whole]
    refine congrArg Except.ok ?_
    have here : e.reads zstd lens = (e.over (src.rest.drop n)).reads zstd lens :=
      congrArg (Decoder.reads zstd lens) stands
    rw [here]
    have place (t : Bytes) : (e.over t).InBlock := ⟨inBlock.rawLen, inBlock.rawPos⟩
    exact (place _).reads_ahead (place _) sticky sticky (by rw [ahead, ahead, blocks])
      (by rw [ahead]; exact good) lens

/-- The header of a block of one stored byte. -/
def byteBlock : BlockHeader :=
  { bflags := bflagStored, codecId := 0, storedSize := 1, rawSize := 1, rawOffset := 0 }

/-- A stream of that block and END_OF_BLOCKS. -/
def endedFile : Bytes := cutFile ++ endOfBlocks

/-- The header of a record for private use, of two bytes. -/
def privateRecord : Bytes :=
  fmtRecordStore { tag := 0x80, rflags := 0, size := 2, crc32c := 0 } [0x0C, 0xB1]

/-- The record between the block and the end, its payload beginning like a block, and the stream
delivered a byte at a time. -/
theorem decodeReads_insert_private :
    decodeReads none
      { rest := insertAt endedFile (privateRecord ++ [0x0C, 0xB1]) (32 + 25)
        answer := fun _ _ => (.ok, 1), calls := 0 } 0 [1, 1] =
      decodeReads none (memSrc endedFile) 0 [1, 1] := by
  -- The header and the blocks of this file are evaluated.
  have run : (decoderCreate none (memSrc endedFile) 0).toOption.map (fun d =>
      (d.hdr.headerSize, d.checksumLen, (d.blocks none).2)) = some (32, 0, .ok) := by
    decide +kernel
  cases created : decoderCreate none (memSrc endedFile) 0 with
  | error st =>
    rw [created] at run
    cases run
  | ok d =>
    rw [created] at run
    obtain ⟨size, rest⟩ := Prod.mk.inj (Option.some.inj run)
    obtain ⟨sealed, good⟩ := Prod.mk.inj rest
    obtain ⟨inBlock, sticky, ahead⟩ := decoderCreate_inBlock created
    have length : d.hdr.headerSize.toNat = 32 := by rw [size]; rfl
    -- The only block stands between the file header and the end.
    have parsed : fmtBlockParse (fmtBlockStore byteBlock) = .ok byteBlock := by
      have valid : byteBlock.Valid :=
        ⟨fun _ => rfl, by decide, by decide, by decide, by decide⟩
      have parsed := fmtBlockParse_store valid []
      rwa [List.append_nil] at parsed
    have boundary : SectionAt d.checksumLen (endedFile.drop 32) 25 := by
      rw [sealed]
      exact @SectionAt.block 0 (fmtBlockStore byteBlock) [0x41] [] endOfBlocks byteBlock 0 rfl
        parsed rfl rfl (.here _)
    -- The private record parses, and may be skipped.
    have record : IsRecord privateRecord [0x0C, 0xB1] (fmtRecordFields privateRecord) := by
      refine ⟨rfl, ?_, by decide +kernel⟩
      unfold fmtRecordParse
      rw [if_neg (by decide +kernel), if_neg (by decide +kernel)]
    have skippable : (fmtRecordFields privateRecord).Skippable :=
      ⟨by decide +kernel, by decide +kernel, by decide +kernel⟩
    rw [← length] at boundary
    refine @decodeReads_insert none 0 d (memSrc endedFile) _ (fun _ _ => rfl) (fun _ _ => rfl)
      created (fun lens fails => ?_) 25 boundary privateRecord [0x0C, 0xB1] _ record skippable
      (by rw [length]; rfl) [1, 1]
    have bad := ((inBlock.delivery none lens sticky).1.mp fails).1
    rw [ahead] at bad
    exact bad good

end Files

end Xq
