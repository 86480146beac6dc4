import Xq.Proofs.Core.CompressBound
import Xq.Proofs.Core.FileDecoding

/-! The round trip of a finished file: what reads return from it, or from any front of it, is what
was written, up to the last block that is complete. -/

namespace Xq

open Lib

section Reads

variable {zstd : Option CodecVt} {d : Decoder} {st : XqStatus}

/-- What reads of some lengths return from `bytes` with the status `st` behind them: while there are
as many bytes as asked for, those; a read that asks for more gets the failure instead of the rest, and
so does every read after it. At the end of a stream it gets the rest. -/
def readsOf (st : XqStatus) : List Nat → Bytes → List (Except XqStatus Bytes)
  | [], _ => []
  | len :: rest, bytes =>
    if st = .ok ∨ len ≤ bytes.length then .ok (bytes.take len) :: readsOf st rest (bytes.drop len)
    else .error st :: rest.map fun _ => .error st

/-- A decoder that has failed reports its failure from every read. -/
theorem Decoder.reads_stuck (stuck : d.sticky = st) (failed : st ≠ .ok) (lens : List Nat) :
    d.reads zstd lens = lens.map fun _ => .error st := by
  -- A read of such a decoder leaves it as it is.
  induction lens with
  | nil => rfl
  | cons len rest ih =>
    have same : Decoder.read zstd d len = (.error st, d) := by
      rw [Decoder.read, stuck, if_pos failed]
    rw [Decoder.reads, same, List.map_cons]
    exact congrArg _ ih

/-- Nothing but blocks is ahead of a decoder that has none in its buffer. -/
theorem Decoder.ahead_over (done : d.rawPos = d.rawLen) (empty : d.raw = []) (t : Bytes) :
    (d.over t).ahead zstd = Decoder.blocks zstd (d.over t) := by
  -- Its buffer has nothing left to hand out.
  have position : ({ d.over t with rawPos := (d.over t).rawLen } : Decoder) = d.over t := by
    rw [Decoder.over, ← done]
  have nothing : (d.over t).raw.drop (d.over t).rawPos = [] := by
    show d.raw.drop _ = []
    rw [empty, List.drop_nil]
  rw [Decoder.ahead, position, nothing, List.nil_append]

/-- Reads return what is ahead of the decoder, and nothing else. -/
theorem Decoder.InBlock.reads_eq (inBlock : d.InBlock) (good : d.sticky = .ok) (lens : List Nat) :
    d.reads zstd lens = readsOf (d.ahead zstd).2 lens (d.ahead zstd).1 := by
  -- The induction is on the reads; each of them takes what it can off the front.
  induction lens generalizing d with
  | nil => rfl
  | cons len rest ih =>
    have done := inBlock.read zstd good len
    rw [Decoder.reads, readsOf]
    rcases Nat.lt_or_ge (d.ahead zstd).1.length len with short | fits
    · by_cases fine : (d.ahead zstd).2 = .ok
      · -- The end of the stream comes first.
        obtain ⟨answer, next, sticky, left⟩ := done.ended short fine
        rw [if_pos (.inl fine), answer, ih next (sticky.trans good), left, fine, List.nil_append,
          List.take_of_length_le short.le, List.drop_of_length_le short.le]
      · obtain ⟨answer, stuck⟩ := done.failed short fine
        rw [if_neg (by rintro (same | fits); exacts [fine same, by omega]), answer,
          Decoder.reads_stuck stuck fine]
    · obtain ⟨answer, next, sticky, left⟩ := done.enough fits
      rw [if_pos (.inr fits), answer, ih next (sticky.trans good), left, List.nil_append]

end Reads

section Files

variable {zstd : Option CodecVt} {c : Container} {codec : CodecVt} {GoodD : Dctx → Prop}
  {size : Nat} {xs : Bytes} {dict : Option XqDict} {ddict : Option Ddict} {memLimit : Nat}

/-- The memory limit of a decoder leaves room for blocks of that size and for that dictionary. -/
def MemoryAllows (memLimit size : Nat) (dict : Option XqDict) : Prop :=
  memLimit = 0 ∨ size ≤ memLimit ∧ ∀ x ∈ dict, dictPayloadHeader + x.bytes.length ≤ memLimit

/-- The status that a file cut off `k` bytes on ends with. -/
def Container.cutStatus (c : Container) (k : Nat) : XqStatus :=
  if c.endPosition ≤ k then .ok else .truncated

/-- A decoder cannot be created without the whole header. -/
theorem readFileHeader_short {bytes : Bytes} (short : bytes.length < fileHeaderSize) :
    readFileHeader zstd memLimit (Stream.whole bytes) = .error .truncated := by
  -- Waiting for the header meets the end of the stream.
  have window : rbufSize = 262144 := rfl
  have size : fileHeaderSize = 32 := rfl
  rw [readFileHeader, Stream.need_whole, if_neg (by omega), if_neg (by omega)]

/-- Behind the header of a file, the decoder stands in front of its sections. -/
theorem Container.Keeps.created (keeps : c.Keeps zstd codec GoodD size xs dict ddict)
    (limit : memLimit = 0 ∨ size ≤ memLimit) {k : Nat} (header : fileHeaderSize ≤ k) :
    ∃ d : Decoder, readFileHeader zstd memLimit (Stream.whole (c.bytes.take k)) =
        .ok (d.over ((c.bytes.drop fileHeaderSize).take (k - fileHeaderSize))) ∧
      d.Between c.header codec GoodD size none 0 ∧ d.memLimit = memLimit ∧ d.sticky = .ok ∧
      d.raw = [] ∧ d.rawLen = 0 := by
  have size_le := keeps.most
  have length : (fmtHeaderStore c.header).length = fileHeaderSize := length_fmtHeaderStore _
  obtain ⟨rest, split⟩ : ∃ rest, c.bytes = fmtHeaderStore c.header ++ rest := by
    simp only [Container.bytes, Container.body, Container.front, List.append_assoc]
    exact ⟨_, rfl⟩
  have front : (c.bytes.take k).take fileHeaderSize = fmtHeaderStore c.header := by
    rw [List.take_take, Nat.min_eq_left header, split, List.take_left' length]
  have parsed : fmtHeaderParse ((c.bytes.take k).take fileHeaderSize) = .ok c.header := by
    have := fmtHeaderParse_store keeps.header []
    rw [List.append_nil] at this
    rw [front, this]
  -- The header is complete, and the limit allows a block.
  have there : c.header.headerSize.toNat ≤ (c.bytes.take k).length := by
    rw [keeps.headerSize, List.length_take, split, List.length_append, length]
    omega
  have limited : ¬ (memLimit ≠ 0 ∧ size > memLimit) := by
    rintro ⟨some_limit, over_it⟩
    rcases limit with none | enough
    · exact some_limit none
    · omega
  rw [readFileHeader_parsed parsed, if_pos there, keeps.found]
  dsimp only
  rw [keeps.blockSize, if_neg limited, if_neg (show ¬ size > maxBlock from Nat.not_lt.mpr size_le),
    keeps.headerSize, List.drop_take]
  -- The decoder it makes stands in front of the first section.
  let d : Decoder :=
    { io := Stream.whole [], memLimit := memLimit, hdr := c.header, codec := codec
      dctx := codec.dctxNew.getD .null, ddict := none
      checksumLen := fmtChecksumSize c.header.checksumId, rawCap := size
      cbufCap := codec.bound size, raw := [], rawLen := 0, rawPos := 0, rawOffset := 0
      streamCk := xxh64Init 0, sawEob := false, sticky := .ok, calls := [] }
  refine ⟨d, rfl, ?_, rfl, rfl, rfl, rfl⟩
  exact
    { hdr := rfl, coder := rfl, dctx := keeps.dctx, ddict := rfl, checksumLen := rfl
      rawCap := rfl, cbufCap := rfl, rawOffset := rfl, going := rfl, done := rfl }

/-- Behind the front matter of a file that is cut off `k` bytes on, the decoder stands in front of the
blocks. -/
theorem Container.Keeps.behind_front (keeps : c.Keeps zstd codec GoodD size xs dict ddict)
    {d : Decoder} (between : d.Between c.header codec GoodD size none 0)
    (limit : MemoryAllows d.memLimit size dict) :
    ∃ d' : Decoder, d'.Between c.header codec GoodD size ddict 0 ∧
      ∀ k, fileHeaderSize ≤ k →
        Decoder.blocks zstd (d.over ((c.bytes.drop fileHeaderSize).take (k - fileHeaderSize))) =
          if c.front.length ≤ k then
            Decoder.blocks zstd (d'.over ((c.blocks.flatMap FileBlock.bytes ++
              (endOfBlocks ++ (c.index ++ fmtFooterStore c.footer))).take (k - c.front.length)))
          else ([], .truncated) := by
  have front := c.length_front
  have recorded := keeps.dict
  rw [c.drop_header]
  generalize c.dict = record at recorded front
  cases recorded with
  | none =>
    -- The blocks follow the header.
    rw [Option.map_none, Option.getD_none, List.length_nil, Nat.add_zero] at front
    refine ⟨d, between, fun k header => ?_⟩
    rw [Option.map_none, Option.getD_none, List.nil_append, front, if_pos header]
  | @some x digest r given =>
    rw [Option.map_some, Option.getD_some] at front
    obtain ⟨d', between', goes⟩ := between.dict given (by
      rcases limit with none | ⟨_, enough⟩
      · exact .inl none
      · exact .inr (enough x rfl))
    refine ⟨d', between', fun k header => ?_⟩
    rw [Option.map_some, Option.getD_some, goes, front, ← Nat.sub_sub]
    refine if_congr ?_ rfl rfl
    omega

/-- The blocks that a decoder finds in a file that is cut off `k` bytes on. -/
theorem Container.Holds.blocks_front (holds : c.Holds zstd codec GoodD size xs dict ddict)
    {d : Decoder} (between : d.Between c.header codec GoodD size none 0)
    (limit : MemoryAllows d.memLimit size dict) {k : Nat} (header : fileHeaderSize ≤ k) :
    Decoder.blocks zstd (d.over ((c.bytes.drop fileHeaderSize).take (k - fileHeaderSize))) =
      (xs.take (c.complete k * size), c.cutStatus k) := by
  have ended : c.endPosition =
      c.front.length + (c.blocks.flatMap FileBlock.bytes).length + recordHeaderSize := by
    rw [Container.endPosition, Container.position, List.take_length]
  obtain ⟨d', between', goes⟩ := holds.behind_front between limit
  rw [goes k header, ← allBlocks_take xs holds.positive, Container.cutStatus, ended,
    Container.complete]
  by_cases complete : c.front.length ≤ k
  · rw [if_pos complete, Decoder.Between.blocks holds.blocks between' holds.placed]
    refine congrArg (Prod.mk _) (if_congr ?_ rfl rfl)
    omega
  · -- The cut is in front of the blocks, and each of them has some bytes.
    have none : wholeBlocks c.blocks 0 = 0 := by
      cases c.blocks with
      | nil => rfl
      | cons b rest =>
        refine if_neg ?_
        have size : blockHeaderSize = 24 := rfl
        rw [FileBlock.bytes, List.length_append, List.length_append, length_fmtBlockStore]
        omega
    rw [if_neg complete, Nat.sub_eq_zero_of_le (Nat.le_of_not_le complete), none, List.take_zero,
      if_neg (by omega)]
    rfl

/-- Reads of a file that is cut off `k` bytes on return the blocks that a decoder finds behind the
header, however it is delivered. -/
theorem Container.Keeps.reads_ahead (keeps : c.Keeps zstd codec GoodD size xs dict ddict)
    (limit : MemoryAllows memLimit size dict) {src : Source} (never : src.NeverFails) {k : Nat}
    (header : fileHeaderSize ≤ k) (cut : src.rest = c.bytes.take k) {bytes : Bytes} {st : XqStatus}
    (blocks : ∀ d : Decoder, d.Between c.header codec GoodD size none 0 →
      MemoryAllows d.memLimit size dict → Decoder.blocks zstd
        (d.over ((c.bytes.drop fileHeaderSize).take (k - fileHeaderSize))) = (bytes, st))
    (lens : List Nat) : Xq.decodeReads zstd src memLimit lens = .ok (readsOf st lens bytes) := by
  -- A source that does not fail is read as one buffer.
  rw [decodeReads_whole zstd never, decodeWhole, cut]
  obtain ⟨d, created, between, memory, good, empty, none⟩ := keeps.created
    (limit.imp_right And.left) header
  have inBlock : (d.over ((c.bytes.drop fileHeaderSize).take (k - fileHeaderSize))).InBlock := by
    refine ⟨?_, ?_⟩
    · show d.rawLen = d.raw.length
      rw [none, empty]
      rfl
    · exact le_of_eq between.done
  have ahead := (Decoder.ahead_over between.done empty _).trans
    (blocks d between (memory ▸ limit))
  rw [created]
  refine congrArg Except.ok ?_
  rw [inBlock.reads_eq good, ahead]

/-- Reads of a file that is cut off `k` bytes on, however it is delivered. -/
theorem Container.Holds.decodeReads (holds : c.Holds zstd codec GoodD size xs dict ddict)
    (limit : MemoryAllows memLimit size dict) {src : Source} (never : src.NeverFails) {k : Nat}
    (cut : src.rest = c.bytes.take k) (lens : List Nat) :
    Xq.decodeReads zstd src memLimit lens =
      if fileHeaderSize ≤ k then
        .ok (readsOf (c.cutStatus k) lens (xs.take (c.complete k * size)))
      else .error .truncated := by
  by_cases header : fileHeaderSize ≤ k
  · rw [if_pos header]
    exact holds.reads_ahead limit never header cut
      (fun d between limit => holds.blocks_front between limit header) lens
  · -- The cut comes inside the header.
    rw [if_neg header, decodeReads_whole zstd never, decodeWhole, cut,
      readFileHeader_short (by rw [List.length_take]; omega)]
    rfl

end Files

section Streaming

variable {zstd : Option CodecVt} {sink : Nat → Bytes → Bytes → XqStatus} {p : XqParams}
  {rawSizeHint : UInt64} {m : Machine} {dict : Option XqDict} {e e' : Encoder}

/--
The round trip: reads of a finished file return what was written. Of a file that is cut off anywhere,
a read returns its bytes while they stand in the blocks that are complete; the first read that asks
for more than is left of these reports the cut instead, and so does every later one.

Neither the number of threads nor the pieces it was written in matter, and neither do the pieces it
is delivered in.
-/
theorem finished_decodeReads (created : encoderCreate zstd m sink p rawSizeHint dict = .ok e)
    (external : ∀ v ∈ zstd, ∃ GoodC GoodD, v.TakesBack GoodC GoodD)
    (readable : ∀ d ∈ e.dict, d.Readable) {issued : List EncCall} (no_free : .free ∉ issued)
    (finishes : .finish ∈ issued) {results : List XqStatus} {broken : Prop}
    (run : e.Run e.codec.Fresh issued results e' broken)
    (fine : results = List.replicate issued.length .ok)
    (short : (writtenBy issued).length < 2 ^ 64) :
    ∃ c : Container, e'.out = c.bytes ∧ c.Cuts e.blockSize (writtenBy issued) ∧
      ∀ (src : Source) (k memLimit : Nat) (lens : List Nat), src.NeverFails →
        src.rest = e'.out.take k → MemoryAllows memLimit e.blockSize e.dict →
          decodeReads zstd src memLimit lens =
            if fileHeaderSize ≤ k then
              .ok (readsOf (c.cutStatus k) lens
                ((writtenBy issued).take (c.complete k * e.blockSize)))
            else .error .truncated := by
  -- What the run has emitted is a file that holds what was written.
  obtain ⟨c, GoodD, out, _, holds⟩ := Encoder.Run.holds created external readable no_free finishes
    run fine short
  refine ⟨c, out, holds.cuts, fun src k memLimit lens never cut limit => ?_⟩
  rw [out] at cut
  exact holds.decodeReads limit never cut lens

/-- Two blocks in one piece. -/
theorem finished_decodeReads_two : ∃ e,
    encoderCreate none openMachine (fun _ _ _ => .ok) smallParams 4099 none = .ok e ∧
      ∃ c : Container, (e.answers [.write twoBlocks, .finish]).2.out = c.bytes ∧
        c.Cuts e.blockSize twoBlocks ∧
        ∀ (src : Source) (k memLimit : Nat) (lens : List Nat), src.NeverFails →
          src.rest = (e.answers [.write twoBlocks, .finish]).2.out.take k →
            MemoryAllows memLimit e.blockSize e.dict →
              decodeReads none src memLimit lens =
                if fileHeaderSize ≤ k then
                  .ok (readsOf (c.cutStatus k) lens
                    (twoBlocks.take (c.complete k * e.blockSize)))
                else .error .truncated := by
  -- The two blocks are shorter than any limit on the length.
  obtain ⟨e, created, no_dict, _, results, _⟩ := twoBlocks_run
  obtain ⟨no_free, finishes⟩ := twoBlocks_calls
  have decoded := finished_decodeReads created (by simp) (by simp [no_dict]) no_free finishes
    (.single 2) results (by rw [twoBlocks_written, twoBlocks_length]; decide)
  rw [twoBlocks_written] at decoded
  exact ⟨e, created, decoded⟩

end Streaming

section OneShot

variable {zstd : Option CodecVt} {d : Decoder} {st : XqStatus}

/-- One read of a decoder, by what all its reads return. -/
theorem Decoder.read_of_reads {bytes : Bytes}
    (reads : ∀ lens, d.reads zstd lens = readsOf st lens bytes)
    (len : Nat) :
    if st = .ok ∨ len ≤ bytes.length then
      (Decoder.read zstd d len).1 = .ok (bytes.take len) ∧
        ∀ lens, (Decoder.read zstd d len).2.reads zstd lens = readsOf st lens (bytes.drop len)
    else (Decoder.read zstd d len).1 = .error st := by
  -- One read is the first of any list of reads.
  by_cases there : st = .ok ∨ len ≤ bytes.length
  · rw [if_pos there]
    have one (lens : List Nat) := reads (len :: lens)
    simp only [Decoder.reads, readsOf, if_pos there] at one
    exact ⟨(List.cons.inj (one [])).1, fun lens => (List.cons.inj (one lens)).2⟩
  · rw [if_neg there]
    have one := reads [len]
    rw [Decoder.reads, readsOf, if_neg there] at one
    exact (List.cons.inj one).1

/-- What the loop of `xq_decompress` comes to, by what reads return. -/
theorem decompressLoop_eq {cap fuel : Nat} {total bytes : Bytes} (room : total.length ≤ cap)
    (enough : cap - total.length < fuel)
    (reads : ∀ lens, d.reads zstd lens = readsOf st lens bytes) :
    decompressLoop zstd cap fuel total d =
      if cap - total.length < bytes.length then (.dstTooSmall, [])
      else if st = .ok then (.ok, total ++ bytes) else (st, []) := by
  -- The induction is on the rounds; each of them fills some of the room that is left.
  induction fuel generalizing d total bytes with
  | zero => omega
  | succ fuel ih =>
    rw [decompressLoop]
    by_cases full : total.length = cap
    · -- The destination is full, and one more byte would be one too many.
      have probe := Decoder.read_of_reads reads 1
      rw [if_pos full, full, Nat.sub_self]
      rcases Nat.eq_zero_or_pos bytes.length with none | some_byte
      · obtain rfl := List.length_eq_zero_iff.mp none
        rw [List.length_nil, if_neg (Nat.lt_irrefl 0)]
        by_cases fine : st = .ok
        · rw [if_pos (.inl fine)] at probe
          rw [probe.1, if_pos fine, List.append_nil]
          rfl
        · rw [if_neg (by rintro (same | long); exacts [fine same, by cases long])] at probe
          rw [probe, if_neg fine]
      · rw [if_pos (.inr some_byte)] at probe
        have some_probe : bytes.take 1 ≠ [] := by
          intro empty
          have length := congrArg List.length empty
          rw [List.length_take, List.length_nil] at length
          omega
        rw [probe.1, if_pos some_byte]
        exact if_neg some_probe
    · rw [if_neg full]
      have took := Decoder.read_of_reads reads (cap - total.length)
      generalize Decoder.read zstd d (cap - total.length) = answer at took
      obtain ⟨answer, next⟩ := answer
      by_cases there : st = .ok ∨ cap - total.length ≤ bytes.length
      · rw [if_pos there] at took
        obtain ⟨rfl, later⟩ := took
        dsimp only at later ⊢
        have length : (total ++ bytes.take (cap - total.length)).length =
            total.length + min (cap - total.length) bytes.length := by
          rw [List.length_append, List.length_take]
        by_cases nothing : bytes.take (cap - total.length) = []
        · -- Only a stream that has come to its end delivers nothing.
          have none := congrArg List.length nothing
          rw [List.length_take, List.length_nil] at none
          obtain rfl : bytes = [] := List.length_eq_zero_iff.mp (by omega)
          have fine : st = .ok := by
            rcases there with fine | long
            · exact fine
            · rw [List.length_nil] at long
              omega
          rw [if_pos nothing, List.length_nil, if_neg (Nat.not_lt_zero _), if_pos fine,
            List.append_nil]
        · have some_byte := List.length_pos_iff.mpr nothing
          rw [List.length_take] at some_byte
          rw [if_neg nothing, ih (by omega) (by omega) later, length, List.length_drop,
            List.append_assoc, List.take_append_drop]
          refine if_congr ?_ rfl rfl
          omega
      · obtain ⟨bad, short⟩ := not_or.mp there
        rw [if_neg there] at took
        obtain rfl : answer = .error st := took
        rw [if_neg (by omega), if_neg bad]

/-- A source that hands out one buffer does not fail. -/
theorem memSrc_neverFails (bytes : Bytes) : (memSrc bytes).NeverFails := by
  -- It grants whatever is asked for.
  intro n len
  rfl

/-- `xq_decompress`, by what reads of the same bytes return. -/
theorem xqDecompress_eq {file bytes : Bytes} {memLimit : Nat}
    (reads : ∀ lens, decodeReads zstd (memSrc file) memLimit lens = .ok (readsOf st lens bytes))
    (cap : Nat) :
    xqDecompress zstd cap file memLimit =
      if cap < bytes.length then (.dstTooSmall, [])
      else if st = .ok then (.ok, bytes) else (st, []) := by
  -- A decoder that reads return something from has been created.
  have started : ∃ d, decoderCreate zstd (memSrc file) memLimit = .ok d ∧
      ∀ lens, d.reads zstd lens = readsOf st lens bytes := by
    cases created : decoderCreate zstd (memSrc file) memLimit with
    | error failed =>
      have none := reads []
      rw [decodeReads, created] at none
      cases none
    | ok d =>
      refine ⟨d, rfl, fun lens => ?_⟩
      have answers := reads lens
      rw [decodeReads, created] at answers
      exact Except.ok.inj answers
  obtain ⟨d, created, reads⟩ := started
  have looped : decompressLoop zstd cap (cap + 1) [] d = _ :=
    decompressLoop_eq (by simp) (by simp) reads
  unfold xqDecompress
  rw [created]
  exact looped

/-- A decoder that cannot be created ends the call. -/
theorem xqDecompress_failed {file : Bytes} {memLimit : Nat}
    (refused : decodeReads zstd (memSrc file) memLimit [] = .error st) (cap : Nat) :
    xqDecompress zstd cap file memLimit = (st, []) := by
  -- Reading nothing fails only where the decoder cannot be created.
  unfold xqDecompress
  rw [decodeReads] at refused
  cases created : decoderCreate zstd (memSrc file) memLimit with
  | error failed =>
    rw [created] at refused
    obtain rfl : failed = st := Except.error.inj refused
    rfl
  | ok d =>
    rw [created] at refused
    cases refused

variable {c : Container} {codec : CodecVt} {GoodD : Dctx → Prop} {size : Nat} {xs : Bytes}
  {dict : Option XqDict} {ddict : Option Ddict}

/-- Once the end of the blocks is there, all of them are complete. -/
theorem Container.Cuts.take_complete (cuts : c.Cuts size xs) (positive : 0 < size) {k : Nat}
    (ended : c.endPosition ≤ k) : xs.take (c.complete k * size) = xs := by
  -- The last block ends in front of the END_OF_BLOCKS record.
  have front : c.front.length ≤ c.position c.blocks.length := Nat.le_add_right _ _
  rw [Container.endPosition] at ended
  have all : (allBlocks size xs).length ≤ c.complete k := by
    rw [← cuts.count]
    exact (c.complete_iff le_rfl (by omega)).mpr (by omega)
  rw [← allBlocks_take xs positive, List.take_of_length_le all, allBlocks_flatten]

/-- `xq_decompress` on a file that is cut off `k` bytes on. -/
theorem Container.Holds.xqDecompress (holds : c.Holds zstd codec GoodD size xs dict ddict)
    {memLimit : Nat} (limit : MemoryAllows memLimit size dict) (room k : Nat) :
    (c.endPosition ≤ k → Xq.xqDecompress zstd room (c.bytes.take k) memLimit =
      if room < xs.length then (.dstTooSmall, []) else (.ok, xs)) ∧
    (k < c.endPosition → xs.length ≤ room →
      Xq.xqDecompress zstd room (c.bytes.take k) memLimit = (.truncated, [])) := by
  have reads := holds.decodeReads limit (memSrc_neverFails (c.bytes.take k)) rfl
  have header : fileHeaderSize ≤ c.endPosition := by
    rw [Container.endPosition, Container.position, c.length_front]
    omega
  constructor
  · -- The end of the blocks is there, so everything is.
    intro ended
    simp only [if_pos (header.trans ended), holds.cuts.take_complete holds.positive ended,
      Container.cutStatus, if_pos ended] at reads
    rw [xqDecompress_eq reads, if_pos rfl]
  · intro cut fits
    by_cases whole : fileHeaderSize ≤ k
    · have short : ¬ room < (xs.take (c.complete k * size)).length := by
        rw [List.length_take]
        omega
      simp only [if_pos whole, Container.cutStatus, if_neg (Nat.not_le.mpr cut)] at reads
      rw [xqDecompress_eq reads, if_neg short, if_neg (by decide)]
    · simp only [if_neg whole] at reads
      exact xqDecompress_failed (reads []) room

variable {m : Machine} {dictHeap : Heap} {cap : Nat} {src out : Bytes} {params : Option XqParams}

/-- A successful `xq_compress`, with any number of threads: the steps of its encoder. -/
inductive CompressRun (zstd : Option CodecVt) (m : Machine) (dictHeap : Heap) (cap : Nat)
    (src : Bytes) (p : XqParams) : Bytes → Prop
  | ok {dict : Option XqDict} {e e' : Encoder} {broken : Prop} :
    compressDict zstd dictHeap src p = .ok dict →
    encoderCreate zstd m (memSink cap) p (UInt64.ofNat src.length) dict = .ok e →
    e.Run e.codec.Fresh [.write src, .finish] [.ok, .ok] e' broken →
    CompressRun zstd m dictHeap cap src p e'.out

/-- A creation that fails says why. -/
theorem encoderCreate_error {sink : Nat → Bytes → Bytes → XqStatus} {p : XqParams}
    {rawSizeHint : UInt64} {dict : Option XqDict} {failed : XqStatus × Bytes}
    (refused : encoderCreate zstd m sink p rawSizeHint dict = .error failed) : failed.1 ≠ .ok := by
  unfold encoderCreate at refused
  dsimp only at refused
  split at refused
  · -- The parameters are refused.
    rename_i bad
    cases refused
    exact bad
  split at refused
  · -- No codec has the id.
    cases refused
    decide
  split at refused
  · -- The raw buffer is not granted.
    cases refused
    decide
  split at refused
  · cases refused
  · -- One of the parts cannot be created.
    rename_i bad
    cases refused
    exact bad

/-- A dictionary made of the front of a buffer is one the readers take; a failure to make it says
why. -/
theorem dictBuildPrefix_cases (heap : Heap) (src : Bytes) {want : Nat} (most : want ≤ dictSizeMax) :
    (∃ d, dictBuildPrefix heap src want = .ok d ∧ d.Readable ∧ d.bytes.length ≤ want) ∨
      ∃ st, dictBuildPrefix heap src want = .error st ∧ st ≠ .ok := by
  rw [dictBuildPrefix]
  by_cases nothing : want = 0
  · rw [if_pos nothing]
    exact .inr ⟨_, rfl, by decide⟩
  rw [if_neg nothing]
  dsimp only
  -- The dictionary is the front of the buffer, as much of it as is wanted and there.
  have small : (if src.length < want then src.length else want) ≤ want := by
    split
    all_goals omega
  generalize (if src.length < want then src.length else want) = n at small ⊢
  by_cases empty : n = 0
  · rw [if_pos empty]
    exact .inr ⟨_, rfl, by decide⟩
  rw [if_neg empty]
  have length : (src.take n).length ≤ want := (List.length_take_le n src).trans small
  cases heap.malloc.1 with
  | none => exact .inr ⟨_, rfl, by decide⟩
  | some _ => exact .inl ⟨_, rfl, ⟨length.trans most, (by decide : (1 : UInt32) ≠ 0),
      (by decide : dictKindPrefix ≤ dictKindTrained)⟩, length⟩

/-- So is the dictionary of the one-shot call. -/
theorem compressDict_cases (zstd : Option CodecVt) (dictHeap : Heap) (src : Bytes) (p : XqParams) :
    (∃ dict, compressDict zstd dictHeap src p = .ok dict ∧
      ∀ d ∈ dict, d.Readable ∧ d.bytes.length ≤ dictSizeFor src.length p.dictSize) ∨
    ∃ st, compressDict zstd dictHeap src p = .error st ∧ st ≠ .ok := by
  -- A dictionary is made only where the parameters ask for one.
  rw [compressDict]
  split
  · rcases dictBuildPrefix_cases dictHeap src (dictSizeFor_le src.length p.dictSize) with
      ⟨d, built, readable⟩ | ⟨st, failed, bad⟩
    · rw [built]
      refine .inl ⟨some d, rfl, fun d' member => ?_⟩
      obtain rfl := Option.some.inj member
      exact readable
    · rw [failed]
      exact .inr ⟨st, rfl, bad⟩
  · exact .inl ⟨none, rfl, fun d member => by cases member⟩

/-- With one thread it is what `xq_compress` returns. -/
theorem compressRun_single (compressed : xqCompress zstd m dictHeap cap src params = (.ok, out)) :
    CompressRun zstd m dictHeap cap src (params.getD paramsDefault) out := by
  -- Each step of the call has succeeded.
  unfold xqCompress at compressed
  dsimp only at compressed
  rcases compressDict_cases zstd dictHeap src (params.getD paramsDefault) with
    ⟨dict, built, _⟩ | ⟨st, failed, bad⟩
  · rw [built] at compressed
    dsimp only at compressed
    cases created : encoderCreate zstd m (memSink cap) (params.getD paramsDefault)
      (UInt64.ofNat src.length) dict with
    | error failed =>
      rw [created] at compressed
      exact (encoderCreate_error created (Prod.mk.inj compressed).1).elim
    | ok e =>
      rw [created] at compressed
      dsimp only at compressed
      have ran : e.run src = (.ok, (e.run src).2) ∧ (e.run src).2.out = out := by
        generalize e.run src = r at compressed
        obtain ⟨st, e'⟩ := r
        cases st
        case ok => exact ⟨rfl, (Prod.mk.inj compressed).2⟩
        all_goals exact absurd (Prod.mk.inj compressed).1 (by decide)
      obtain ⟨ran, rfl⟩ := ran
      obtain ⟨e₁, written, finished⟩ := andThen_eq_ok.mp ran
      have answers : e.answers ([EncCall.write src, .finish].take 2) =
          ([.ok, .ok], (e.run src).2) := by
        show ([(e.write src).1, ((e.write src).2.finish).1], ((e.write src).2.finish).2) = _
        rw [written, finished]
      have run : e.Run e.codec.Fresh [.write src, .finish] _ _ _ := .single 2
      rw [answers] at run
      exact .ok built created run
  · rw [failed] at compressed
    exact (bad (Prod.mk.inj compressed).1).elim

/--
The one-shot round trip: what `xq_compress` has made of a buffer, `xq_decompress` makes into that
buffer again, wherever there is room for it; and of less than all blocks it makes nothing.
-/
theorem xqDecompress_compressRun {p : XqParams}
    (external : ∀ v ∈ zstd, ∃ GoodC GoodD, v.TakesBack GoodC GoodD)
    (compressed : CompressRun zstd m dictHeap cap src p out) (short : src.length < 2 ^ 64) :
    ∃ c : Container, out = c.bytes ∧ c.Cuts p.effectiveBlockSize src ∧
      ∀ room k memLimit,
        (memLimit = 0 ∨ p.effectiveBlockSize ≤ memLimit ∧
          dictPayloadHeader + dictSizeFor src.length p.dictSize ≤ memLimit) →
        (c.endPosition ≤ k → xqDecompress zstd room (out.take k) memLimit =
          if room < src.length then (.dstTooSmall, []) else (.ok, src)) ∧
        (k < c.endPosition → src.length ≤ room →
          xqDecompress zstd room (out.take k) memLimit = (.truncated, [])) := by
  obtain ⟨built, created, run⟩ := compressed
  rename_i dict e e' broken
  obtain ⟨record, fresh, packed⟩ := encoderCreate_packed created
  -- The dictionary, if there is one, is short enough for the readers.
  have readable : ∀ d ∈ dict, d.Readable ∧ d.bytes.length ≤ dictSizeFor src.length p.dictSize := by
    rcases compressDict_cases zstd dictHeap src p with ⟨dict', built', readable⟩ | ⟨st, failed, _⟩
    · obtain rfl := Except.ok.inj (built.symm.trans built')
      exact readable
    · rw [failed] at built
      cases built
  have own (d : XqDict) (here : d ∈ e.dict) := readable d (packed.given d here)
  have written : writtenBy [.write src, .finish] = src := List.append_nil src
  obtain ⟨c, GoodD, bytes, _, holds⟩ := Encoder.Run.holds created external
    (fun d here => (own d here).1) (by simp) (by simp) run rfl (by rwa [written])
  rw [written, fresh.blockSize] at holds
  refine ⟨c, bytes, holds.cuts, fun room k memLimit limit => ?_⟩
  rw [bytes]
  refine holds.xqDecompress ?_ room k
  rcases limit with unlimited | ⟨size, sum⟩
  · exact .inl unlimited
  · refine .inr ⟨size, fun d here => ?_⟩
    have := (own d here).2
    omega

/-- Two blocks and back. -/
theorem xqDecompress_compressRun_two : ∃ out,
    xqCompress none openMachine openMachine.heap 8192 twoBlocks (some smallParams) = (.ok, out) ∧
      ∃ c : Container, out = c.bytes ∧ c.Cuts smallParams.effectiveBlockSize twoBlocks ∧
        ∀ room k memLimit,
          (memLimit = 0 ∨ smallParams.effectiveBlockSize ≤ memLimit ∧
            dictPayloadHeader + dictSizeFor twoBlocks.length smallParams.dictSize ≤ memLimit) →
          (c.endPosition ≤ k → xqDecompress none room (out.take k) memLimit =
            if room < twoBlocks.length then (.dstTooSmall, []) else (.ok, twoBlocks)) ∧
          (k < c.endPosition → twoBlocks.length ≤ room →
            xqDecompress none room (out.take k) memLimit = (.truncated, [])) := by
  -- The call is evaluated as far as its status.
  have ran : (xqCompress none openMachine openMachine.heap 8192 twoBlocks
      (some smallParams)).1 = .ok := by
    decide +kernel
  generalize called : xqCompress none openMachine openMachine.heap 8192 twoBlocks
    (some smallParams) = result at ran
  obtain ⟨st, out⟩ := result
  obtain rfl : st = .ok := ran
  exact ⟨out, rfl, xqDecompress_compressRun (by simp) (compressRun_single called)
    (by rw [twoBlocks_length]; decide)⟩

end OneShot

end Xq
