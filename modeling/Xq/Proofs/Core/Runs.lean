import Xq.Core.Runs
import Xq.Proofs.Format.Parsers

/-! Invariant rules of the decode paths: what the elementary updates keep, whole runs keep. -/

namespace Xq

/-- A successful call delivers the next bytes of the stream, and no more than were asked for. -/
theorem Source.read_ok {s s' : Source} {len : Nat} {got : Bytes}
    (read : s.read len = (.ok, got, s')) : got.length ≤ len ∧ s.rest = got ++ s'.rest := by
  -- What a call delivers is cut off the front of the rest.
  simp only [Source.read] at read
  split at read
  · rename_i failed
    exact absurd (congrArg Prod.fst read) failed
  · simp only [Prod.mk.injEq, true_and] at read
    obtain ⟨rfl, rfl⟩ := read
    refine ⟨?_, (List.take_append_drop _ _).symm⟩
    rw [List.length_take]
    omega

/-- A read that reports success has delivered what was asked for. -/
theorem Stream.readLoop_length {fuel n : Nat} {dst got : Bytes} {d d' : Stream} (enough : n < fuel)
    (done : Stream.readLoop fuel n dst d = (.ok, got, d')) : got.length = dst.length + n := by
  induction fuel generalizing n dst d with
  | zero => omega
  | succ fuel ih =>
    rw [Stream.readLoop] at done
    split at done
    · cases done
      omega
    split at done
    · cases done
    split at done
    · rename_i chunk src read
      split at done
      · cases done
      · -- The piece is shorter than what is missing, and the rest arrives by induction.
        have short := (Source.read_ok read).1
        have rest := ih (by omega) done
        rw [List.length_append] at rest
        omega
    · rename_i failed _
      cases done
      exact (failed rfl).elim

theorem Stream.readExact_length {n : Nat} {got : Bytes} {d d' : Stream}
    (done : d.readExact n = (.ok, got, d')) : got.length = n := by
  -- What the window does not give is read directly.
  have length := Stream.readLoop_length (by omega) done
  simp only [List.length_take] at length
  omega

/-- A property of decoders that every elementary update keeps. -/
structure Decoder.Kept (zstd : Option CodecVt) (P : Decoder → Prop) : Prop where
  io : ∀ {d : Decoder} (io : Stream), P d → P { d with io := io }
  sawEob : ∀ {d : Decoder}, P d → P { d with sawEob := true }
  rawPos : ∀ {d : Decoder} (n : Nat), P d → P { d with rawPos := n }
  sticky : ∀ {d : Decoder} (st : XqStatus), P d → P { d with sticky := st }
  loadDict : ∀ {d : Decoder} (info : DictInfo) (stored : Bytes), P d →
    P (Decoder.loadDict zstd d info stored).2
  decodePayload : ∀ {d : Decoder} {b : BlockHeader} {payload : Bytes},
    b.rawSize.toNat ≤ d.rawCap → payload.length = b.storedSize.toNat → P d →
    P (Decoder.decodePayload zstd d b payload).2

section Decoder

variable {zstd : Option CodecVt} {P : Decoder → Prop}

theorem Decoder.Kept.readDictRecord (kept : Decoder.Kept zstd P) {d : Decoder} (holds : P d)
    (rhdr : Bytes) (r : RecordHeader) : P (Decoder.readDictRecord zstd d rhdr r).2 := by
  -- Only the stream moves before the dictionary is loaded.
  unfold Decoder.readDictRecord
  split; · exact holds
  split; · exact holds
  split; · exact holds
  split; · exact holds
  split
  · dsimp only
    split; · exact kept.io _ holds
    split
    · exact kept.io _ holds
    split
    · exact kept.io _ holds
    · exact kept.loadDict _ _ (kept.io _ holds)
  · exact kept.io _ holds

theorem Decoder.Kept.handleRecord (kept : Decoder.Kept zstd P) {d : Decoder} (holds : P d)
    (hdrbytes : Bytes) : P (Decoder.handleRecord zstd d hdrbytes).2 := by
  unfold Decoder.handleRecord
  split
  · exact holds
  have consumed := kept.io (d.io.consume recordHeaderSize) holds
  dsimp only
  split
  · -- END_OF_BLOCKS only raises the flag.
    split; · exact consumed
    split; · exact consumed
    exact kept.sawEob consumed
  split
  · exact kept.readDictRecord consumed _ _
  split
  · exact consumed
  · exact kept.io _ holds

theorem Decoder.Kept.readBlock (kept : Decoder.Kept zstd P) {d : Decoder} (holds : P d)
    (b : BlockHeader) : P (Decoder.readBlock zstd d b).2 := by
  -- The payload is decoded only when it fits and its checksum holds.
  unfold Decoder.readBlock
  split; · exact holds
  split; · exact holds
  rename_i fits
  split; · exact holds
  split
  · rename_i payload io read
    split
    · dsimp only
      split
      · exact kept.io _ holds
      · exact kept.decodePayload (d := { d with io := _ }) (by simpa using fits)
          (Stream.readExact_length read) (kept.io _ holds)
    · exact kept.io _ holds
  · exact kept.io _ holds

/-- The loop of `next_block` keeps what its branches keep. -/
theorem Decoder.Kept.nextBlockLoop (kept : Decoder.Kept zstd P) (fuel : Nat) {d : Decoder}
    (holds : P d) : P (Decoder.nextBlockLoop zstd fuel d).2 := by
  induction fuel generalizing d with
  | zero => exact holds
  | succ fuel ih =>
    rw [Decoder.nextBlockLoop]
    split
    · exact holds
    split
    · rename_i io _
      have filled := kept.io io holds
      dsimp only
      split
      · -- A record: the loop goes on behind it.
        split
        · rename_i io _
          have record := kept.handleRecord (kept.io io filled) (io.rbuf.take recordHeaderSize)
          split
          · rename_i d' handled
            rw [handled] at record
            exact ih record
          · rename_i handled
            rw [handled] at record
            exact record
        · exact kept.io _ holds
      · split
        · split
          · exact kept.io _ holds
          · exact kept.readBlock (kept.io _ (kept.io _ holds)) _
        · exact kept.io _ holds
    · exact kept.io _ holds

theorem Decoder.Kept.readLoop (kept : Decoder.Kept zstd P) (len fuel : Nat) (out : Bytes)
    {d : Decoder} (holds : P d) : P (Decoder.readLoop zstd len fuel out d).2 := by
  -- The induction is on the rounds: each copies, or fetches the next block first.
  induction fuel generalizing out d with
  | zero => exact holds
  | succ fuel ih =>
    rw [Decoder.readLoop]
    split
    · split
      · split
        · exact holds
        have next := kept.nextBlockLoop (d.remaining + 1) holds
        rw [← Decoder.nextBlock] at next
        split
        · rename_i d' block
          rw [block] at next
          split
          · exact next
          · exact ih _ (kept.rawPos _ next)
        · rename_i block
          rw [block] at next
          exact kept.sticky _ next
      · exact ih _ (kept.rawPos _ holds)
    · exact holds

/-- A decoder that was created: nothing is decoded yet, and its header passed every test. -/
theorem decoderCreate_ok {zstd : Option CodecVt} {src : Source} {memLimit : Nat} {d : Decoder}
    (created : decoderCreate zstd src memLimit = .ok d) :
    ∃ io hdr codec, codecGet zstd hdr.codecId = some codec ∧ hdr.blockSize ≤ maxBlock ∧
      d = { io := io, memLimit := memLimit, hdr := hdr, codec := codec,
            dctx := codec.dctxNew.getD .null, ddict := none,
            checksumLen := fmtChecksumSize hdr.checksumId, rawCap := hdr.blockSize,
            cbufCap := codec.bound hdr.blockSize, raw := [], rawLen := 0, rawPos := 0,
            rawOffset := 0, streamCk := xxh64Init 0, sawEob := false, sticky := .ok,
            calls := [] } := by
  -- Each of the tests has passed.
  unfold decoderCreate readFileHeader at created
  split at created
  · split at created
    · cases created
    · dsimp only at created
      split at created
      · split at created
        · cases created
        · rename_i found
          obtain ⟨_, created⟩ := guard_eq_ok.mp created
          obtain ⟨fits, created⟩ := guard_eq_ok.mp created
          cases created
          exact ⟨_, _, _, found, Nat.le_of_not_lt fits, rfl⟩
      · cases created
  · cases created

/-- What a fresh decoder has and every update keeps holds over every run. -/
theorem DecoderRun.invariant (kept : Decoder.Kept zstd P) {src : Source} {memLimit : Nat}
    (fresh : ∀ d, decoderCreate zstd src memLimit = .ok d → P d) {d : Decoder}
    (run : DecoderRun zstd src memLimit d) : P d := by
  -- The induction is on the calls of the run.
  induction run with
  | create created => exact fresh _ created
  | nextBlock _ holds => exact kept.nextBlockLoop _ holds
  | taken rawPos _ holds => exact kept.rawPos rawPos holds
  | read len _ holds =>
    unfold Decoder.read
    split
    · exact holds
    · exact kept.readLoop _ _ _ holds

end Decoder

/-- A block decoded in the reader's own context, as a verification does for each of them. -/
def Reader.decodeOwn (zstd : Option CodecVt) (r : Reader) (bi : Nat) : Reader :=
  { r with dctx := (Reader.decodeBlockSlot zstd r r.dctx bi).2.dctx
           calls := r.calls ++ (Reader.decodeBlockSlot zstd r r.dctx bi).2.call.toList }

/-- A property of readers that loading the metadata keeps. -/
structure Reader.KeptLoading (zstd : Option CodecVt) (P : Reader → Prop) : Prop where
  loadDict : ∀ {r : Reader} (memLimit : Nat) (payload : Bytes), P r →
    P (Reader.loadDict zstd r memLimit payload).2

/-- A property of readers that every elementary update keeps. -/
structure Reader.Kept (zstd : Option CodecVt) (P : Reader → Prop) : Prop
    extends Reader.KeptLoading zstd P where
  buffers : ∀ {r : Reader} (opts : Option ReaderOpts) (cpus : Nat), P r →
    P (r.setupBuffers opts cpus).2
  blockCopy : ∀ {r : Reader} (bi within take : Nat), P r →
    P (Reader.blockCopy zstd r bi within take).2
  blockOwn : ∀ {r : Reader} (bi : Nat), P r → P (Reader.decodeOwn zstd r bi)

section Reader

variable {zstd : Option CodecVt} {P : Reader → Prop}

theorem Reader.KeptLoading.metaLoop (kept : Reader.KeptLoading zstd P) (memLimit fuel : Nat)
    (p : Bytes) {r : Reader} (holds : P r) : P (Reader.metaLoop zstd memLimit fuel p r).2 := by
  induction fuel generalizing p r with
  | zero => exact holds
  | succ fuel ih =>
    rw [Reader.metaLoop]
    split; · exact holds
    split
    · exact holds
    split; · exact holds
    dsimp only
    split; · exact holds
    split
    · -- Only a dictionary record changes the reader.
      rename_i rh _ _ _ _
      have loaded := kept.loadDict memLimit ((p.drop recordHeaderSize).take rh.size.toNat) holds
      split
      · rename_i load
        rw [load] at loaded
        exact ih _ loaded
      · rename_i load
        rw [load] at loaded
        exact loaded
    split
    · exact holds
    · exact ih _ holds

theorem Reader.KeptLoading.loadMeta (kept : Reader.KeptLoading zstd P) (memLimit : Nat)
    {r : Reader} (holds : P r) : P (Reader.loadMeta zstd r memLimit).2 := by
  -- The tests leave the reader alone, and the walk keeps the property.
  unfold Reader.loadMeta
  dsimp only
  split; · exact holds
  split; · exact holds
  split; · exact holds
  split; · exact holds
  split
  · rename_i base _
    have walked := kept.metaLoop memLimit base.length base holds
    split
    · rename_i walk
      rw [walk] at walked
      split
      · exact walked
      · exact walked
    · rename_i walk
      rw [walk] at walked
      exact walked
  · exact holds

theorem Reader.Kept.preadLoop (kept : Reader.Kept zstd P) (off n fuel : Nat) (out : Bytes)
    {r : Reader} (holds : P r) : P (Reader.preadLoop zstd off n fuel out r).2 := by
  -- The induction is on the rounds, and each copies from one block.
  induction fuel generalizing out r with
  | zero => exact holds
  | succ fuel ih =>
    rw [Reader.preadLoop]
    split
    · split
      · exact holds
      · rename_i bi _
        dsimp only
        have copied := kept.blockCopy bi
          (off + out.length - (r.entryAt bi).rawOffset.toNat) (n - out.length) holds
        split
        · rename_i copy
          rw [copy] at copied
          exact copied
        · rename_i copy
          rw [copy] at copied
          split
          · exact copied
          · exact ih _ copied
    · exact holds

theorem Reader.Kept.pread (kept : Reader.Kept zstd P) (n off : Nat) {r : Reader} (holds : P r) :
    P (Reader.pread zstd r n off).2 := by
  -- Only the loop changes the reader.
  unfold Reader.pread
  split; · exact holds
  split; · exact holds
  exact kept.preadLoop _ _ _ _ holds

theorem Reader.Kept.verifyLoop (kept : Reader.Kept zstd P) (left i : Nat) (v : VerifyRun)
    {r : Reader} (holds : P r) : P (Reader.verifyLoop zstd left i v r).2 := by
  -- The induction is on the blocks that are left.
  induction left generalizing i v r with
  | zero => exact holds
  | succ left ih => exact ih _ _ (kept.blockOwn i holds)

theorem Reader.Kept.verify (kept : Reader.Kept zstd P) {r : Reader} (holds : P r) :
    P (Reader.verify zstd r).2.2 :=
  kept.verifyLoop r.blockCount 0 _ holds

/-- What a reader starts with and every update keeps holds over every run. -/
theorem ReaderRun.invariant (kept : Reader.Kept zstd P) {file : Bytes}
    (fresh : ∀ hdr footer codec ip entries, codecGet zstd hdr.codecId = some codec →
      P (readerBlank file hdr footer codec ip entries)) {r : Reader}
    (run : ReaderRun zstd file r) : P r := by
  -- The induction is on the calls of the run.
  induction run with
  | index _ found _ => exact fresh _ _ _ _ _ found
  | loadMeta memLimit _ holds => exact kept.loadMeta memLimit holds
  | buffers opts cpus _ holds => exact kept.buffers opts cpus holds
  | pread n off _ holds => exact kept.pread n off holds
  | verify _ holds => exact kept.verify holds

end Reader

/-- A property of repair contexts that every elementary update keeps. -/
structure RepairCtx.Kept (zstd : Option CodecVt) (P : RepairCtx → Prop) : Prop where
  loadDictRecord : ∀ {c : RepairCtx} (rh payload : Bytes), P c →
    P (RepairCtx.loadDictRecord zstd c rh payload).2
  decodeAt : ∀ {c : RepairCtx} (off : Nat) (b : BlockHeader), P c →
    P (RepairCtx.decodeAt zstd c off b).2

section Repair

variable {zstd : Option CodecVt} {P : RepairCtx → Prop}

theorem RepairCtx.Kept.loadDictLoop (kept : RepairCtx.Kept zstd P) (scanTo fuel off : Nat)
    {c : RepairCtx} (holds : P c) : P (RepairCtx.loadDictLoop zstd scanTo fuel off c).2 := by
  -- The loop passes over records until it comes to a dictionary.
  induction fuel generalizing off with
  | zero => exact holds
  | succ fuel ih =>
    rw [RepairCtx.loadDictLoop]
    split
    · dsimp only
      split; · exact holds
      split
      · exact holds
      split; · exact holds
      split
      · split
        · exact holds
        · exact kept.loadDictRecord _ _ holds
      · exact ih _
    · exact holds

/-- What a repair starts with and every update keeps holds over every run. -/
theorem RepairRun.invariant (kept : RepairCtx.Kept zstd P) {file : Bytes}
    (fresh : ∀ c, repairReadHeader zstd file = .ok c → P c) {c : RepairCtx}
    (run : RepairRun zstd file c) : P c := by
  -- The induction is on the steps of the run.
  induction run with
  | header read => exact fresh _ read
  | dict scanFrom scanTo _ holds =>
    unfold RepairCtx.loadDict
    split
    · exact holds
    · exact kept.loadDictLoop _ _ _ holds
  | block off b _ holds => exact kept.decodeAt off b holds

end Repair

end Xq
