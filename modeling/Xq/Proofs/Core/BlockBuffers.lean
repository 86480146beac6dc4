import Xq.Proofs.Codec.Within
import Xq.Proofs.Core.Runs
import Xq.Proofs.Format.RoundTrip

/-! How much each decode path writes into its block buffer, against the size it was given. -/

namespace Xq

variable {zstd : Option CodecVt}

/-- The payload step stays within the buffer when the codecs do and a stored block fits. -/
theorem blockPayload_within (external : ∀ c ∈ zstd, c.WithinCap) (dctx : Dctx)
    (ddict : Option Ddict) {cap : Nat} {b : BlockHeader} {payload : Bytes}
    (length : payload.length ≤ b.storedSize.toNat) (fits : b.rawSize.toNat ≤ cap) :
    (blockPayload zstd dctx ddict cap b payload).written.length ≤ cap := by
  unfold blockPayload
  split
  · split
    · exact Nat.zero_le cap
    · -- A stored block is copied as it is, and its two sizes agree.
      rename_i agree
      have same : b.storedSize = b.rawSize := not_not.mp agree
      rw [same] at length
      exact length.trans fits
  · split
    · exact Nat.zero_le cap
    · rename_i found
      dsimp only
      split
      · exact Nat.zero_le cap
      · exact codecGet_withinCap external found _ _ _ _ _

section Sequential

/-- The decoder's block buffer has the size its header announces, and nothing exceeded it. -/
def Decoder.Sized (d : Decoder) : Prop :=
  d.rawCap = d.hdr.blockSize ∧ d.raw.length ≤ d.rawCap

theorem Decoder.sized_kept (external : ∀ c ∈ zstd, c.WithinCap) :
    Decoder.Kept zstd Decoder.Sized where
  io _ holds := holds
  sawEob holds := holds
  rawPos _ holds := holds
  sticky _ holds := holds
  loadDict {d} info stored holds := by
    -- A dictionary touches no buffer, and a payload is decoded within its own.
    unfold Decoder.loadDict
    split
    dsimp only
    split
    · exact holds
    · split
      · exact holds
      · exact holds
  decodePayload {d b payload} fits length holds := by
    have within := blockPayload_within external d.dctx d.ddict (le_of_eq length) fits
    unfold Decoder.decodePayload
    dsimp only
    split
    · exact ⟨holds.1, within⟩
    · exact ⟨holds.1, within⟩

theorem decoderCreate_sized {src : Source} {memLimit : Nat} {d : Decoder}
    (created : decoderCreate zstd src memLimit = .ok d) : d.Sized := by
  -- The capacity is made the block size of the header, and nothing is in the buffer yet.
  obtain ⟨_, _, _, _, _, rfl⟩ := decoderCreate_ok created
  exact ⟨rfl, Nat.zero_le _⟩

/-- The sequential path never writes more into its buffer than the header announces. -/
theorem DecoderRun.sized (external : ∀ c ∈ zstd, c.WithinCap) {src : Source} {memLimit : Nat}
    {d : Decoder} (run : DecoderRun zstd src memLimit d) : d.Sized :=
  run.invariant (Decoder.sized_kept external) fun _ created => decoderCreate_sized created

end Sequential

section RandomAccess

/-- The bound the reader compares raw sizes with is never larger than its buffers. -/
theorem ReaderRun.maxRaw_le {file : Bytes} {r : Reader} (run : ReaderRun zstd file r) :
    r.maxRaw ≤ r.hdr.blockSize := by
  -- Only the set-up of the buffers sets the bound, to the block size itself.
  refine run.invariant (P := fun r => r.maxRaw ≤ r.hdr.blockSize)
    ⟨⟨?_⟩, ?_, ?_, fun _ holds => holds⟩ ?_
  · -- A dictionary leaves it alone.
    intro r memLimit payload holds
    unfold Reader.loadDict
    split
    · exact holds
    split
    · exact holds
    split
    dsimp only
    split
    · exact holds
    split
    · exact holds
    · exact holds
  · intro r opts cpus holds
    unfold Reader.setupBuffers
    dsimp only
    split
    · exact holds
    · exact le_refl _
  · -- So does a block that is decoded or copied.
    intro r bi within take holds
    unfold Reader.blockCopy
    split
    · exact holds
    split
    · exact holds
    dsimp only
    split
    · exact holds
    · exact holds
  · intro hdr footer codec ip entries _
    exact Nat.zero_le _

theorem Reader.decodeBlockSlot_within (external : ∀ c ∈ zstd, c.WithinCap) (r : Reader)
    (dctx : Dctx) (bi : Nat) :
    (Reader.decodeBlockSlot zstd r dctx bi).2.written.length ≤ r.maxRaw := by
  -- Every refusal writes nothing, and the payload is decoded behind the test of its size.
  unfold Reader.decodeBlockSlot
  dsimp only
  split; · exact Nat.zero_le _
  split; · exact Nat.zero_le _
  split
  · split; · exact Nat.zero_le _
    split
    · exact Nat.zero_le _
    split; · exact Nat.zero_le _
    split; · exact Nat.zero_le _
    rename_i fits
    split; · exact Nat.zero_le _
    split; · exact Nat.zero_le _
    split
    · exact Nat.zero_le _
    · exact blockPayload_within external _ _ (List.length_take_le _ _) (by omega)
  · exact Nat.zero_le _

end RandomAccess

section Repair

/-- The bytes `decode_at` stages for a block at an offset. -/
def RepairCtx.staging (c : RepairCtx) (off : Nat) (b : BlockHeader) : Bytes :=
  (c.file.drop off).take (blockHeaderSize + b.storedSize.toNat + c.checksumLen)

/-- A block header that sends `decode_at` past its block buffer: a stored block larger than the
header's block size, which the staging buffer and the file still hold, with a good checksum. -/
def RepairCtx.Overruns (c : RepairCtx) (off : Nat) (b : BlockHeader) : Prop :=
  let total := blockHeaderSize + b.storedSize.toNat + c.checksumLen
  let tmp := (c.staging off b).drop blockHeaderSize
  b.bflags &&& bflagStored ≠ 0 ∧ b.rawSize.toNat > c.hdr.blockSize ∧ total ≤ c.stagingCap ∧
    off + total ≤ c.file.length ∧
    blockChecksumOk c.hdr (tmp.take b.storedSize.toNat) (tmp.drop b.storedSize.toNat)

/-- The parts of a repair context that its file's header decides, and nothing changes later. -/
structure RepairCtx.SameFile (c d : RepairCtx) : Prop where
  file : d.file = c.file
  hdr : d.hdr = c.hdr
  checksumLen : d.checksumLen = c.checksumLen
  maxRaw : d.maxRaw = c.maxRaw
  stagingCap : d.stagingCap = c.stagingCap

/-- Every state of a repair keeps the header, and the sizes, that it began with. -/
theorem RepairRun.sameFile {file : Bytes} {c : RepairCtx} (run : RepairRun zstd file c) :
    ∃ start, repairReadHeader zstd file = .ok start ∧ start.SameFile c := by
  -- Neither a dictionary nor a decoded block changes what was read from the header.
  refine run.invariant
    (P := fun c => ∃ start, repairReadHeader zstd file = .ok start ∧ start.SameFile c) ⟨?_, ?_⟩ ?_
  · rintro c rh payload ⟨start, read, same⟩
    refine ⟨start, read, ?_⟩
    unfold RepairCtx.loadDictRecord
    dsimp only
    split
    · exact same
    split
    · exact same
    split
    · exact { same with }
    split
    · exact { same with }
    · exact { same with }
  · rintro c off b ⟨start, read, same⟩
    refine ⟨start, read, ?_⟩
    unfold RepairCtx.decodeAt
    split
    exact { same with }
  · exact fun c read => ⟨c, read, ⟨rfl, rfl, rfl, rfl, rfl⟩⟩

/-- A fresh repair context is sized by its header. -/
theorem repairReadHeader_sized {file : Bytes} {c : RepairCtx}
    (read : repairReadHeader zstd file = .ok c) :
    c.file = file ∧ c.maxRaw = c.hdr.blockSize ∧ c.checksumLen ≤ 8 := by
  -- The context is built from the header right behind the two guards.
  unfold repairReadHeader at read
  obtain ⟨_, read⟩ := guard_eq_ok.mp read
  split at read
  · cases read
  split at read
  · cases read
  · cases read
    exact ⟨rfl, rfl, fmtChecksumSize_le _⟩

theorem RepairCtx.SameFile.overruns_iff {c d : RepairCtx} (same : c.SameFile d) (off : Nat)
    (b : BlockHeader) : d.Overruns off b ↔ c.Overruns off b := by
  -- The condition is about what the contexts share.
  simp only [Overruns, staging, same.file, same.hdr, same.checksumLen, same.stagingCap]

/-- Two words in range add up to their sum. -/
theorem rangeOk_iff {off len limit : Nat} (bound : limit < 2 ^ 64) (offBound : off < 2 ^ 64)
    (lenBound : len < 2 ^ 64) :
    rangeOk (UInt64.ofNat off) (UInt64.ofNat len) (UInt64.ofNat limit) ↔ off + len ≤ limit := by
  unfold rangeOk addU64Ok
  rw [UInt64.toNat_ofNat_of_lt' offBound, UInt64.toNat_ofNat_of_lt' lenBound]
  by_cases wraps : off + len < 2 ^ 64
  · rw [if_pos wraps, decide_eq_true_iff, UInt64.le_iff_toNat_le, UInt64.toNat_add,
      UInt64.toNat_ofNat_of_lt' offBound, UInt64.toNat_ofNat_of_lt' lenBound,
      UInt64.toNat_ofNat_of_lt' bound, Nat.mod_eq_of_lt wraps]
  · -- The sum leaves the word, so it is above every limit.
    rw [if_neg wraps]
    simp
    omega

/-- Reading a range inside a file gives the whole range. -/
theorem filePread_inside {f : Bytes} {len off : Nat} (size : f.length < 2 ^ 63)
    (inside : off + len ≤ f.length) :
    filePread f len off = (.ok, (f.drop off).take len) ∧
      ((f.drop off).take len).length = len := by
  -- The range is not beyond what offsets reach.
  unfold filePread
  rw [if_neg (by omega), List.length_take, List.length_drop]
  exact ⟨rfl, by omega⟩

/-- `decode_at` stays within its block buffer exactly when the header is not an overrunning one. -/
theorem RepairCtx.decodeBlockAt_within_iff (external : ∀ c ∈ zstd, c.WithinCap) {c : RepairCtx}
    (sized : c.maxRaw = c.hdr.blockSize) (size : c.file.length < 2 ^ 63) {off : Nat}
    (offset : off < 2 ^ 64) {b : BlockHeader} (valid : b.Valid) (checksum : c.checksumLen ≤ 8) :
    (RepairCtx.decodeBlockAt zstd c off b).2.written.length ≤ c.hdr.blockSize ↔
      ¬ c.Overruns off b := by
  -- The function's tests one after the other; all but the last refuse without writing.
  have word := b.storedSize.toNat_lt
  have total : blockHeaderSize + b.storedSize.toNat + c.checksumLen < 2 ^ 64 := by
    simp only [blockHeaderSize]
    omega
  have range := rangeOk_iff (by omega : c.file.length < 2 ^ 64) offset total
  unfold RepairCtx.decodeBlockAt RepairCtx.Overruns RepairCtx.staging
  dsimp only
  by_cases staged : blockHeaderSize + b.storedSize.toNat + c.checksumLen ≤ c.stagingCap
  · rw [if_neg (by omega)]
    by_cases inside : off + (blockHeaderSize + b.storedSize.toNat + c.checksumLen) ≤ c.file.length
    · obtain ⟨read, length⟩ := filePread_inside size inside
      rw [if_neg (not_not.mpr (range.mpr inside)), read]
      dsimp only
      rw [if_neg (not_not.mpr length)]
      -- From here only the checksum stands between the header and the payload step.
      generalize staging : (c.file.drop off).take
        (blockHeaderSize + b.storedSize.toNat + c.checksumLen) = bytes at length ⊢
      by_cases sealed : blockChecksumOk c.hdr
          ((bytes.drop blockHeaderSize).take b.storedSize.toNat)
          ((bytes.drop blockHeaderSize).drop b.storedSize.toNat)
      · rw [if_neg (not_not.mpr sealed)]
        have payload : ((bytes.drop blockHeaderSize).take b.storedSize.toNat).length =
            b.storedSize.toNat := by
          rw [List.length_take, List.length_drop]
          omega
        by_cases fits : b.rawSize.toNat ≤ c.hdr.blockSize
        · refine iff_of_true ?_ fun overruns => by omega
          rw [← sized] at fits ⊢
          exact blockPayload_within external _ _ (le_of_eq payload) fits
        · -- A raw size above the block size: only the stored form does not look at it.
          by_cases stored : b.bflags &&& bflagStored ≠ 0
          · -- The copy has the length the header says, which is too much.
            refine iff_of_false ?_ (not_not.mpr ⟨stored, by omega, staged, inside, sealed⟩)
            have same := valid.stored stored
            simp only [blockPayload, if_pos stored, if_neg (not_not.mpr same)]
            rw [payload, same]
            exact fits
          · refine iff_of_true ?_ fun overruns => stored overruns.1
            simp only [blockPayload, if_neg stored]
            split
            · exact Nat.zero_le _
            · rename_i found
              split
              · exact Nat.zero_le _
              · rw [← sized]
                exact codecGet_withinCap external found _ _ _ _ _
      · -- The checksum is wrong.
        rw [if_pos sealed]
        exact iff_of_true (Nat.zero_le _) fun overruns => sealed overruns.2.2.2.2
    · -- The block reaches beyond the file.
      rw [if_pos (fun within => inside (range.mp within))]
      exact iff_of_true (Nat.zero_le _) fun overruns => inside overruns.2.2.2.1
  · -- The block is too large for the staging buffer.
    rw [if_pos (by omega)]
    exact iff_of_true (Nat.zero_le _) fun overruns => staged overruns.2.2.1

end Repair

/-- The failing inputs, as files: a header at `off` whose stored block repair copies too far. -/
def StoredOverrun (zstd : Option CodecVt) (file : Bytes) (off : Nat) (b : BlockHeader) : Prop :=
  ∃ c, repairReadHeader zstd file = .ok c ∧ c.Overruns off b

/-- All three decode paths stay within their block buffers: the sequential one in every run, the
random-access one at every block, and repair at a block header that it takes to stand at `off`. -/
def BuffersKept (zstd : Option CodecVt) (file : Bytes) (off : Nat) (b : BlockHeader) : Prop :=
  (∀ src memLimit d, DecoderRun zstd src memLimit d →
      (Decoder.nextBlock zstd d).2.raw.length ≤ (Decoder.nextBlock zstd d).2.hdr.blockSize) ∧
    (∀ r, ReaderRun zstd file r → ∀ dctx bi,
      (Reader.decodeBlockSlot zstd r dctx bi).2.written.length ≤ r.hdr.blockSize) ∧
    (∀ c, RepairRun zstd file c →
      (RepairCtx.decodeBlockAt zstd c off b).2.written.length ≤ c.hdr.blockSize)

/-- The block header that stands in a file at `off`. -/
def StandsAt (file : Bytes) (off : Nat) (b : BlockHeader) : Prop :=
  off < 2 ^ 64 ∧ fmtBlockParse ((file.drop off).take blockHeaderSize) = .ok b

/--
On a file and a block header, all three decode paths stay within their block buffers exactly when the
header is not a stored block that repair copies too far.

So they do on a whole file exactly when no such header stands in it.
-/
theorem blockBuffers_within_iff (external : ∀ c ∈ zstd, c.WithinCap) {file : Bytes}
    (size : file.length < 2 ^ 63) :
    (∀ off buf b, off < 2 ^ 64 → fmtBlockParse buf = .ok b →
      (BuffersKept zstd file off b ↔ ¬ StoredOverrun zstd file off b)) ∧
    ((∀ off b, StandsAt file off b → BuffersKept zstd file off b) ↔
      ¬ ∃ off b, StandsAt file off b ∧ StoredOverrun zstd file off b) := by
  have each (off : Nat) (buf : Bytes) (b : BlockHeader) (offset : off < 2 ^ 64)
      (parsed : fmtBlockParse buf = .ok b) :
      BuffersKept zstd file off b ↔ ¬ StoredOverrun zstd file off b := by
    have valid : b.Valid := by
      obtain ⟨_, _, _, valid, rfl⟩ := fmtBlockParse_ok_iff.mp parsed
      exact valid
    constructor
    · rintro ⟨_, _, repair⟩ ⟨c, read, overruns⟩
      obtain ⟨rfl, sized, checksum⟩ := repairReadHeader_sized read
      exact (RepairCtx.decodeBlockAt_within_iff external sized size offset valid checksum).mp
        (repair c (.header read)) overruns
    · intro safe
      refine ⟨fun src memLimit d run => ?_, fun r run dctx bi => ?_, fun c run => ?_⟩
      · obtain ⟨cap, within⟩ := run.nextBlock.sized external
        rw [← cap]
        exact within
      · exact (Reader.decodeBlockSlot_within external r dctx bi).trans run.maxRaw_le
      · -- A repair in progress has the sizes of its header, and so the same failing inputs.
        obtain ⟨start, read, same⟩ := run.sameFile
        obtain ⟨of, sized, checksum⟩ := repairReadHeader_sized read
        refine (RepairCtx.decodeBlockAt_within_iff external ?_ ?_ offset valid ?_).mpr
          fun overruns => safe ⟨start, read, (same.overruns_iff off b).mp overruns⟩
        · rw [same.maxRaw, same.hdr, sized]
        · rwa [same.file, of]
        · rwa [same.checksumLen]
  refine ⟨each, fun kept => ?_, fun none off b stands => ?_⟩
  · rintro ⟨off, b, stands, overrun⟩
    exact (each off _ b stands.1 stands.2).mp (kept off b stands) overrun
  · exact (each off _ b stands.1 stands.2).mpr fun overrun => none ⟨off, b, stands, overrun⟩

/-- The header of a file of 4 KiB blocks without checksums. -/
def overrunHeader : FileHeader :=
  { formatMajor := 1, formatMinor := 0, headerSize := 32, flags := 0, codecId := 1, level := 6,
    checksumId := 0, blockSizeLog := 12, rawSize := 4097 }

/-- The header of a first block of `n` stored bytes. -/
def storedBlock (n : UInt32) : BlockHeader :=
  { bflags := bflagStored, codecId := 0, storedSize := n, rawSize := n, rawOffset := 0 }

/-- A file of 4 KiB blocks that carries a stored block of `n` bytes. -/
def storedFile (n : UInt32) : Bytes :=
  fmtHeaderStore overrunHeader ++ (fmtBlockStore (storedBlock n) ++ List.replicate n.toNat 0)

/-- The block is one byte longer than the blocks of the file may be. -/
def overrunFile : Bytes := storedFile 4097

theorem storedBlock_valid : (storedBlock 4097).Valid where
  stored _ := rfl
  nonempty := by decide
  bounded := by decide
  storedBounded := by decide
  inRange := by decide

theorem overrunHeader_valid : overrunHeader.Valid where
  major := rfl
  headerSize := by decide
  checksum := by decide
  blockSizeLog := by decide
  flags := by decide
  uniform := by decide

theorem length_storedFile (n : UInt32) : (storedFile n).length = 56 + n.toNat := by
  -- The two headers take 56 bytes.
  simp only [storedFile, List.length_append, length_fmtHeaderStore, length_fmtBlockStore,
    List.length_replicate, fileHeaderSize, blockHeaderSize]
  omega

/-- The block's header stands in the file. -/
theorem storedFile_stands {n : UInt32} (valid : (storedBlock n).Valid) :
    StandsAt (storedFile n) 32 (storedBlock n) := by
  -- The block follows the file header.
  have behind : (storedFile n).drop 32 = fmtBlockStore (storedBlock n) ++ List.replicate n.toNat 0 :=
    List.drop_left' (length_fmtHeaderStore _)
  refine ⟨by decide, ?_⟩
  rw [behind, List.take_left' (length_fmtBlockStore _)]
  simpa using fmtBlockParse_store valid []

/-- What repair reads from the file's header. -/
theorem storedFile_read (n : UInt32) : ∃ c, repairReadHeader none (storedFile n) = .ok c ∧
    c.hdr = overrunHeader ∧ c.checksumLen = 0 ∧ c.stagingCap = 4176 := by
  -- The file begins with its header, which parses.
  have front : (storedFile n).take fileHeaderSize = fmtHeaderStore overrunHeader :=
    List.take_left' (length_fmtHeaderStore _)
  have parsed : fmtHeaderParse (fmtHeaderStore overrunHeader) = .ok overrunHeader := by
    simpa using fmtHeaderParse_store overrunHeader_valid []
  unfold repairReadHeader
  simp only [front, parsed]
  exact ⟨_, rfl, rfl, rfl, rfl⟩

theorem overrunFile_overruns : StoredOverrun none overrunFile 32 (storedBlock 4097) := by
  -- The sizes of the staging buffer and of the block are evaluated.
  obtain ⟨c, read, hdr, checksum, staging⟩ := storedFile_read 4097
  refine ⟨c, read, ?_⟩
  simp only [RepairCtx.Overruns, (repairReadHeader_sized read).1, hdr, checksum, staging,
    length_storedFile]
  exact ⟨by decide, by decide, by decide, by decide, rfl⟩

/-- Repair writes past its block buffer at a header of its file: the three paths do not all stay
within theirs. -/
theorem blockBuffers_overrun :
    ¬ ∀ (file : Bytes) (off : Nat) (b : BlockHeader), file.length < 2 ^ 63 → StandsAt file off b →
      ∀ c, RepairRun none file c →
        (RepairCtx.decodeBlockAt none c off b).2.written.length ≤ c.hdr.blockSize := by
  -- The file's only block header announces more than the block size, and stands in the file.
  intro within
  obtain ⟨c, read, overruns⟩ := overrunFile_overruns
  have size : overrunFile.length < 2 ^ 63 := by
    rw [overrunFile, length_storedFile]
    decide
  obtain ⟨file, sized, checksum⟩ := repairReadHeader_sized read
  have stays := within overrunFile 32 _ size (storedFile_stands storedBlock_valid) c (.header read)
  exact (RepairCtx.decodeBlockAt_within_iff (by simp) sized (by rwa [file]) (by omega)
    storedBlock_valid checksum).mp stays overruns

/-- A file with a block of the announced size, whose header stands where repair meets it, keeps every
buffer. -/
theorem blockBuffers_within_small :
    StandsAt (storedFile 4096) 32 (storedBlock 4096) ∧
      BuffersKept none (storedFile 4096) 32 (storedBlock 4096) := by
  have valid : (storedBlock 4096).Valid :=
    { stored := fun _ => rfl, nonempty := by decide, bounded := by decide,
      storedBounded := by decide, inRange := by decide }
  have stands := storedFile_stands valid
  have size : (storedFile 4096).length < 2 ^ 63 := by
    rw [length_storedFile]
    decide
  refine ⟨stands, ((blockBuffers_within_iff (by simp) size).1 32 _ _ stands.1 stands.2).mpr ?_⟩
  -- A block of the announced size does not exceed it.
  rintro ⟨c, read, _, larger, _⟩
  obtain ⟨c', read', hdr, _⟩ := storedFile_read 4096
  cases read.symm.trans read'
  rw [hdr] at larger
  exact absurd larger (by decide)

end Xq
