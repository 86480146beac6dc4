import Xq.Common.Xxh64Laws
import Xq.Proofs.Core.DecodeCalls
import Xq.Proofs.Core.EncoderContexts
import Xq.Proofs.Format.Exact

/-! What the sections of a finished file hold: each block decodes to its piece of what was written,
and the dictionary record to the dictionary, on every decode path. -/

namespace Xq

open Lib

section Definitions

variable (zstd : Option CodecVt)

/-- A block that every decode path reads as `raw`, in any good context and with that dictionary,
unless its checksum gives it away. -/
structure FileBlock.Keeps (h : FileHeader) (GoodD : Dctx → Prop) (ddict : Option Ddict)
    (raw : Bytes) (b : FileBlock) : Prop where
  valid : b.header.Valid
  rawSize : b.header.rawSize.toNat = raw.length
  storedSize : b.header.storedSize.toNat = b.payload.length
  shrinks : b.payload.length ≤ raw.length
  ck : b.ck.length = fmtChecksumSize h.checksumId
  decodes : blockChecksumOk h b.payload b.ck → ∀ dctx cap, GoodD dctx → raw.length ≤ cap →
    (blockPayload zstd dctx ddict cap b.header b.payload).status = .ok ∧
      (blockPayload zstd dctx ddict cap b.header b.payload).written = raw ∧
      GoodD (blockPayload zstd dctx ddict cap b.header b.payload).dctx

/-- A block that every decode path reads as `raw`. -/
structure FileBlock.Holds (h : FileHeader) (GoodD : Dctx → Prop) (ddict : Option Ddict)
    (raw : Bytes) (b : FileBlock) : Prop extends FileBlock.Keeps zstd h GoodD ddict raw b where
  sealed : blockChecksumOk h b.payload b.ck

/-- A dictionary record that every decode path reads as `d`, and digests as `ddict`. -/
structure FileDict.Holds (codec : CodecVt) (GoodD : Dctx → Prop) (d : XqDict) (ddict : Ddict)
    (r : FileDict) : Prop where
  head : r.head.length = dictPayloadHeader
  nonempty : r.stored ≠ []
  shrinks : r.stored.length ≤ d.bytes.length
  bounded : d.bytes.length ≤ dictSizeMax
  parses : ∃ info, dictPayloadParse (r.head ++ r.stored) = .ok info ∧
    info.rawSize.toNat = d.bytes.length ∧ dictDigest codec info d.bytes = .ok ddict ∧
    ∀ dctx, GoodD dctx → (dictDecode zstd dctx info r.stored).1.1 = .ok d.bytes ∧
      GoodD (dictDecode zstd dctx info r.stored).1.2

/-- What the record in front of the blocks holds: a dictionary with its digest, or nothing. -/
inductive FileDict.HoldsOptional (codec : CodecVt) (GoodD : Dctx → Prop) :
    Option XqDict → Option Ddict → Option FileDict → Prop
  | none : FileDict.HoldsOptional codec GoodD none none none
  | some {d : XqDict} {ddict : Ddict} {r : FileDict} : r.Holds zstd codec GoodD d ddict →
    FileDict.HoldsOptional codec GoodD (some d) (some ddict) (some r)

/-- A file over `xs` in blocks of `size` bytes, in which a block is what it was unless its checksum
gives it away. -/
structure Container.Keeps (c : Container) (codec : CodecVt) (GoodD : Dctx → Prop) (size : Nat)
    (xs : Bytes) (dict : Option XqDict) (ddict : Option Ddict) : Prop where
  header : c.header.Valid
  headerSize : c.header.headerSize.toNat = fileHeaderSize
  found : codecGet zstd c.header.codecId = some codec
  blockSize : c.header.blockSize = size
  positive : 0 < size
  most : size ≤ blockSizeMax
  bound : size ≤ codec.bound size
  dctx : GoodD (codec.dctxNew.getD .null)
  flagged : c.header.flags &&& flagDictPresent ≠ 0 ↔ dict.isSome
  dict : FileDict.HoldsOptional zstd codec GoodD dict ddict c.dict
  short : xs.length < 2 ^ 64
  cuts : c.Cuts size xs
  rawSize : c.rawSize = xs.length
  streamChecksum : c.streamChecksum = if c.header.checksumId ≠ 0 then xxh64 xs 0 else 0
  kept : List.Forall₂ (FileBlock.Keeps zstd c.header GoodD ddict) (allBlocks size xs) c.blocks

/-- A file that holds `xs`, in blocks of `size` bytes. -/
structure Container.Holds (c : Container) (codec : CodecVt) (GoodD : Dctx → Prop) (size : Nat)
    (xs : Bytes) (dict : Option XqDict) (ddict : Option Ddict) : Prop
    extends Container.Keeps zstd c codec GoodD size xs dict ddict where
  sealed : ∀ b ∈ c.blocks, blockChecksumOk c.header b.payload b.ck

variable {zstd} in
theorem Container.Holds.blocks {c : Container} {codec : CodecVt} {GoodD : Dctx → Prop} {size : Nat}
    {xs : Bytes} {dict : Option XqDict} {ddict : Option Ddict}
    (holds : c.Holds zstd codec GoodD size xs dict ddict) :
    List.Forall₂ (FileBlock.Holds zstd c.header GoodD ddict) (allBlocks size xs) c.blocks := by
  -- Both parts of the invariant, block by block.
  rw [List.forall₂_iff_get]
  refine ⟨holds.kept.length_eq, fun i inside inside' => ?_⟩
  exact ⟨(List.forall₂_iff_get.mp holds.kept).2 i inside inside',
    holds.sealed _ (List.getElem_mem inside')⟩

end Definitions

section Headers

/-- The loop finds the logarithm of a power of two. -/
theorem blockSizeLogFrom_two_pow {k fuel log : Nat} (above : log ≤ k) (within : k < log + fuel) :
    blockSizeLogFrom (2 ^ k) fuel log = k := by
  -- The induction is on the fuel, of which there is more than the way to the logarithm.
  induction fuel generalizing log with
  | zero => omega
  | succ fuel ih =>
    rw [blockSizeLogFrom]
    by_cases here : log = k
    · rw [here, if_neg (not_not.mpr rfl)]
    · have other : 2 ^ log ≠ 2 ^ k := fun same => here (Nat.pow_right_injective le_rfl same)
      rw [if_pos other]
      exact ih (by omega) (by omega)

theorem blockSizeLogFor_two_pow {k : Nat} (small : k < 32) : blockSizeLogFor (2 ^ k) = k :=
  blockSizeLogFrom_two_pow (Nat.zero_le k) (by omega)

variable {zstd : Option CodecVt} {sink : Nat → Bytes → Bytes → XqStatus} {p : XqParams}
  {rawSizeHint : UInt64} {e : Encoder} {record : Option FileDict}

/-- The header says whether there is a dictionary. -/
theorem Encoder.fileHeader_flagged (e : Encoder) (rawSizeHint : UInt64) :
    (e.fileHeader rawSizeHint).flags &&& flagDictPresent ≠ 0 ↔ e.dict.isSome := by
  rw [Encoder.fileHeader]
  dsimp only
  by_cases streamed : rawSizeHint = sizeUnknown
  · rw [if_pos streamed]
    cases e.dict.isSome <;> decide
  · rw [if_neg streamed]
    cases e.dict.isSome <;> decide

/-- The header an encoder announces is one that parses, and names its block size. -/
theorem Encoder.Created.fileHeader_valid (fresh : e.Created zstd sink p rawSizeHint record)
    (hint : UInt64) :
    (e.fileHeader hint).Valid ∧ (e.fileHeader hint).headerSize.toNat = fileHeaderSize ∧
      (e.fileHeader hint).blockSize = e.blockSize := by
  obtain ⟨_, _, _, _, k, least, most, power⟩ := paramsCheck_ok fresh.accepted
  have log : (e.fileHeader hint).blockSizeLog = UInt8.ofNat k := by
    show UInt8.ofNat e.blockSizeLog = _
    rw [fresh.blockSizeLog, power, blockSizeLogFor_two_pow (by omega)]
  have value : (UInt8.ofNat k).toNat = k := UInt8.toNat_ofNat_of_lt' (show k < 2 ^ 8 by omega)
  have positive : UInt8.ofNat k ≠ 0 := by
    intro zero
    rw [zero] at value
    have : (0 : UInt8).toNat = 0 := rfl
    omega
  have headerSize : (e.fileHeader hint).headerSize.toNat = fileHeaderSize := rfl
  have size : fileHeaderSize = 32 := rfl
  refine ⟨⟨rfl, by omega, ?_, .inr ⟨?_, ?_⟩, ?_, ?_⟩, headerSize, ?_⟩
  · show e.p.checksum.id ≤ 2
    cases e.p.checksum
    all_goals decide
  · rw [log, UInt8.le_iff_toNat_le, value]
    exact least
  · rw [log, UInt8.le_iff_toNat_le, value]
    exact most
  · -- Every flag an encoder raises is a known one.
    simp only [Encoder.fileHeader]
    split_ifs
    all_goals decide
  · intro _
    rwa [log]
  · rw [FileHeader.blockSize, log, if_pos positive, value, fresh.blockSize, power]

end Headers

section Blocks

variable {zstd : Option CodecVt} {sink : Nat → Bytes → Bytes → XqStatus} {p : XqParams}
  {rawSizeHint : UInt64} {e : Encoder} {record : Option FileDict} {GoodC : Cctx → Prop}
  {GoodD : Dctx → Prop} {ddict : Option Ddict} {block : Bytes} {j : EncJob}

/-- What `job_checksum` computes is what the decode paths compare with. -/
theorem jobChecksum_ok {h : FileHeader} {checksum : XqChecksum} (same : h.checksumId = checksum.id)
    (payload : Bytes) : blockChecksumOk h payload (jobChecksum checksum payload) := by
  -- Each kind of checksum is read back from the bytes it was stored in.
  rw [blockChecksumOk, same]
  cases checksum with
  | none => rfl
  | crc32c =>
    rw [jobChecksum, payloadChecksumOk, ld32le_st32le_nil]
    simp [XqChecksum.id]
  | xxh64 =>
    have read : ld64le (st64le (xxh64 payload 0)) 0 = xxh64 payload 0 := by
      have := ld64le_st64le (xxh64 payload 0) []
      rwa [List.append_nil] at this
    rw [jobChecksum, payloadChecksumOk, read]
    simp [XqChecksum.id]

/-- The digests of an encoder's dictionary stand or fall together. -/
theorem CodecVt.Digests.isSome {v : CodecVt} {dict : Option Bytes} {cdict : Option Cdict}
    (digests : v.Digests dict cdict ddict) : cdict.isSome = ddict.isSome := by
  cases dict with
  | none =>
    obtain ⟨rfl, rfl⟩ := digests
    rfl
  | some bytes =>
    obtain ⟨present, _, _, _, rfl⟩ := digests
    rw [present]
    rfl

/-- A block that is not stored is what the codec it names makes of its payload. -/
theorem blockPayload_packed {v : CodecVt} {b : BlockHeader} (payload : Bytes) (dctx : Dctx)
    (cap : Nat) (packed : b.bflags &&& bflagStored = 0) (found : codecGet zstd b.codecId = some v)
    (asks : b.bflags &&& bflagUsesDict ≠ 0 ↔ ddict.isSome) :
    let r := blockPayload zstd dctx ddict cap b payload
    let answer := v.decompress dctx cap payload b.rawSize.toNat ddict
    r.status = answer.1.1 ∧ r.written = answer.1.2 ∧ r.dctx = answer.2 := by
  rw [blockPayload, if_neg (not_not.mpr packed), found]
  dsimp only
  by_cases uses : b.bflags &&& bflagUsesDict ≠ 0
  · -- The dictionary is asked for, and it is there.
    obtain ⟨digest, rfl⟩ := Option.isSome_iff_exists.mp (asks.mp uses)
    rw [if_neg (by rintro ⟨_, absent⟩; cases absent), if_pos uses]
    exact ⟨rfl, rfl, rfl⟩
  · have absent : ddict = none := Option.not_isSome_iff_eq_none.mp (mt asks.mpr uses)
    rw [if_neg (by rintro ⟨asked, _⟩; exact uses asked), if_neg uses, absent]
    exact ⟨rfl, rfl, rfl⟩

/-- The payload of a job decodes to its block. -/
theorem Encoder.JobOf.decodes (fresh : e.Created zstd sink p rawSizeHint record)
    (back : e.codec.TakesBack GoodC GoodD)
    (digests : e.codec.Digests (e.dict.map XqDict.bytes) e.cdict ddict)
    (sized : ∀ d ∈ e.dict, d.bytes.length ≤ dictSizeMax) (job : e.JobOf GoodC block j)
    (fits : block.length ≤ blockSizeMax) (rawOffset : Nat) {dctx : Dctx} {cap : Nat}
    (good : GoodD dctx) (room : block.length ≤ cap) :
    let b := e.fileBlock rawOffset j
    (blockPayload zstd dctx ddict cap b.header b.payload).status = .ok ∧
      (blockPayload zstd dctx ddict cap b.header b.payload).written = block ∧
      GoodD (blockPayload zstd dctx ddict cap b.header b.payload).dctx := by
  have most : blockSizeMax = 2 ^ 28 := rfl
  have rawSize : (UInt32.ofNat j.raw.length).toNat = block.length := by
    rw [job.raw]
    exact UInt32.toNat_ofNat_of_lt' (show _ < 2 ^ 32 by omega)
  dsimp only [Encoder.fileBlock]
  rcases job.payload with stored | ⟨packed, _, cctx, good', made⟩
  · -- A stored block is its own payload.
    have payload : j.payload = block := by rw [EncJob.payload, if_pos stored, job.raw]
    have flags : (Encoder.blockHeader { e with rawOffset := rawOffset } j).bflags = bflagStored := by
      simp [Encoder.blockHeader, stored]
    have sizes : (Encoder.blockHeader { e with rawOffset := rawOffset } j).storedSize =
        (Encoder.blockHeader { e with rawOffset := rawOffset } j).rawSize := by
      rw [Encoder.blockHeader, payload, job.raw]
    rw [blockPayload, if_pos (by rw [flags]; decide), if_neg (not_not.mpr sizes)]
    exact ⟨rfl, payload, good⟩
  · have payload : j.payload = j.cbuf := by rw [EncJob.payload, packed]; rfl
    have codecId : (Encoder.blockHeader { e with rawOffset := rawOffset } j).codecId =
        e.p.codec.id := by
      simp [Encoder.blockHeader, packed]
    have flags : (Encoder.blockHeader { e with rawOffset := rawOffset } j).bflags =
        if ddict.isSome then bflagUsesDict else 0 := by
      rw [← digests.isSome]
      simp only [Encoder.blockHeader, packed]
      cases e.cdict.isSome
      all_goals rfl
    have found : codecGet zstd e.p.codec.id = some e.codec := by
      rw [fresh.params]
      exact fresh.codec
    -- A compressed block comes back through the codec, in any context that is good.
    have restored := back.back digests (fun bytes member => by
      obtain ⟨d, here, rfl⟩ := Option.map_eq_some_iff.mp member
      exact sized d here) good' good fits room made
    have kept := back.decompresses dctx cap j.cbuf block.length ddict good
    have size : (Encoder.blockHeader { e with rawOffset := rawOffset } j).rawSize.toNat =
        block.length := rawSize
    -- The flag of the block asks for a dictionary exactly when there is one.
    have asks : (if ddict.isSome then bflagUsesDict else 0) &&& bflagUsesDict ≠ 0 ↔
        ddict.isSome := by
      by_cases present : ddict.isSome
      · rw [if_pos present]
        exact iff_of_true (by decide) present
      · rw [if_neg present]
        exact iff_of_false (by decide) present
    have answered := blockPayload_packed (v := e.codec)
      (b := Encoder.blockHeader { e with rawOffset := rawOffset } j) j.payload dctx cap
      (by rw [flags]; split <;> decide) (by rw [codecId]; exact found)
      (by rw [flags]; exact asks)
    rw [payload, size] at answered
    obtain ⟨status, written, context⟩ := answered
    rw [payload, status, written, context, restored]
    exact ⟨rfl, rfl, kept⟩

/-- A job becomes a block that holds what the job was made of. -/
theorem Encoder.JobOf.holds (fresh : e.Created zstd sink p rawSizeHint record)
    (back : e.codec.TakesBack GoodC GoodD)
    (digests : e.codec.Digests (e.dict.map XqDict.bytes) e.cdict ddict)
    (sized : ∀ d ∈ e.dict, d.bytes.length ≤ dictSizeMax) (job : e.JobOf GoodC block j)
    (some_byte : 0 < block.length) (fits : block.length ≤ blockSizeMax) {rawOffset : Nat}
    (within : rawOffset + block.length < 2 ^ 64) {h : FileHeader}
    (checksum : h.checksumId = p.checksum.id) :
    (e.fileBlock rawOffset j).Holds zstd h GoodD ddict block := by
  have most : blockSizeMax = 2 ^ 28 := rfl
  have payload := job.payload_le
  have rawSize : (UInt32.ofNat j.raw.length).toNat = block.length := by
    rw [job.raw]
    exact UInt32.toNat_ofNat_of_lt' (show _ < 2 ^ 32 by omega)
  have storedSize : (UInt32.ofNat j.payload.length).toNat = j.payload.length :=
    UInt32.toNat_ofNat_of_lt' (show _ < 2 ^ 32 by omega)
  have offset : (UInt64.ofNat rawOffset).toNat = rawOffset :=
    UInt64.toNat_ofNat_of_lt' (show _ < 2 ^ 64 by omega)
  -- The checksum is that of the payload, and empty where the file has none.
  have sealed : (e.fileBlock rawOffset j).ck = jobChecksum p.checksum j.payload := by
    rw [← fresh.params]
    show (if e.checksumLen ≠ 0 then j.ck else []) = _
    split
    · exact job.ck
    · rename_i none
      rw [fresh.checksumLen] at none
      rw [fresh.params]
      have empty : (jobChecksum p.checksum j.payload).length = 0 := by
        rw [length_jobChecksum, not_not.mp none]
      exact (List.length_eq_zero_iff.mp empty).symm
  refine ⟨⟨⟨fun flag => ?_, fun zero => ?_, ?_, ?_, ?_⟩, rawSize, storedSize, payload, ?_,
    fun _ dctx cap good room => job.decodes fresh back digests sized fits rawOffset good room⟩, ?_⟩
  · -- Only a stored block is flagged as one.
    show UInt32.ofNat j.payload.length = UInt32.ofNat j.raw.length
    rcases job.payload with stored | ⟨packed, _⟩
    · rw [EncJob.payload, if_pos stored]
    · refine (flag ?_).elim
      simp only [Encoder.fileBlock, Encoder.blockHeader, packed]
      cases e.cdict.isSome
      all_goals decide
  · -- No block is empty.
    have zero : UInt32.ofNat j.raw.length = 0 := zero
    rw [zero] at rawSize
    have : (0 : UInt32).toNat = 0 := rfl
    omega
  · show (UInt32.ofNat j.raw.length).toNat ≤ blockSizeMax
    omega
  · -- The expansion that the format allows is never needed.
    show UInt32.ofNat j.payload.length ≤ UInt32.ofNat j.raw.length +
      UInt32.ofNat j.raw.length / 8 + 1024
    rw [UInt32.le_iff_toNat_le, UInt32.toNat_add, UInt32.toNat_add, UInt32.toNat_div, rawSize,
      storedSize]
    show j.payload.length ≤ ((block.length + block.length / 8) % 2 ^ 32 + 1024) % 2 ^ 32
    have sum : block.length + block.length / 8 < 2 ^ 32 := by omega
    rw [Nat.mod_eq_of_lt sum, Nat.mod_eq_of_lt (by omega)]
    omega
  · show (addU64Ok (UInt64.ofNat rawOffset) (UInt32.ofNat j.raw.length).toUInt64).isSome
    have size : (UInt32.ofNat j.raw.length).toUInt64.toNat = block.length := by
      rw [UInt32.toNat_toUInt64, rawSize]
    rw [addU64Ok, size, offset, if_pos within]
    rfl
  · rw [sealed, length_jobChecksum, checksum]
  · rw [sealed]
    exact jobChecksum_ok checksum j.payload

end Blocks

section Dictionaries

variable {zstd : Option CodecVt} {sink : Nat → Bytes → Bytes → XqStatus} {p : XqParams}
  {rawSizeHint : UInt64} {e : Encoder} {record : Option FileDict} {GoodC : Cctx → Prop}
  {GoodD : Dctx → Prop} {m : Machine} {given : Option XqDict}

/-- A dictionary that the readers take: not too large, with an id, and of a known kind. -/
structure XqDict.Readable (d : XqDict) : Prop where
  bounded : d.bytes.length ≤ dictSizeMax
  id : d.id ≠ 0
  kind : d.kind ≤ dictKindTrained

/-- The digest the readers make of a dictionary. -/
def CodecVt.decodingDigest (codec : CodecVt) (dict : Option XqDict) : Option Ddict :=
  dict.bind fun d => codec.ddictNew.map fun ddictNew => ddictNew d.bytes

/-- The digests of an encoder and of its readers are of one dictionary. -/
theorem Encoder.Packed.digests (packed : e.Packed m given record)
    (fresh : e.Created zstd sink p rawSizeHint record) :
    e.codec.Digests (e.dict.map XqDict.bytes) e.cdict (e.codec.decodingDigest e.dict) := by
  -- A codec that digests dictionaries does so on both sides.
  have present := fresh.cdict
  have digest := packed.digest
  cases given : e.dict with
  | none =>
    rw [given] at digest
    exact ⟨digest, rfl⟩
  | some d =>
    have record := fresh.dict
    rw [given] at present digest record
    cases record with
    | some _ supported _ =>
      rw [codecHasDict, Bool.and_eq_true] at supported
      obtain ⟨cdictNew, creates⟩ := Option.isSome_iff_exists.mp supported.1
      obtain ⟨ddictNew, creates'⟩ := Option.isSome_iff_exists.mp supported.2
      refine ⟨present, ⟨cdictNew, creates, m.cdictHeap, ?_⟩, ddictNew, creates', ?_⟩
      · rw [digest, CodecVt.digest, Option.bind_some, creates]
        rfl
      · rw [CodecVt.decodingDigest, Option.bind_some, creates']
        rfl

/-- A codec with dictionaries is not the one that copies. -/
theorem codecGet_hasDict {id : UInt8} {v : CodecVt} (found : codecGet zstd id = some v)
    (supported : codecHasDict v) : id ≠ 0 := by
  -- The codec that copies has no dictionary to load.
  rintro rfl
  rw [codecGet_stored] at found
  obtain rfl := Option.some.inj found
  cases supported

/-- The record of a dictionary holds it. -/
theorem Encoder.Packed.holds (packed : e.Packed m given record)
    (fresh : e.Created zstd sink p rawSizeHint record) (back : e.codec.TakesBack GoodC GoodD)
    (readable : ∀ d ∈ e.dict, d.Readable) :
    FileDict.HoldsOptional zstd e.codec GoodD e.dict (e.codec.decodingDigest e.dict) record := by
  have most : dictSizeMax = 2 ^ 28 := rfl
  have most' : blockSizeMax = 2 ^ 28 := rfl
  have recorded := fresh.dict
  have stored := packed.stored
  generalize e.dict = dict at recorded stored readable
  cases recorded with
  | none => exact .none
  | @some d _ out some_byte supported _ =>
    obtain ⟨bounded, id, kind⟩ := readable d rfl
    have some_length := List.length_pos_iff.mpr some_byte
    have found : codecGet zstd e.codec.id = some e.codec := by
      rw [codecGet_id fresh.codec]
      exact fresh.codec
    obtain ⟨ddictNew, creates⟩ := Option.isSome_iff_exists.mp
      (Bool.and_eq_true _ _ ▸ supported).2
    have digest : e.codec.decodingDigest (some d) = some (ddictNew d.bytes) := by
      rw [CodecVt.decodingDigest, Option.bind_some, creates]
      rfl
    have plain : e.codec.Digests none none none := ⟨rfl, rfl⟩
    obtain ⟨storedCodec, head, how⟩ := stored d _ rfl rfl
    dsimp only at head how
    -- However it is packed, the dictionary comes back, from something that is not longer.
    have unpacked (info : DictInfo) (codec : info.storedCodec = storedCodec)
        (rawSize : info.rawSize.toNat = d.bytes.length)
        (same : info.storedCodec = 0 → info.storedSize = info.rawSize) (dctx : Dctx)
        (good : GoodD dctx) : (dictDecode zstd dctx info out).1.1 = .ok d.bytes ∧
          GoodD (dictDecode zstd dctx info out).1.2 := by
      rw [dictDecode, codec, rawSize]
      rcases how with ⟨named, _, made⟩ | ⟨copied, rfl⟩
      · have other : storedCodec ≠ 0 := by
          rw [named]
          exact codecGet_hasDict found supported
        have kept := back.decompresses dctx d.bytes.length out d.bytes.length none good
        have restored := back.back plain (by simp)
          (back.cctx m.cctxHeap) good (by omega) le_rfl made
        rw [if_neg other, named, found]
        dsimp only
        generalize e.codec.decompress dctx d.bytes.length out d.bytes.length none = r
          at restored kept
        obtain ⟨answer, after⟩ := r
        obtain rfl : answer = _ := restored
        dsimp only
        rw [if_neg (not_not.mpr rfl)]
        exact ⟨rfl, kept⟩
      · rw [if_pos copied, if_neg (not_not.mpr (same (codec.trans copied))), List.take_length]
        exact ⟨rfl, good⟩
    -- It is stored compressed only where that is shorter.
    have shorter : out.length ≤ d.bytes.length := by
      rcases how with ⟨_, less, _⟩ | ⟨_, rfl⟩
      · exact less.le
      · exact le_rfl
    -- Nothing decodes from nothing, so some bytes are stored.
    have nonempty : out ≠ [] := by
      rcases how with ⟨_, _, made⟩ | ⟨_, rfl⟩
      · rintro rfl
        have restored := back.back plain (by simp)
          (back.cctx m.cctxHeap) back.dctx (by omega) le_rfl made
        have nothing := back.nothing (e.codec.dctxNew.getD .null) d.bytes.length d.bytes.length none
        rw [restored] at nothing
        exact some_byte nothing
      · exact some_byte
    have some_stored := List.length_pos_iff.mpr nonempty
    have rawSize : (UInt64.ofNat d.bytes.length).toNat = d.bytes.length :=
      UInt64.toNat_ofNat_of_lt' (show _ < 2 ^ 64 by omega)
    have storedSize : (UInt64.ofNat out.length).toNat = out.length :=
      UInt64.toNat_ofNat_of_lt' (show _ < 2 ^ 64 by omega)
    have nonzero {n : Nat} (value : (UInt64.ofNat n).toNat = n) (positive : 0 < n) :
        UInt64.ofNat n ≠ 0 := by
      intro zero
      rw [zero] at value
      have : (0 : UInt64).toNat = 0 := rfl
      omega
    have valid : (d.info storedCodec out.length).Valid :=
      ⟨id, nonzero rawSize some_length, rawSize.trans_le bounded, nonzero storedSize some_stored,
        kind⟩
    have parsed := @dictPayloadParse_store d storedCodec out valid (by omega)
    rw [digest]
    refine .some ⟨rfl, nonempty, shorter, bounded, d.info storedCodec out.length, ?_, rawSize, ?_,
      fun dctx good => unpacked _ rfl rawSize ?_ dctx good⟩
    · rw [head]
      exact parsed
    · have same : (d.info storedCodec out.length).xxh64 = xxh64 d.bytes 0 := rfl
      rw [dictDigest, if_neg (not_not.mpr same), if_neg (not_not.mpr supported), creates]
    · -- A dictionary that is stored plain has the size it is stored with.
      intro copied
      rcases how with ⟨named, _, _⟩ | ⟨_, rfl⟩
      · rw [named] at copied
        exact (codecGet_hasDict found supported copied).elim
      · rfl

end Dictionaries

section Files

variable {zstd : Option CodecVt} {sink : Nat → Bytes → Bytes → XqStatus} {p : XqParams}
  {rawSizeHint : UInt64} {e e' : Encoder} {record : Option FileDict} {GoodC : Cctx → Prop}
  {GoodD : Dctx → Prop} {m : Machine} {given : Option XqDict} {xs : Bytes}

/-- The jobs of blocks become blocks that hold them. -/
theorem Encoder.JobOf.fileBlocks (fresh : e.Created zstd sink p rawSizeHint record)
    (back : e.codec.TakesBack GoodC GoodD) {ddict : Option Ddict}
    (digests : e.codec.Digests (e.dict.map XqDict.bytes) e.cdict ddict)
    (sized : ∀ d ∈ e.dict, d.bytes.length ≤ dictSizeMax) {h : FileHeader}
    (checksum : h.checksumId = p.checksum.id) {blocks : List Bytes} {jobs : List EncJob}
    (made : List.Forall₂ (e.JobOf GoodC) blocks jobs)
    (fit : ∀ b ∈ blocks, 0 < b.length ∧ b.length ≤ blockSizeMax) {rawOffset : Nat}
    (within : rawOffset + blocks.flatten.length < 2 ^ 64) :
    List.Forall₂ (FileBlock.Holds zstd h GoodD ddict) blocks (e.fileBlocks rawOffset jobs) := by
  -- The induction is on the jobs, each at the raw offset behind those in front of it.
  induction made generalizing rawOffset with
  | nil => exact .nil
  | @cons block j _ _ job _ ih =>
    obtain ⟨⟨some_byte, small⟩, rest⟩ := List.forall_mem_cons.mp fit
    rw [List.flatten_cons, List.length_append] at within
    rw [Encoder.fileBlocks]
    refine .cons (job.holds fresh back digests sized some_byte small (by omega) checksum)
      (ih rest ?_)
    rw [job.raw]
    omega

/-- The container of the jobs of all blocks holds what was written. -/
theorem Encoder.Created.holds (fresh : e.Created zstd sink p rawSizeHint record)
    (packed : e.Packed m given record) (back : e.codec.TakesBack GoodC GoodD)
    (readable : ∀ d ∈ e.dict, d.Readable) {jobs : List EncJob}
    (made : List.Forall₂ (e.JobOf GoodC) (allBlocks e.blockSize xs) jobs)
    (short : xs.length < 2 ^ 64) :
    (e.container rawSizeHint record jobs).Holds zstd e.codec GoodD e.blockSize xs e.dict
      (e.codec.decodingDigest e.dict) := by
  obtain ⟨valid, headerSize, blockSize⟩ := fresh.fileHeader_valid rawSizeHint
  obtain ⟨positive, most⟩ := fresh.blockSize_bounds
  have id : (e.fileHeader rawSizeHint).codecId = p.codec.id := by rw [← fresh.params]; rfl
  have checksum : (e.fileHeader rawSizeHint).checksumId = p.checksum.id := by
    rw [← fresh.params]
    rfl
  -- Each block holds its piece.
  have blocks : List.Forall₂ (FileBlock.Holds zstd (e.fileHeader rawSizeHint) GoodD
      (e.codec.decodingDigest e.dict)) (allBlocks e.blockSize xs) (e.fileBlocks 0 jobs) := by
    refine Encoder.JobOf.fileBlocks fresh back (packed.digests fresh)
      (fun d member => (readable d member).bounded) checksum made (fun b member => ?_) ?_
    · have := mem_allBlocks xs member positive
      omega
    · rwa [allBlocks_flatten, Nat.zero_add]
  refine
    { header := valid, headerSize := headerSize, found := ?_, blockSize := blockSize
      positive := positive, most := most, bound := back.bound _ most, dctx := back.dctx
      flagged := e.fileHeader_flagged rawSizeHint, dict := packed.holds fresh back readable
      short := short
      cuts := (fresh.cuts made short).1, rawSize := (fresh.cuts made short).2
      streamChecksum := ?_, kept := blocks.imp fun _ _ => FileBlock.Holds.toKeeps
      sealed := fun b member => ?_ }
  · show codecGet zstd (e.fileHeader rawSizeHint).codecId = some e.codec
    rw [id]
    exact fresh.codec
  · -- The stream checksum has seen the raw bytes of every job.
    have raws : jobs.map EncJob.raw = allBlocks e.blockSize xs := Encoder.JobOf.raws made
    have seen := xxh64_pieces_absorbed (xxh64Init_absorbed 0) (allBlocks e.blockSize xs)
    rw [allBlocks_flatten, List.nil_append] at seen
    have none_iff : e.p.checksum ≠ .none ↔ (e.fileHeader rawSizeHint).checksumId ≠ 0 := by
      rw [checksum, fresh.params]
      cases p.checksum <;> decide
    have final : xxh64Final (jobs.foldl (fun s j => xxh64Update s j.raw) (xxh64Init 0)) =
        xxh64 xs 0 := by
      rw [← seen.final short, ← raws, List.foldl_map]
    exact if_congr none_iff final rfl
  · -- What the encoder emits is sealed.
    obtain ⟨i, inside, rfl⟩ := List.getElem_of_mem member
    exact ((List.forall₂_iff_get.mp blocks).2 i (by rw [blocks.length_eq]; exact inside)
      inside).sealed

/-- A context as a codec makes it. -/
def CodecVt.Fresh (codec : CodecVt) (c : Cctx) : Prop := ∃ heap, c = codec.freshCctx heap

/-- A run all of whose calls have succeeded has emitted a file that holds what was written. -/
theorem Encoder.Run.holds {dict : Option XqDict}
    (created : encoderCreate zstd m sink p rawSizeHint dict = .ok e)
    (external : ∀ v ∈ zstd, ∃ GoodC GoodD, v.TakesBack GoodC GoodD)
    (readable : ∀ d ∈ e.dict, d.Readable) {issued : List EncCall} (no_free : .free ∉ issued)
    (finishes : .finish ∈ issued) {results : List XqStatus} {broken : Prop}
    (run : e.Run e.codec.Fresh issued results e' broken)
    (fine : results = List.replicate issued.length .ok)
    (short : (writtenBy issued).length < 2 ^ 64) :
    ∃ (c : Container) (GoodD : Dctx → Prop), e'.out = c.bytes ∧
      c.header = e.fileHeader rawSizeHint ∧
      c.Holds zstd e.codec GoodD e.blockSize (writtenBy issued) e.dict
        (e.codec.decodingDigest e.dict) := by
  have most' : dictSizeMax = 2 ^ 28 := rfl
  have most : blockSizeMax = 2 ^ 28 := rfl
  obtain ⟨record, fresh, packed⟩ := encoderCreate_packed created
  obtain ⟨GoodC, GoodD, back⟩ := codecGet_takesBack external fresh.codec
  have bounds := fresh.blockSize_bounds
  -- The contexts are good at the start, and stay good on the dictionary and on blocks.
  have own : GoodC e.cctx := by
    refine encoderCreate_cctx fresh.codec (back.cctx _) created fun d here c cap level good => ?_
    have := (readable d here).bounded
    exact back.compresses c cap d.bytes level none good (by omega)
  have compresses : e.CompressesWithin e.blockSize GoodC (e.MadeOf GoodC) :=
    fun cctx block good fits =>
      ⟨compressJob_made good, back.compresses cctx e.cbufCap block e.p.level e.cdict good
        (fits.trans bounds.2)⟩
  have run : e.Run GoodC issued results e' broken := run.mono fun c new => by
    obtain ⟨heap, rfl⟩ := new
    exact back.cctx heap
  rcases run.outcomeWithin fresh compresses own no_free with reports | ended
  · exact (StickyReports.not_all_ok finishes fine reports).elim
  obtain ⟨jobs, made, out⟩ := ended.container fresh
  exact ⟨_, GoodD, out, rfl, fresh.holds packed back readable made short⟩

end Files

end Xq
