import Xq.Core.Decoder
import Xq.Core.File

/-! The random-access reader: footer, index and metadata on opening, then blocks through a cache. -/

namespace Xq

def cacheBlocksDefault : Nat := 16

/-- `XQ_NO_BLOCK`, the name of an empty cache entry. -/
def noBlock : Nat := 2 ^ 64 - 1

structure CacheEntry where
  block : Nat
  used : Nat
  data : Bytes
  deriving DecidableEq, Repr

/-- `xq_dec_slot`; `raw` holds what the last decode has written into the slot's block buffer. -/
structure DecSlot where
  dctx : Dctx
  raw : Bytes
  busy : Bool
  deriving DecidableEq, Repr

/-- `xq_reader_opts`, without the allocator. -/
structure ReaderOpts where
  memLimit : Nat
  cacheBlocks : Nat
  threads : Int
  deriving DecidableEq, Repr

/-- `xq_reader` on a regular file. `entries` is the mapped array of index entries, and `calls` the
codec calls made so far. -/
structure Reader where
  file : Bytes
  hdr : FileHeader
  footer : Footer
  entries : Bytes
  nentries : Nat
  blockCount : Nat
  rawSize : UInt64
  codec : CodecVt
  dctx : Dctx
  ddict : Option Ddict
  dictLen : Nat
  checksumLen : Nat
  maxRaw : Nat
  cbufCap : Nat
  cache : List CacheEntry
  slots : List DecSlot
  clock : Nat
  statHits : Nat
  statMisses : Nat
  calls : List DecodeCall

variable (zstd : Option CodecVt)

/-- `load_tail`: the header at the front and the footer at the back. -/
def loadTail (file : Bytes) : Except XqStatus (FileHeader × Footer) :=
  if file.length < fileHeaderSize + footerSize then .error .truncated
  else
    match fmtHeaderParse (file.take fileHeaderSize) with
    | .error st => .error st
    | .ok hdr =>
      match fmtFooterParse (file.drop (file.length - footerSize)) with
      | .error st => .error st
      | .ok footer =>
        if footer.indexOffset = 0 then .error .corruptIndex
        else if ¬ rangeOk footer.indexOffset footer.indexSize
            (UInt64.ofNat (file.length - footerSize)) then .error .corruptIndex
        else .ok (hdr, footer)

/-- `load_index`: the preamble, and the entries behind it. -/
def loadIndex (file : Bytes) (hdr : FileHeader) (footer : Footer) :
    Except XqStatus (IndexPreamble × Bytes) :=
  match filePread file recordHeaderSize footer.indexOffset.toNat with
  | (.ok, rec) =>
    if rec.length ≠ recordHeaderSize then .error .truncated
    else
      match fmtRecordParse rec with
      | .error st => .error st
      | .ok rh =>
        if rh.tag ≠ recIndex then .error .corruptIndex
        else if rh.size ≠ footer.indexSize - UInt64.ofNat recordHeaderSize then
          .error .corruptIndex
        else if rh.size.toNat < indexPreambleSize then .error .corruptIndex
        else
          match fileMap file (footer.indexOffset.toNat + recordHeaderSize) rh.size.toNat with
          | (.ok, base) =>
            match fmtIndexPreambleParse base with
            | .error st => .error st
            | .ok ip =>
              let want := fmtIndexPayloadSize ip.blockCount
              if want = 0 ∨ want ≠ rh.size then .error .corruptIndex
              else if rh.crc32c ≠ crc32cUpdate (crc32c (rec.take 10)) base then
                .error .corruptIndex
              else
                let entries := base.drop indexPreambleSize
                let st := fmtIndexValidate ip entries file.length
                if st ≠ .ok then .error st
                else if hdr.rawSize ≠ sizeUnknown ∧ hdr.rawSize ≠ ip.totalRaw then
                  .error .corruptIndex
                else .ok (ip, entries)
          | (st, _) => .error st
  | (st, _) => .error st

/-- A reader before its metadata and its buffers, with the context for the header's codec. -/
def readerBlank (file : Bytes) (hdr : FileHeader) (footer : Footer) (codec : CodecVt)
    (ip : IndexPreamble) (entries : Bytes) : Reader :=
  { file := file, hdr := hdr, footer := footer, entries := entries,
    nentries := ip.blockCount.toNat + 1, blockCount := ip.blockCount.toNat,
    rawSize := ip.totalRaw, codec := codec, dctx := codec.dctxNew.getD .null, ddict := none,
    dictLen := 0, checksumLen := fmtChecksumSize hdr.checksumId, maxRaw := 0, cbufCap := 0,
    cache := [], slots := [], clock := 0, statHits := 0, statMisses := 0, calls := [] }

/-- The dictionary branch of `load_meta`. -/
def Reader.loadDict (r : Reader) (memLimit : Nat) (payload : Bytes) : XqStatus × Reader :=
  match dictPayloadParse payload with
  | .error st => (st, r)
  | .ok info =>
    if memLimit ≠ 0 ∧ info.rawSize.toNat > memLimit then (.memlimit, r)
    else
      let ((raw, dctx), call) := dictDecode zstd r.dctx info (payload.drop dictPayloadHeader)
      let r := { r with dctx := dctx, calls := r.calls ++ call.toList }
      match raw with
      | .error st => (st, r)
      | .ok raw =>
        match dictDigest r.codec info raw with
        | .error st => (st, r)
        | .ok ddict => (.ok, { r with ddict := some ddict, dictLen := info.rawSize.toNat })

/-- The record loop of `load_meta`, on the bytes between the header and the first block. Every
round but the last consumes a record header, so the length is fuel. -/
def Reader.metaLoop (memLimit : Nat) : Nat → Bytes → Reader → XqStatus × Reader
  | 0, _, r => (.ok, r)
  | fuel + 1, p, r =>
    if p.length < recordHeaderSize then (.ok, r)
    else
      match fmtRecordParse p with
      | .error st => (st, r)
      | .ok rh =>
        if rh.size.toNat > p.length - recordHeaderSize then (.corruptRecord, r)
        else
          let payload := (p.drop recordHeaderSize).take rh.size.toNat
          let rest := p.drop (recordHeaderSize + rh.size.toNat)
          let st := fmtRecordVerify p payload
          if st ≠ .ok then (st, r)
          else if rh.tag = recDict then
            match Reader.loadDict zstd r memLimit payload with
            | (.ok, r) => Reader.metaLoop memLimit fuel rest r
            | (st, r) => (st, r)
          else if rh.rflags &&& rflagCritical ≠ 0 ∧ rh.tag ≠ recEndOfBlocks then
            (.unsupportedFeature, r)
          else Reader.metaLoop memLimit fuel rest r

/-- `load_meta`. -/
def Reader.loadMeta (r : Reader) (memLimit : Nat) : XqStatus × Reader :=
  let first := (fmtIndexEntryLoad r.entries 0).fileOffset.toNat
  let start := r.hdr.headerSize.toNat
  if first < start then (.corruptIndex, r)
  else
    let region := first - start
    if region = 0 then (.ok, r)
    else if region > dictSizeMax + 2 ^ 20 then (.corruptRecord, r)
    else if memLimit ≠ 0 ∧ region > memLimit then (.memlimit, r)
    else
      match fileMap r.file start region with
      | (.ok, base) =>
        match Reader.metaLoop zstd memLimit base.length base r with
        | (.ok, r) =>
          if r.hdr.flags &&& flagDictPresent ≠ 0 ∧ r.ddict.isNone then (.corruptRecord, r)
          else (.ok, r)
        | (st, r) => (st, r)
      | (st, _) => (st, r)

/-- `setup_buffers`; `cpus` is the processor count. -/
def Reader.setupBuffers (r : Reader) (opts : Option ReaderOpts) (cpus : Nat) :
    XqStatus × Reader :=
  let bs := r.hdr.blockSize
  let ncache := match opts with
    | some o => if o.cacheBlocks ≠ 0 then o.cacheBlocks else cacheBlocksDefault
    | none => cacheBlocksDefault
  let limit := (opts.map ReaderOpts.memLimit).getD 0
  let overhead := bs + blockHeaderSize + r.codec.bound bs + 8
  if limit ≠ 0 ∧ overhead > limit then (.memlimit, r)
  else
    let room := max ((limit - overhead) / bs) 1
    let ncache := if limit ≠ 0 ∧ room < ncache then room else ncache
    let cbufCap := blockHeaderSize + r.codec.bound bs + 8
    let nslots := match opts with
      | some o => if o.threads > 0 then o.threads.toNat else min (max cpus 1) 4
      | none => min (max cpus 1) 4
    let per := cbufCap + bs
    let room := max (limit / per) 1
    let nslots := if limit ≠ 0 ∧ room < nslots then room else nslots
    (.ok, { r with
      maxRaw := bs
      cbufCap := cbufCap
      cache := List.replicate ncache { block := noBlock, used := 0, data := [] }
      slots := List.replicate nslots
        { dctx := r.codec.dctxNew.getD .null, raw := [], busy := false } })

/-- `xq_reader_open`, on the contents of a seekable file. -/
def readerOpen (file : Bytes) (opts : Option ReaderOpts) (cpus : Nat) : Except XqStatus Reader :=
  match loadTail file with
  | .error st => .error st
  | .ok (hdr, footer) =>
    match codecGet zstd hdr.codecId with
    | none => .error .unsupportedCodec
    | some codec =>
      match loadIndex file hdr footer with
      | .error st => .error st
      | .ok (ip, entries) =>
        match Reader.loadMeta zstd (readerBlank file hdr footer codec ip entries)
            ((opts.map ReaderOpts.memLimit).getD 0) with
        | (.ok, r) =>
          match r.setupBuffers opts cpus with
          | (.ok, r) => .ok r
          | (st, _) => .error st
        | (st, _) => .error st

def Reader.entryAt (r : Reader) (i : Nat) : IndexEntry :=
  fmtIndexEntryLoad r.entries (i * indexEntrySize)

/-- `decode_block_slot`, in the context of a slot; the second component says what it has written
into the slot's block buffer. -/
def Reader.decodeBlockSlot (r : Reader) (dctx : Dctx) (bi : Nat) : XqStatus × PayloadResult :=
  let cur := r.entryAt bi
  let next := r.entryAt (bi + 1)
  let extent := (next.fileOffset - cur.fileOffset).toNat
  if extent < blockHeaderSize then blockRefused .corruptIndex dctx
  else if extent > r.cbufCap then blockRefused .corruptIndex dctx
  else
    match filePread r.file extent cur.fileOffset.toNat with
    | (.ok, staging) =>
      if staging.length ≠ extent then blockRefused .truncated dctx
      else
        match fmtBlockParse (staging.take blockHeaderSize) with
        | .error st => blockRefused st dctx
        | .ok b =>
          if b.rawOffset ≠ cur.rawOffset then blockRefused .corruptBlock dctx
          else if b.rawSize.toNat > r.maxRaw then blockRefused .memlimit dctx
          else if blockHeaderSize + b.storedSize.toNat + r.checksumLen ≠ extent then
            blockRefused .corruptBlock dctx
          else if b.storedSize.toNat > r.cbufCap then blockRefused .corruptBlock dctx
          else
            let tmp := staging.drop blockHeaderSize
            let payload := tmp.take b.storedSize.toNat
            let ck := tmp.drop b.storedSize.toNat
            if ¬ blockChecksumOk r.hdr payload ck then blockRefused .corruptBlock dctx
            else
              let p := blockPayload zstd dctx r.ddict r.maxRaw b payload
              (blockFinish b p, p)
    | (st, _) => blockRefused st dctx

/-- The scan of `slot_acquire`; `none` is a reader all of whose slots are busy. -/
def Reader.slotAcquire (r : Reader) : Option Nat := r.slots.findIdx? fun s => ¬ s.busy

/-- The cache scan of `block_copy`. -/
def Reader.cacheFind (r : Reader) (bi : Nat) : Option Nat :=
  r.cache.findIdx? fun c => c.block = bi

/-- The entry to evict: the first of those used longest ago. -/
def cacheVictim (cache : List CacheEntry) : Nat :=
  (List.range cache.length).foldl (fun victim i =>
    if ((cache.map CacheEntry.used).getD i 0) < ((cache.map CacheEntry.used).getD victim 0) then i
    else victim) 0

/-- The bytes `block_copy` hands out of a block. -/
def blockBytes (data : Bytes) (within take : Nat) : Bytes := (data.drop within).take take

/-- `block_copy`: from the cache, or decoded in a free slot and put in the cache. A success returns
the block's length and the bytes copied out. -/
def Reader.blockCopy (r : Reader) (bi within take : Nat) :
    Except XqStatus (Nat × Bytes) × Reader :=
  match r.cacheFind bi with
  | some i =>
    let data := ((r.cache.map CacheEntry.data).getD i [])
    (.ok (data.length, blockBytes data within take),
      { r with
        cache := r.cache.modify i fun c => { c with used := r.clock + 1 }
        clock := r.clock + 1
        statHits := r.statHits + 1 })
  | none =>
    match r.slotAcquire with
    -- With every slot busy the caller waits; a single caller never finds that.
    | none => (.error .internal, r)
    | some si =>
      let dctx := ((r.slots.map DecSlot.dctx).getD si .null)
      let (st, p) := Reader.decodeBlockSlot zstd r dctx bi
      let r := { r with
        slots := r.slots.modify si fun s => { s with dctx := p.dctx, raw := p.written }
        calls := r.calls ++ p.call.toList }
      if st ≠ .ok then (.error st, r)
      else
        (.ok (p.written.length, blockBytes p.written within take),
          { r with
            cache := r.cache.modify (cacheVictim r.cache) fun _ =>
              { block := bi, used := r.clock + 1, data := p.written }
            clock := r.clock + 1
            statMisses := r.statMisses + 1 })

/-- The loop of `xq_reader_pread`; every round but the last delivers a byte. -/
def Reader.preadLoop (off n : Nat) : Nat → Bytes → Reader → Except XqStatus Bytes × Reader
  | 0, out, r => (.ok out, r)
  | fuel + 1, out, r =>
    if out.length < n then
      match fmtIndexFind r.entries r.nentries (UInt64.ofNat (off + out.length)) with
      | none => (.error .corruptIndex, r)
      | some bi =>
        let within := off + out.length - (r.entryAt bi).rawOffset.toNat
        match Reader.blockCopy zstd r bi within (n - out.length) with
        | (.error st, r) => (.error st, r)
        | (.ok (blen, got), r) =>
          if within ≥ blen then (.error .corruptBlock, r)
          else Reader.preadLoop off n fuel (out ++ got) r
    else (.ok out, r)

/-- `xq_reader_pread`; an error is the source's negative return. -/
def Reader.pread (r : Reader) (n off : Nat) : Except XqStatus Bytes × Reader :=
  if n = 0 then (.ok [], r)
  else if off ≥ r.rawSize.toNat then (.ok [], r)
  else
    let n := min n (r.rawSize.toNat - off)
    Reader.preadLoop zstd off n n [] r

/-- A history of reads on one handle; the results of all but the state are dropped. -/
def Reader.preads : List (Nat × Nat) → Reader → Reader
  | [], r => r
  | (n, off) :: rest, r => Reader.preads rest (Reader.pread zstd r n off).2

/-- The `XQ_STREAM_CK_*` results. -/
inductive StreamCk
  | absent
  | ok
  | bad
  | skip
  deriving DecidableEq, Repr

/-- `xq_verify_report`. -/
structure VerifyReport where
  blocksTotal : Nat
  blocksOk : Nat
  blocksBad : Nat
  bytesVerified : UInt64
  rawSize : UInt64
  storedSize : Nat
  firstBadRawOffset : UInt64
  firstBadStatus : XqStatus
  indexOk : Bool
  footerOk : Bool
  streamChecksum : StreamCk
  deriving DecidableEq, Repr

/-- The loop state of `xq_reader_verify`. -/
structure VerifyRun where
  rep : VerifyReport
  ck : Xxh64State
  checksummable : Bool

/-- A block that did not decode; the first one is remembered. -/
def VerifyRun.bad (v : VerifyRun) (rawOffset : UInt64) (st : XqStatus) : VerifyRun :=
  let first := v.rep.firstBadRawOffset = 0xFFFFFFFFFFFFFFFF
  { v with
    rep := { v.rep with
      blocksBad := v.rep.blocksBad + 1
      firstBadRawOffset := if first then rawOffset else v.rep.firstBadRawOffset
      firstBadStatus := if first then st else v.rep.firstBadStatus }
    checksummable := false }

/-- A block that decoded to `raw`. -/
def VerifyRun.good (v : VerifyRun) (raw : Bytes) : VerifyRun :=
  { v with
    rep := { v.rep with
      blocksOk := v.rep.blocksOk + 1
      bytesVerified := v.rep.bytesVerified + UInt64.ofNat raw.length }
    ck := if v.checksummable then xxh64Update v.ck raw else v.ck }

/-- The block loop of `xq_reader_verify`, in the reader's own context. -/
def Reader.verifyLoop : Nat → Nat → VerifyRun → Reader → VerifyRun × Reader
  | 0, _, v, r => (v, r)
  | left + 1, i, v, r =>
    let (st, p) := Reader.decodeBlockSlot zstd r r.dctx i
    let r := { r with dctx := p.dctx, calls := r.calls ++ p.call.toList }
    let v := if st = .ok then v.good p.written else v.bad (r.entryAt i).rawOffset st
    Reader.verifyLoop left (i + 1) v r

/-- `xq_reader_verify`, with its scratch buffer granted. -/
def Reader.verify (r : Reader) : XqStatus × VerifyReport × Reader :=
  let wanted := r.hdr.checksumId ≠ 0 ∧ r.footer.streamChecksum ≠ 0
  let start : VerifyRun :=
    { rep :=
        { blocksTotal := r.blockCount, blocksOk := 0, blocksBad := 0, bytesVerified := 0,
          rawSize := r.rawSize, storedSize := r.file.length,
          firstBadRawOffset := 0xFFFFFFFFFFFFFFFF, firstBadStatus := .ok, indexOk := true,
          footerOk := true, streamChecksum := .absent }
      ck := xxh64Init 0, checksummable := wanted }
  let (v, r) := Reader.verifyLoop zstd r.blockCount 0 start r
  let streamChecksum :=
    if v.checksummable then
      if xxh64Final v.ck = r.footer.streamChecksum then StreamCk.ok else .bad
    else if wanted then .skip
    else .absent
  let rep : VerifyReport := { v.rep with streamChecksum := streamChecksum }
  (if rep.blocksBad ≠ 0 then .corruptBlock else .ok, rep, r)

end Xq
