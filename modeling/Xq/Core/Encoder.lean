import Xq.Core.Dict

/-! The encoder: blocking, the stored fallback, the dictionary record, the index and the footer. -/

namespace Xq

/-- Run the next action only after a success, as the early returns of the source do. -/
def andThen {σ : Type} (r : XqStatus × σ) (next : σ → XqStatus × σ) : XqStatus × σ :=
  if r.1 = .ok then next r.2 else r

/-- `xq_enc_job`; a job without a checksum leaves `ck` empty. -/
structure EncJob where
  raw : Bytes
  cbuf : Bytes
  stored : Bool
  ck : Bytes
  st : XqStatus
  deriving DecidableEq, Repr

/-- `xq_encoder`. `sink` answers each call from its number, what it has accepted and the chunk;
`out` is what it has accepted, and `verdicts` its answers so far. `raw` holds the first `raw_len`
bytes of the block buffer, and `mt` the number of workers of a parallel encoder. -/
structure Encoder where
  sink : Nat → Bytes → Bytes → XqStatus
  p : XqParams
  codec : CodecVt
  cctx : Cctx
  cdict : Option Cdict
  dict : Option XqDict
  blockSize : Nat
  blockSizeLog : Nat
  checksumLen : Nat
  cbufCap : Nat
  mt : Option Nat
  raw : Bytes
  rawOffset : Nat
  fileOffset : Nat
  idx : List IndexEntry
  idxCap : Nat
  heap : Heap
  streamCk : Xxh64State
  finished : Bool
  sticky : XqStatus
  out : Bytes
  verdicts : List XqStatus

def Encoder.emit (e : Encoder) (buf : Bytes) : XqStatus × Encoder :=
  if e.sticky ≠ .ok then (e.sticky, e)
  else
    let st := e.sink e.verdicts.length e.out buf
    let e := { e with verdicts := e.verdicts ++ [st] }
    if st ≠ .ok then (st, { e with sticky := st })
    else (.ok, { e with out := e.out ++ buf, fileOffset := e.fileOffset + buf.length })

/-- The header a new encoder announces. -/
def Encoder.fileHeader (e : Encoder) (rawSizeHint : UInt64) : FileHeader :=
  let flags := flagIndexExpected ||| flagUniformBlocks
  let flags := if rawSizeHint = sizeUnknown then flags ||| flagStreamWritten else flags
  let flags := if e.dict.isSome then flags ||| flagDictPresent else flags
  { formatMajor := formatMajor, formatMinor := formatMinor,
    headerSize := UInt16.ofNat fileHeaderSize, flags := flags, codecId := e.p.codec.id,
    level := UInt8.ofNat e.p.level.toNat, checksumId := e.p.checksum.id,
    blockSizeLog := UInt8.ofNat e.blockSizeLog, rawSize := rawSizeHint }

def Encoder.writeFileHeader (e : Encoder) (rawSizeHint : UInt64) : XqStatus × Encoder :=
  e.emit (fmtHeaderStore (e.fileHeader rawSizeHint))

/-- Room for one more index entry: the array doubles when it is full. -/
def Encoder.idxGrow (e : Encoder) : XqStatus × Encoder :=
  if e.idx.length = e.idxCap then
    let ncap := if e.idxCap ≠ 0 then e.idxCap * 2 else 1024
    if ncap > (2 ^ 64 - 1) / indexEntrySize then (.oom, e)
    else
      match e.heap.malloc with
      | (none, heap) => (.oom, { e with heap := heap })
      | (some _, heap) => (.ok, { e with idxCap := ncap, heap := heap })
  else (.ok, e)

def Encoder.idxPush (e : Encoder) (fileOff rawOff : Nat) : XqStatus × Encoder :=
  andThen e.idxGrow fun e =>
    (.ok, { e with idx := e.idx ++
      [{ fileOffset := UInt64.ofNat fileOff, rawOffset := UInt64.ofNat rawOff }] })

/-- The payload of a job: its raw bytes when it is stored. -/
def EncJob.payload (j : EncJob) : Bytes := if j.stored then j.raw else j.cbuf

/-- `job_checksum`, on the payload of a finished job. -/
def jobChecksum (checksum : XqChecksum) (payload : Bytes) : Bytes :=
  match checksum with
  | .none => []
  | .crc32c => st32le (crc32c payload)
  | .xxh64 => st64le (xxh64 payload 0)

/-- `compress_job`: a block that does not shrink, or does not fit, is stored. -/
def compressJob (e : Encoder) (raw : Bytes) (cctx : Cctx) : EncJob × Cctx :=
  let ((st, out), cctx) := e.codec.compress cctx e.cbufCap raw e.p.level e.cdict
  let j : EncJob :=
    if st = .dstTooSmall ∨ (st = .ok ∧ out.length ≥ raw.length) then
      { raw := raw, cbuf := [], stored := true, ck := [], st := .ok }
    else { raw := raw, cbuf := out, stored := false, ck := [], st := st }
  (if j.st = .ok then { j with ck := jobChecksum e.p.checksum j.payload } else j, cctx)

/-- The block header `emit_job` writes for a job. -/
def Encoder.blockHeader (e : Encoder) (j : EncJob) : BlockHeader :=
  let bflags := if j.stored then bflagStored else 0
  { bflags := if e.cdict.isSome ∧ ¬ j.stored then bflags ||| bflagUsesDict else bflags
    codecId := if j.stored then 0 else e.p.codec.id
    storedSize := UInt32.ofNat j.payload.length
    rawSize := UInt32.ofNat j.raw.length
    rawOffset := UInt64.ofNat e.rawOffset }

/-- An early failure of `emit_job` that it records itself. -/
def Encoder.fail (e : Encoder) (st : XqStatus) : XqStatus × Encoder := (st, { e with sticky := st })

/-- The account of a block whose bytes have all been written. -/
def Encoder.blockWritten (e : Encoder) (j : EncJob) : Encoder :=
  { e with
    streamCk := if e.p.checksum ≠ .none then xxh64Update e.streamCk j.raw else e.streamCk
    rawOffset := e.rawOffset + j.raw.length }

def Encoder.emitJob (e : Encoder) (j : EncJob) : XqStatus × Encoder :=
  if e.sticky ≠ .ok then (e.sticky, e)
  else if j.st ≠ .ok then e.fail j.st
  else
    match e.idxPush e.fileOffset e.rawOffset with
    | (.ok, e) =>
      andThen (e.emit (fmtBlockStore (e.blockHeader j))) fun e =>
      andThen (e.emit j.payload) fun e =>
      andThen (if e.checksumLen ≠ 0 then e.emit j.ck else (.ok, e)) fun e =>
        (.ok, e.blockWritten j)
    | (st, e) => e.fail st

/-- `flush_block` of a single-threaded encoder. -/
def Encoder.flushBlock (e : Encoder) : XqStatus × Encoder :=
  if e.raw = [] then (.ok, e)
  else if e.sticky ≠ .ok then (e.sticky, e)
  else
    let (j, cctx) := compressJob e e.raw e.cctx
    let (st, e) := Encoder.emitJob { e with cctx := cctx } j
    (st, { e with raw := [] })

/-- How a dictionary is stored: compressed when that is smaller, plain otherwise. -/
def Encoder.storeDict (e : Encoder) (d : XqDict) : XqStatus × (UInt8 × Bytes) × Encoder :=
  let cap := e.codec.bound d.bytes.length
  let ((st, out), cctx) := e.codec.compress e.cctx cap d.bytes e.p.level none
  let e := { e with cctx := cctx }
  if st = .ok ∧ out.length < d.bytes.length then (.ok, (e.p.codec.id, out), e)
  else if st ≠ .ok ∧ st ≠ .dstTooSmall then (st, (0, []), e)
  else (.ok, (0, d.bytes), e)

/-- The record header in front of a dictionary payload, whose CRC covers both its parts. -/
def dictRecordHeader (head stored : Bytes) : Bytes :=
  let body := st8 recDict ++ st8 rflagCritical ++
    st64le (UInt64.ofNat (dictPayloadSize stored.length))
  let crc := crc32cUpdate (crc32cUpdate (crc32c body) head) stored
  body ++ st32le crc

def Encoder.writeDictRecord (e : Encoder) (d : XqDict) : XqStatus × Encoder :=
  match e.heap.malloc with
  | (none, heap) => (.oom, { e with heap := heap })
  | (some _, heap) =>
    match Encoder.storeDict { e with heap := heap } d with
    | (.ok, (storedCodec, stored), e) =>
      let head := dictPayloadStore d storedCodec stored.length
      andThen (e.emit (dictRecordHeader head stored)) fun e =>
      andThen (e.emit head) fun e =>
        e.emit stored
    | (st, _, e) => (st, e)

/-- What the environment contributes to a new encoder: the allocators, and the processor count. -/
structure Machine where
  heap : Heap
  cctxHeap : Heap
  cdictHeap : Heap
  cpus : Nat

/-- A number of requests that must all be granted. -/
def Heap.mallocAll : Nat → Heap → Bool × Heap
  | 0, h => (true, h)
  | n + 1, h =>
    let (granted, h) := h.malloc
    let (rest, h) := h.mallocAll n
    (granted.isSome && rest, h)

/-- The loop that finds the logarithm of a power of two; the fuel is the width of the shift. -/
def blockSizeLogFrom (bs : Nat) : Nat → Nat → Nat
  | 0, log => log
  | fuel + 1, log => if 2 ^ log ≠ bs then blockSizeLogFrom bs fuel (log + 1) else log

def blockSizeLogFor (bs : Nat) : Nat := blockSizeLogFrom bs 32 0

/-- How many workers a new encoder runs: the processors up to eight when none are requested, and
fewer when the memory limit does not leave room for their buffers. -/
def encoderThreads (p : XqParams) (codec : CodecVt) (bs cpus : Nat) : Nat :=
  let nthreads := if p.threads = 0 then min cpus 8 else p.threads.toNat
  if nthreads > 1 ∧ codec.cctxNew.isSome then
    let per := bs + codec.bound bs
    if p.memLimit ≠ 0 ∧ nthreads * 2 * per > p.memLimit then
      -- The quotient goes through a cast to `int`, which leaves a large one negative.
      if per ≠ 0 then max (((p.memLimit / per : Nat) : Int).bmod (2 ^ 32)).toNat 1 else 1
    else nthreads
  else nthreads

/-- An encoder after the `memset` and the assignments at the head of `xq_encoder_create`. -/
def encoderBlank (codec : CodecVt) (sink : Nat → Bytes → Bytes → XqStatus) (p : XqParams)
    (heap : Heap) : Encoder :=
  { sink := sink, p := p, codec := codec, cctx := .null, cdict := none, dict := none,
    blockSize := p.effectiveBlockSize, blockSizeLog := blockSizeLogFor p.effectiveBlockSize,
    checksumLen := fmtChecksumSize p.checksum.id,
    cbufCap := codec.bound p.effectiveBlockSize, mt := none, raw := [], rawOffset := 0,
    fileOffset := 0, idx := [], idxCap := 0, heap := heap, streamCk := xxh64Init 0,
    finished := false, sticky := .ok, out := [], verdicts := [] }

/-- The context of a new encoder; a codec without one has a null context. -/
def Encoder.createCctx (e : Encoder) (m : Machine) : XqStatus × Encoder :=
  match e.codec.cctxNew with
  | none => (.ok, e)
  | some cctxNew =>
    match e.heap.malloc with
    | (none, heap) => (.oom, { e with heap := heap })
    | (some _, heap) => (.ok, { e with cctx := cctxNew m.cctxHeap, heap := heap })

/-- The dictionary of a new encoder, digested once for all its blocks; an empty one is none. -/
def Encoder.createDict (e : Encoder) (m : Machine) (dict : Option XqDict) : XqStatus × Encoder :=
  match dict with
  | none => (.ok, e)
  | some d =>
    if d.bytes = [] then (.ok, e)
    else if ¬ codecHasDict e.codec then (.unsupportedFeature, e)
    else
      match (e.codec.cdictNew.map fun cdictNew => (cdictNew m.cdictHeap d.bytes).1).join with
      | none => (.oom, e)
      | some cdict => (.ok, { e with dict := some d, cdict := some cdict })

/-- The workers of a new encoder, when it has any: the ring itself, four arrays, two buffers a
slot and one context a worker. -/
def Encoder.createMt (e : Encoder) (m : Machine) : XqStatus × Encoder :=
  let nthreads := encoderThreads e.p e.codec e.blockSize m.cpus
  if nthreads > 1 ∧ e.codec.cctxNew.isSome then
    match e.heap.mallocAll (5 + 2 * (2 * nthreads) + nthreads) with
    | (false, heap) => (.oom, { e with heap := heap })
    | (true, heap) => (.ok, { e with mt := some nthreads, heap := heap })
  else (.ok, e)

/-- `xq_encoder_create`; a failure keeps what the sink had accepted until then. -/
def encoderCreate (zstd : Option CodecVt) (m : Machine) (sink : Nat → Bytes → Bytes → XqStatus)
    (p : XqParams) (rawSizeHint : UInt64) (dict : Option XqDict) :
    Except (XqStatus × Bytes) Encoder :=
  let st := paramsCheck (codecAvailable zstd) p
  if st ≠ .ok then .error (st, [])
  else
    match codecGet zstd p.codec.id with
    | none => .error (.unsupportedCodec, [])
    | some codec =>
      match m.heap.mallocAll 3 with
      | (false, _) => .error (.oom, [])
      | (true, heap) =>
        let r :=
          andThen ((encoderBlank codec sink p heap).createCctx m) fun e =>
          andThen (e.createDict m dict) fun e =>
          andThen (e.createMt m) fun e =>
          andThen (e.writeFileHeader rawSizeHint) fun e =>
            match e.dict with
            | none => (.ok, e)
            | some d => e.writeDictRecord d
        if r.1 = .ok then .ok r.2 else .error (r.1, r.2.out)

/-- The copying loop of `xq_encoder_write`; every round takes a byte, so the length is fuel. -/
def Encoder.writeLoop : Nat → Bytes → Encoder → XqStatus × Encoder
  | 0, _, e => (.ok, e)
  | fuel + 1, buf, e =>
    if buf = [] then (.ok, e)
    else
      let room := e.blockSize - e.raw.length
      let take := if buf.length < room then buf.length else room
      let e := { e with raw := e.raw ++ buf.take take }
      if e.raw.length = e.blockSize then
        andThen e.flushBlock (Encoder.writeLoop fuel (buf.drop take))
      else Encoder.writeLoop fuel (buf.drop take) e

def Encoder.write (e : Encoder) (buf : Bytes) : XqStatus × Encoder :=
  if e.sticky ≠ .ok then (e.sticky, e)
  else if e.finished then (.param, e)
  else Encoder.writeLoop buf.length buf e

/-- The index entries in batches of 256, as the source serialises them. -/
def indexChunks : Nat → List IndexEntry → List Bytes
  | 0, _ => []
  | fuel + 1, entries =>
    if entries = [] then []
    else (entries.take 256).flatMap fmtIndexEntryStore :: indexChunks fuel (entries.drop 256)

def Encoder.emitAll : List Bytes → Encoder → XqStatus × Encoder
  | [], e => (.ok, e)
  | chunk :: rest, e => andThen (e.emit chunk) (Encoder.emitAll rest)

/-- The ten bytes in front of the CRC of the index record. -/
def indexRecordBody (size : UInt64) : Bytes := st8 recIndex ++ st8 0 ++ st64le size

/-- The index record of a stream with at least one block. -/
def Encoder.finishIndex (e : Encoder) (nblocks : Nat) : XqStatus × Encoder :=
  let payload := fmtIndexPayloadSize (UInt64.ofNat nblocks)
  if payload = 0 then e.fail .internal
  else
    let pre := fmtIndexPreambleStore
      { blockCount := UInt64.ofNat nblocks, totalRaw := UInt64.ofNat e.rawOffset,
        totalStored := UInt64.ofNat (e.fileOffset - fileHeaderSize) }
    let chunks := indexChunks e.idx.length e.idx
    let body := indexRecordBody payload
    let crc := chunks.foldl crc32cUpdate (crc32cUpdate (crc32c body) pre)
    andThen (e.emit (body ++ st32le crc)) fun e =>
    andThen (e.emit pre) fun e =>
      e.emitAll chunks

/-- The footer that points at an index, or at none. -/
def Encoder.finishFooter (e : Encoder) (indexOffset indexSize : Nat) : XqStatus × Encoder :=
  andThen (e.emit (fmtFooterStore
    { indexOffset := UInt64.ofNat indexOffset, indexSize := UInt64.ofNat indexSize,
      streamChecksum := if e.p.checksum ≠ .none then xxh64Final e.streamCk else 0 })) fun e =>
    (.ok, { e with finished := true })

def endOfBlocks : Bytes :=
  fmtRecordStore { tag := recEndOfBlocks, rflags := rflagCritical, size := 0, crc32c := 0 } []

/-- The part of `xq_encoder_finish` after the last block has been written. -/
def Encoder.finishTail (e : Encoder) : XqStatus × Encoder :=
  let eob := e.fileOffset
  andThen (e.emit endOfBlocks) fun e =>
    match e.idxPush eob e.rawOffset with
    | (.ok, e) =>
      let nblocks := e.idx.length - 1
      if nblocks > 0 then
        andThen (e.finishIndex nblocks) fun e' =>
          e'.finishFooter e.fileOffset
            (recordHeaderSize + (fmtIndexPayloadSize (UInt64.ofNat nblocks)).toNat)
      else e.finishFooter 0 0
    | (st, e) => e.fail st

/-- `xq_encoder_finish` of a single-threaded encoder. -/
def Encoder.finish (e : Encoder) : XqStatus × Encoder :=
  if e.sticky ≠ .ok then (e.sticky, e)
  else if e.finished then (.ok, e)
  else andThen e.flushBlock Encoder.finishTail

end Xq
