import Xq.Core.Dict
import Xq.Core.Stream

/-! The sequential decoder: sections one after another, until END_OF_BLOCKS. -/

namespace Xq

/-- The checksum behind a payload is the one the file's algorithm computes. -/
def payloadChecksumOk (checksumId : UInt8) (payload ck : Bytes) : Bool :=
  if checksumId = 1 then ld32le ck 0 = crc32c payload else ld64le ck 0 = xxh64 payload 0

/-- The test each decode path makes before it looks at a payload. -/
def blockChecksumOk (h : FileHeader) (payload ck : Bytes) : Bool :=
  fmtChecksumSize h.checksumId = 0 || payloadChecksumOk h.checksumId payload ck

/-- What the payload step of a decode path leaves behind: its status, the bytes it has written into
the block buffer, the context after it, and the codec call it made. -/
structure PayloadResult where
  status : XqStatus
  written : Bytes
  dctx : Dctx
  call : Option DecodeCall

/-- A block given up before its payload step: nothing has been written. -/
def blockRefused (st : XqStatus) (dctx : Dctx) : XqStatus × PayloadResult :=
  (st, { status := st, written := [], dctx := dctx, call := none })

/-- The payload of a block: copied when it is stored, and otherwise handed to the codec its own
header names. All three decode paths share these lines; `cap` is what they pass to the codec. -/
def blockPayload (zstd : Option CodecVt) (dctx : Dctx) (ddict : Option Ddict) (cap : Nat)
    (b : BlockHeader) (payload : Bytes) : PayloadResult :=
  if b.bflags &&& bflagStored ≠ 0 then
    if b.storedSize ≠ b.rawSize then
      { status := .corruptBlock, written := [], dctx := dctx, call := none }
    else { status := .ok, written := payload, dctx := dctx, call := none }
  else
    match codecGet zstd b.codecId with
    | none => { status := .unsupportedCodec, written := [], dctx := dctx, call := none }
    | some c =>
      let usesDict := b.bflags &&& bflagUsesDict ≠ 0
      if usesDict ∧ ddict.isNone then
        { status := .corruptBlock, written := [], dctx := dctx, call := none }
      else
        let digest := if usesDict then ddict else none
        let r := c.decompress dctx cap payload b.rawSize.toNat digest
        { status := r.1.1, written := r.1.2, dctx := r.2,
          call := some
            { named := b.codecId, usesDict := usesDict, codec := c, dctx := dctx,
              ddict := digest } }

/-- The last step of a decode path: the block must have the size its header says. -/
def blockFinish (b : BlockHeader) (r : PayloadResult) : XqStatus :=
  if r.status ≠ .ok then r.status
  else if r.written.length ≠ b.rawSize.toNat then .corruptBlock
  else .ok

/-- The block size a header announces; zero stands for the largest there is. -/
def FileHeader.blockSize (h : FileHeader) : Nat :=
  if h.blockSizeLog ≠ 0 then 2 ^ h.blockSizeLog.toNat else blockSizeMax

/-- `xq_decoder`. `raw` holds what the last decode has written into the block buffer, and `calls`
the codec calls made so far. -/
structure Decoder where
  io : Stream
  memLimit : Nat
  hdr : FileHeader
  codec : CodecVt
  dctx : Dctx
  ddict : Option Ddict
  checksumLen : Nat
  rawCap : Nat
  cbufCap : Nat
  raw : Bytes
  rawLen : Nat
  rawPos : Nat
  rawOffset : UInt64
  streamCk : Xxh64State
  sawEob : Bool
  sticky : XqStatus
  calls : List DecodeCall

variable (zstd : Option CodecVt)

def maxBlock : Nat := blockSizeMax

/-- `read_file_header`, together with the `memset` before it. -/
def readFileHeader (memLimit : Nat) (io : Stream) : Except XqStatus Decoder :=
  match io.need fileHeaderSize with
  | (.ok, io) =>
    match fmtHeaderParse (io.rbuf.take fileHeaderSize) with
    | .error st => .error st
    | .ok hdr =>
      let io := io.consume fileHeaderSize
      let extra := hdr.headerSize.toNat - fileHeaderSize
      match if extra > 0 then io.need extra else (.ok, io) with
      | (.ok, io) =>
        let io := io.consume extra
        match codecGet zstd hdr.codecId with
        | none => .error .unsupportedCodec
        | some codec =>
          let bs := hdr.blockSize
          if memLimit ≠ 0 ∧ bs > memLimit then .error .memlimit
          else if bs > maxBlock then .error .memlimit
          else
            .ok { io := io, memLimit := memLimit, hdr := hdr, codec := codec,
                  dctx := codec.dctxNew.getD .null, ddict := none,
                  checksumLen := fmtChecksumSize hdr.checksumId, rawCap := bs,
                  cbufCap := codec.bound bs, raw := [], rawLen := 0, rawPos := 0, rawOffset := 0,
                  streamCk := xxh64Init 0, sawEob := false, sticky := .ok, calls := [] }
      | (st, _) => .error st
  | (st, _) => .error st

/-- `xq_decoder_create`. -/
def decoderCreate (src : Source) (memLimit : Nat) : Except XqStatus Decoder :=
  readFileHeader zstd memLimit (Stream.init src)

/-- `read_dict_record` behind the payload's checks. -/
def Decoder.loadDict (d : Decoder) (info : DictInfo) (stored : Bytes) : XqStatus × Decoder :=
  let ((r, dctx), call) := dictDecode zstd d.dctx info stored
  let d := { d with dctx := dctx, calls := d.calls ++ call.toList }
  match r with
  | .error st => (st, d)
  | .ok raw =>
    match dictDigest d.codec info raw with
    | .error st => (st, d)
    | .ok ddict => (.ok, { d with ddict := some ddict })

def Decoder.readDictRecord (d : Decoder) (rhdr : Bytes) (r : RecordHeader) : XqStatus × Decoder :=
  if d.ddict.isSome then (.corruptRecord, d)
  else if r.size.toNat < dictPayloadHeader then (.corruptRecord, d)
  else if r.size.toNat > dictSizeMax + dictPayloadHeader then (.corruptRecord, d)
  else if d.memLimit ≠ 0 ∧ r.size.toNat > d.memLimit then (.memlimit, d)
  else
    match d.io.readExact r.size.toNat with
    | (.ok, payload, io) =>
      let d := { d with io := io }
      let st := fmtRecordVerify rhdr payload
      if st ≠ .ok then (st, d)
      else
        match dictPayloadParse payload with
        | .error st => (st, d)
        | .ok info =>
          if d.memLimit ≠ 0 ∧ info.rawSize.toNat > d.memLimit then (.memlimit, d)
          else Decoder.loadDict zstd d info (payload.drop dictPayloadHeader)
    | (st, _, io) => (st, { d with io := io })

/-- `handle_record`, on the header bytes that `need` has put at the front of the window. -/
def Decoder.handleRecord (d : Decoder) (hdrbytes : Bytes) : XqStatus × Decoder :=
  match fmtRecordParse hdrbytes with
  | .error st => (st, d)
  | .ok r =>
    let d := { d with io := d.io.consume recordHeaderSize }
    if r.tag = recEndOfBlocks then
      if r.size ≠ 0 then (.corruptRecord, d)
      else
        let st := fmtRecordVerify hdrbytes []
        if st ≠ .ok then (st, d) else (.ok, { d with sawEob := true })
    else if r.tag = recDict then Decoder.readDictRecord zstd d hdrbytes r
    else if r.tag ≠ recUserMeta ∧ r.tag ≠ recIndex ∧ r.rflags &&& rflagCritical ≠ 0 then
      (.unsupportedFeature, d)
    else
      let (st, io) := d.io.skip r.size.toNat
      (st, { d with io := io })

/-- The block branch of `next_block` behind the payload's checksum. -/
def Decoder.decodePayload (d : Decoder) (b : BlockHeader) (payload : Bytes) :
    XqStatus × Decoder :=
  let r := blockPayload zstd d.dctx d.ddict d.rawCap b payload
  let d := { d with raw := r.written, dctx := r.dctx, calls := d.calls ++ r.call.toList }
  let st := blockFinish b r
  if st ≠ .ok then (st, d)
  else
    (.ok, { d with
      streamCk := if d.hdr.checksumId ≠ 0 then xxh64Update d.streamCk r.written else d.streamCk
      rawLen := r.written.length
      rawPos := 0
      rawOffset := d.rawOffset + UInt64.ofNat r.written.length })

/-- The block branch of `next_block` behind the block header. -/
def Decoder.readBlock (d : Decoder) (b : BlockHeader) : XqStatus × Decoder :=
  if b.rawOffset ≠ d.rawOffset then (.corruptBlock, d)
  else if b.rawSize.toNat > d.rawCap then (.memlimit, d)
  else if b.storedSize.toNat > d.cbufCap then (.corruptBlock, d)
  else
    match d.io.readExact b.storedSize.toNat with
    | (.ok, payload, io) =>
      match if d.checksumLen ≠ 0 then io.readExact d.checksumLen else (.ok, [], io) with
      | (.ok, ck, io) =>
        let d := { d with io := io }
        if ¬ blockChecksumOk d.hdr payload ck then (.corruptBlock, d)
        else Decoder.decodePayload zstd d b payload
      | (st, _, io) => (st, { d with io := io })
    | (st, _, io) => (st, { d with io := io })

/-- The loop of `next_block`. Every round but the last consumes a record header, so the bytes that
remain are fuel. -/
def Decoder.nextBlockLoop : Nat → Decoder → XqStatus × Decoder
  | 0, d => (.ok, d)
  | fuel + 1, d =>
    if d.sawEob then (.ok, d)
    else
      match d.io.need 2 with
      | (.ok, io) =>
        let d := { d with io := io }
        if ld16le d.io.rbuf 0 ≠ blockMagic then
          match d.io.need recordHeaderSize with
          | (.ok, io) =>
            let d := { d with io := io }
            match Decoder.handleRecord zstd d (d.io.rbuf.take recordHeaderSize) with
            | (.ok, d) => Decoder.nextBlockLoop fuel d
            | (st, d) => (st, d)
          | (st, io) => (st, { d with io := io })
        else
          match d.io.need blockHeaderSize with
          | (.ok, io) =>
            let d := { d with io := io }
            match fmtBlockParse (d.io.rbuf.take blockHeaderSize) with
            | .error st => (st, d)
            | .ok b => Decoder.readBlock zstd { d with io := d.io.consume blockHeaderSize } b
          | (st, io) => (st, { d with io := io })
      | (st, io) => (st, { d with io := io })

/-- The bytes a decoder has not consumed yet, wherever they are. -/
def Decoder.remaining (d : Decoder) : Nat := d.io.rbuf.length + d.io.src.rest.length

def Decoder.nextBlock (d : Decoder) : XqStatus × Decoder :=
  Decoder.nextBlockLoop zstd (d.remaining + 1) d

/-- The loop of `xq_decoder_read`; every round but the last delivers a byte. -/
def Decoder.readLoop (len : Nat) : Nat → Bytes → Decoder → Except XqStatus Bytes × Decoder
  | 0, out, d => (.ok out, d)
  | fuel + 1, out, d =>
    if out.length < len then
      if d.rawPos = d.rawLen then
        if d.sawEob then (.ok out, d)
        else
          match Decoder.nextBlock zstd d with
          | (.ok, d) =>
            if d.rawPos = d.rawLen then (.ok out, d)
            else
              let take := min (len - out.length) (d.rawLen - d.rawPos)
              Decoder.readLoop len fuel (out ++ (d.raw.drop d.rawPos).take take)
                { d with rawPos := d.rawPos + take }
          | (st, d) => (.error st, { d with sticky := st })
      else
        let take := min (len - out.length) (d.rawLen - d.rawPos)
        Decoder.readLoop len fuel (out ++ (d.raw.drop d.rawPos).take take)
          { d with rawPos := d.rawPos + take }
    else (.ok out, d)

/-- `xq_decoder_read`; an error is the source's negative return. -/
def Decoder.read (d : Decoder) (len : Nat) : Except XqStatus Bytes × Decoder :=
  if d.sticky ≠ .ok then (.error d.sticky, d) else Decoder.readLoop zstd len (len + 1) [] d

end Xq
