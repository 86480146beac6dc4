import Xq.Core.Decoder
import Xq.Core.File

/-! Repair: a scan for block headers that needs neither the index nor the footer. -/

namespace Xq

def scanWindow : Nat := 2 ^ 20

/-- `xq_repair_opts`. -/
structure RepairOpts where
  fillGaps : Bool
  fillByte : UInt8
  deriving DecidableEq, Repr

/-- `xq_repair_report`. -/
structure RepairReport where
  blocksFound : Nat
  blocksOk : Nat
  blocksBad : Nat
  blocksSkipped : Nat
  bytesRecovered : Nat
  rawSizeExpected : Nat
  gaps : Nat
  gapBytes : Nat
  dictOk : Bool
  deriving DecidableEq, Repr

/-- The `memset` report. -/
def repairReportBlank : RepairReport :=
  { blocksFound := 0, blocksOk := 0, blocksBad := 0, blocksSkipped := 0, bytesRecovered := 0,
    rawSizeExpected := 0, gaps := 0, gapBytes := 0, dictOk := false }

/-- `repair_ctx`; `raw` holds what the last decode has written into the block buffer, and `calls`
the codec calls made so far. -/
structure RepairCtx where
  file : Bytes
  hdr : FileHeader
  codec : CodecVt
  checksumLen : Nat
  maxRaw : Nat
  dctx : Dctx
  ddict : Option Ddict
  stagingCap : Nat
  raw : Bytes
  calls : List DecodeCall

variable (zstd : Option CodecVt)

/-- `read_header`, with the context and the buffers made for the header's codec. -/
def repairReadHeader (file : Bytes) : Except XqStatus RepairCtx :=
  let buf := file.take fileHeaderSize
  if buf.length ≠ fileHeaderSize then .error .truncated
  else
    match fmtHeaderParse buf with
    | .error st => .error st
    | .ok hdr =>
      match codecGet zstd hdr.codecId with
      | none => .error .unsupportedCodec
      | some codec =>
        .ok { file := file, hdr := hdr, codec := codec,
              checksumLen := fmtChecksumSize hdr.checksumId, maxRaw := hdr.blockSize,
              dctx := codec.dctxNew.getD .null, ddict := none,
              stagingCap := blockHeaderSize + codec.bound hdr.blockSize + 8, raw := [],
              calls := [] }

/-- The dictionary branch of `load_dict`. -/
def RepairCtx.loadDictRecord (c : RepairCtx) (rh payload : Bytes) : XqStatus × RepairCtx :=
  let st := fmtRecordVerify rh payload
  if st ≠ .ok then (st, c)
  else
    match dictPayloadParse payload with
    | .error st => (st, c)
    | .ok info =>
      let ((raw, dctx), call) := dictDecode zstd c.dctx info (payload.drop dictPayloadHeader)
      let c := { c with dctx := dctx, calls := c.calls ++ call.toList }
      match raw with
      | .error st => (st, c)
      | .ok raw =>
        match dictDigest c.codec info raw with
        | .error st => (st, c)
        | .ok ddict => (.ok, { c with ddict := some ddict })

/-- The record loop of `load_dict`; every round but the last moves over a record header. -/
def RepairCtx.loadDictLoop (scanTo : Nat) : Nat → Nat → RepairCtx → XqStatus × RepairCtx
  | 0, _, c => (.corruptRecord, c)
  | fuel + 1, off, c =>
    if off + recordHeaderSize ≤ scanTo then
      let rh := (filePread c.file recordHeaderSize off).2
      if rh.length ≠ recordHeaderSize then (.truncated, c)
      else
        match fmtRecordParse rh with
        | .error _ => (.corruptRecord, c)
        | .ok r =>
          if r.size.toNat > dictSizeMax + dictPayloadHeader then (.corruptRecord, c)
          else if r.tag = recDict then
            let payload := (filePread c.file r.size.toNat (off + recordHeaderSize)).2
            if payload.length ≠ r.size.toNat then (.truncated, c)
            else RepairCtx.loadDictRecord zstd c rh payload
          else RepairCtx.loadDictLoop scanTo fuel (off + recordHeaderSize + r.size.toNat) c
    else (.corruptRecord, c)

/-- `load_dict`. -/
def RepairCtx.loadDict (c : RepairCtx) (scanFrom scanTo : Nat) : XqStatus × RepairCtx :=
  if c.hdr.flags &&& flagDictPresent = 0 then (.ok, c)
  else RepairCtx.loadDictLoop zstd scanTo (scanTo + 1) scanFrom c

/-- `decode_at`; the second component says what it has written into the block buffer. There is no
test of `raw_size` against that buffer. -/
def RepairCtx.decodeBlockAt (c : RepairCtx) (off : Nat) (b : BlockHeader) :
    XqStatus × PayloadResult :=
  let total := blockHeaderSize + b.storedSize.toNat + c.checksumLen
  if total > c.stagingCap then blockRefused .corruptBlock c.dctx
  else if ¬ rangeOk (UInt64.ofNat off) (UInt64.ofNat total) (UInt64.ofNat c.file.length) then
    blockRefused .truncated c.dctx
  else
    match filePread c.file total off with
    | (.ok, staging) =>
      if staging.length ≠ total then blockRefused .truncated c.dctx
      else
        let tmp := staging.drop blockHeaderSize
        let payload := tmp.take b.storedSize.toNat
        let ck := tmp.drop b.storedSize.toNat
        if ¬ blockChecksumOk c.hdr payload ck then blockRefused .corruptBlock c.dctx
        else
          let p := blockPayload zstd c.dctx c.ddict c.maxRaw b payload
          (blockFinish b p, p)
    | (st, _) => blockRefused st c.dctx

/-- `decode_at`, with the repair context after it. -/
def RepairCtx.decodeAt (c : RepairCtx) (off : Nat) (b : BlockHeader) : XqStatus × RepairCtx :=
  let (st, p) := RepairCtx.decodeBlockAt zstd c off b
  (st, { c with raw := p.written, dctx := p.dctx, calls := c.calls ++ p.call.toList })

/-- The state of the scan: the context, the report, the output file when there is one, and the raw
offset expected next. -/
structure Scan where
  ctx : RepairCtx
  rep : RepairReport
  out : Option OutFile
  expectRaw : Nat

def fillChunk : Nat := 65536

/-- The loop that fills a gap, given up at the first write that fails. -/
def fillGap (fillByte : UInt8) : Nat → Nat → OutFile → OutFile
  | 0, _, f => f
  | fuel + 1, remain, f =>
    if remain = 0 then f
    else
      let chunk := if remain < fillChunk then remain else fillChunk
      match f.write (List.replicate chunk fillByte) with
      | (.ok, f) => fillGap fillByte fuel (remain - chunk) f
      | (_, f) => f

/-- The gap branch of the scan: counted always, and filled when there is an output to fill. -/
def Scan.gap (o : RepairOpts) (s : Scan) (b : BlockHeader) : Scan :=
  if b.rawOffset.toNat > s.expectRaw then
    let remain := b.rawOffset.toNat - s.expectRaw
    { s with
      rep := { s.rep with gapBytes := s.rep.gapBytes + remain, gaps := s.rep.gaps + 1 }
      out := if o.fillGaps then s.out.map (fillGap o.fillByte (remain + 1) remain) else s.out }
  else s

/-- The decoded block of a confirmed header goes out, unless it lies before what has been written;
the flag is false when the write failed. -/
def Scan.place (s : Scan) (b : BlockHeader) : Bool × Scan :=
  if b.rawOffset.toNat ≥ s.expectRaw then
    let n := s.ctx.raw.length
    let wrote : XqStatus × Option OutFile := match s.out with
      | none => (.ok, none)
      | some f => ((f.write s.ctx.raw).1, some (f.write s.ctx.raw).2)
    if wrote.1 ≠ .ok then (false, { s with out := wrote.2 })
    else
      (true, { s with
        out := wrote.2
        rep := { s.rep with bytesRecovered := s.rep.bytesRecovered + n }
        expectRaw := b.rawOffset.toNat + n })
  else (true, { s with rep := { s.rep with blocksSkipped := s.rep.blocksSkipped + 1 } })

/-- A header was found at `boff`: the status is what the loop goes on with, and the number is how
far it advances. -/
def Scan.block (o : RepairOpts) (s : Scan) (boff : Nat) (b : BlockHeader) :
    Bool × Nat × Scan :=
  let s := { s with rep := { s.rep with blocksFound := s.rep.blocksFound + 1 } }
  let (ds, ctx) := RepairCtx.decodeAt zstd s.ctx boff b
  let s := { s with ctx := ctx }
  if ds ≠ .ok then
    (true, blockHeaderSize, { s with rep := { s.rep with blocksBad := s.rep.blocksBad + 1 } })
  else
    match Scan.place (s.gap o b) b with
    | (false, s) => (false, 0, s)
    | (true, s) =>
      (true, blockHeaderSize + b.storedSize.toNat + s.ctx.checksumLen,
        { s with rep := { s.rep with blocksOk := s.rep.blocksOk + 1 } })

/-- The candidate at position `i` of a window, when there is one. -/
def scanCandidate (win : Bytes) (i : Nat) : Option BlockHeader :=
  if ld16le win i ≠ blockMagic then none
  else
    match fmtBlockParse ((win.drop i).take blockHeaderSize) with
    | .error _ => none
    | .ok b => some b

/-- The inner loop, over one window at `pos`: whether no write failed, and the position reached. -/
def scanWindowLoop (o : RepairOpts) (win : Bytes) (pos : Nat) : Nat → Nat → Scan → Bool × Nat × Scan
  | 0, i, s => (true, i, s)
  | fuel + 1, i, s =>
    if i + blockHeaderSize ≤ win.length then
      match scanCandidate win i with
      | none => scanWindowLoop o win pos fuel (i + 1) s
      | some b =>
        match Scan.block zstd o s (pos + i) b with
        | (true, adv, s) => scanWindowLoop o win pos fuel (i + adv) s
        | (false, _, s) => (false, i, s)
    else (true, i, s)

/-- The outer loop, over the windows of the file; the flag stays false once a write has failed,
though the source goes on with the next window. -/
def scanLoop (o : RepairOpts) (file : Bytes) : Nat → Nat → Bool → Scan → Bool × Scan
  | 0, _, good, s => (good, s)
  | fuel + 1, pos, good, s =>
    if pos + blockHeaderSize ≤ file.length then
      let want := if pos + scanWindow > file.length then file.length - pos else scanWindow
      let win := (filePread file want pos).2
      if win.length < blockHeaderSize then (good, s)
      else
        let (wrote, i, s) := scanWindowLoop zstd o win pos (win.length + 1) 0 s
        let good := good && wrote
        let keep := blockHeaderSize - 1
        let step := if i > win.length - keep then i else win.length - keep
        let step := if step = 0 then 1 else step
        let pos := pos + step
        if win.length < scanWindow ∧ pos + blockHeaderSize > file.length then (good, s)
        else scanLoop o file fuel pos good s
    else (good, s)

/-- `xq_repair_file` on the contents of a seekable file: the status, the report and the output. -/
def repairFile (file : Bytes) (out : Option OutFile) (opts : Option RepairOpts) :
    XqStatus × RepairReport × Option OutFile :=
  let o := opts.getD { fillGaps := false, fillByte := 0 }
  match repairReadHeader zstd file with
  | .error st => (st, repairReportBlank, out)
  | .ok c =>
    let (ds, c) := RepairCtx.loadDict zstd c c.hdr.headerSize.toNat file.length
    let rep := { repairReportBlank with
      dictOk := if c.hdr.flags &&& flagDictPresent ≠ 0 then ds = .ok else true }
    let (good, s) := scanLoop zstd o file (file.length + 1) c.hdr.headerSize.toNat true
      { ctx := c, rep := rep, out := out, expectRaw := 0 }
    let expected := if c.hdr.rawSize = sizeUnknown then 0 else c.hdr.rawSize.toNat
    let rep : RepairReport := { s.rep with rawSizeExpected := expected }
    let st : XqStatus := if ¬ good then .io else if rep.blocksBad ≠ 0 then .corruptBlock else .ok
    (st, rep, s.out)

end Xq
