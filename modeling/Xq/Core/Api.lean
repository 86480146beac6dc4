import Xq.Core.Decoder
import Xq.Core.Encoder

/-! The one-shot calls over memory. -/

namespace Xq

/-- `mem_sink`: chunks are accepted while they fit. -/
def memSink (cap : Nat) (_ : Nat) (out chunk : Bytes) : XqStatus :=
  if rangeOkSz out.length chunk.length cap then .ok else .dstTooSmall

variable (zstd : Option CodecVt)

/-- The codec a parameter names can digest a dictionary; an absent one cannot. -/
def codecIdHasDict (id : UInt8) : Bool := ((codecGet zstd id).map codecHasDict).getD false

/-- The sums of `xq_compress_bound`; `none` stands for its zero. -/
def compressBoundSum (srcSize : UInt64) (p : XqParams) : Option UInt64 := do
  let bs := UInt64.ofNat p.effectiveBlockSize
  let nblocks := (srcSize + bs - 1) / bs
  let nblocks := if nblocks = 0 then 1 else nblocks
  let per := UInt64.ofNat (blockHeaderSize + fmtChecksumSize p.checksum.id)
  let blocks ← mulU64Ok nblocks per
  let total ← addU64Ok (UInt64.ofNat fileHeaderSize) blocks
  let total ← addU64Ok total srcSize
  let total ← addU64Ok total (UInt64.ofNat recordHeaderSize)
  let idx := fmtIndexPayloadSize nblocks
  if idx = 0 then none
  let total ← addU64Ok total (idx + UInt64.ofNat recordHeaderSize)
  let total ← addU64Ok total (UInt64.ofNat footerSize)
  let dictLen := dictSizeFor srcSize.toNat p.dictSize
  if dictLen ≠ 0 ∧ codecIdHasDict zstd p.codec.id then
    addU64Ok total (UInt64.ofNat (recordHeaderSize + dictPayloadHeader + dictLen))
  else some total

def compressBound (srcSize : UInt64) (params : Option XqParams) : UInt64 :=
  (compressBoundSum zstd srcSize (params.getD paramsDefault)).getD 0

/-- The dictionary `xq_compress` builds from the input, when one is wanted and the codec has it. -/
def compressDict (heap : Heap) (src : Bytes) (p : XqParams) : Except XqStatus (Option XqDict) :=
  let want := dictSizeFor src.length p.dictSize
  if want ≠ 0 ∧ codecIdHasDict zstd p.codec.id then (dictBuildPrefix heap src want).map some
  else .ok none

/-- A whole single-threaded run of an encoder over one buffer. -/
def Encoder.run (e : Encoder) (src : Bytes) : XqStatus × Encoder :=
  andThen (e.write src) Encoder.finish

/-- `xq_compress` with single-threaded parameters; the bytes are those of a success. -/
def xqCompress (m : Machine) (dictHeap : Heap) (cap : Nat) (src : Bytes)
    (params : Option XqParams) : XqStatus × Bytes :=
  let p := params.getD paramsDefault
  match compressDict zstd dictHeap src p with
  | .error st => (st, [])
  | .ok dict =>
    match encoderCreate zstd m (memSink cap) p (UInt64.ofNat src.length) dict with
    | .error (st, _) => (st, [])
    | .ok e =>
      match e.run src with
      | (.ok, e) => (.ok, e.out)
      | (st, _) => (st, [])

/-- The loop of `xq_decompress`, with a one-byte probe once the destination is full. Every round
but the last delivers a byte. -/
def decompressLoop (cap : Nat) : Nat → Bytes → Decoder → XqStatus × Bytes
  | 0, total, _ => (.ok, total)
  | fuel + 1, total, d =>
    if total.length = cap then
      match (Decoder.read zstd d 1).1 with
      | .error st => (st, [])
      | .ok probe => if probe = [] then (.ok, total) else (.dstTooSmall, [])
    else
      match Decoder.read zstd d (cap - total.length) with
      | (.error st, _) => (st, [])
      | (.ok got, d) => if got = [] then (.ok, total) else decompressLoop cap fuel (total ++ got) d

/-- `xq_decompress`; the bytes are those of a success. -/
def xqDecompress (cap : Nat) (src : Bytes) (memLimit : Nat) : XqStatus × Bytes :=
  match decoderCreate zstd (memSrc src) memLimit with
  | .error st => (st, [])
  | .ok d => decompressLoop zstd cap (cap + 1) [] d

end Xq
