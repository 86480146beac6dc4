import Xq.Core.Decoder

/-! The memory of a decoder: what it holds, in bytes requested, at every point of a run. -/

namespace Xq

/-- The working buffers of a decoder by their requested sizes; zero stands for no buffer. -/
structure WorkingSet where
  rbuf : Nat
  raw : Nat
  cbuf : Nat
  payload : Nat
  dict : Nat
  mid : Nat
  deriving DecidableEq, Repr

def WorkingSet.total (w : WorkingSet) : Nat :=
  w.rbuf + w.raw + w.cbuf + w.payload + w.dict + w.mid

/-- The staging buffer behind a context; only lze has one. -/
def Dctx.midCap : Dctx → Nat
  | .lze d => d.midCap
  | _ => 0

/-- The dictionary a digest stands on; the decoder keeps those bytes as long as the digest. -/
def Ddict.size : Ddict → Nat
  | .lzb d => d.data.length
  | .zstd bytes => bytes.length

/-- What a decoder holds between two sections. -/
def Decoder.held (d : Decoder) : WorkingSet :=
  { rbuf := rbufSize, raw := d.rawCap, cbuf := d.cbufCap, payload := 0,
    dict := (d.ddict.map Ddict.size).getD 0, mid := d.dctx.midCap }

/-- The points of `xq_decoder_create`: the read buffer comes before the header is read, and the two
block buffers behind its checks. -/
def creationPoints (src : Source) (memLimit : Nat) : List WorkingSet :=
  let start : WorkingSet :=
    { rbuf := rbufSize, raw := 0, cbuf := 0, payload := 0, dict := 0, mid := 0 }
  match decoderCreate none src memLimit with
  | .error _ => [start]
  | .ok d => [start, { start with raw := d.rawCap },
      { start with raw := d.rawCap, cbuf := d.cbufCap }]

/-- The checks of `read_dict_record` before it asks for memory. -/
def Decoder.dictAdmitted (d : Decoder) (r : RecordHeader) : Bool :=
  d.ddict.isNone && decide (dictPayloadHeader ≤ r.size.toNat) &&
    decide (r.size.toNat ≤ dictSizeMax + dictPayloadHeader) &&
    decide (d.memLimit = 0 ∨ r.size.toNat ≤ d.memLimit)

/-- What `read_dict_record` has in its payload once the checks on it are passed too: what the
payload's header says, and the bytes behind it. -/
def Decoder.dictRead (d : Decoder) (rhdr : Bytes) (r : RecordHeader) : Option (DictInfo × Bytes) :=
  match d.io.readExact r.size.toNat with
  | (.ok, payload, _) =>
    if fmtRecordVerify rhdr payload ≠ .ok then none
    else
      match dictPayloadParse payload with
      | .error _ => none
      | .ok info =>
        if d.memLimit ≠ 0 ∧ info.rawSize.toNat > d.memLimit then none
        else some (info, payload.drop dictPayloadHeader)
  | _ => none

/-- The points of `read_dict_record`: the payload, the dictionary, and then the codec call. -/
def Decoder.dictPoints (d : Decoder) (rhdr : Bytes) (r : RecordHeader) : List WorkingSet :=
  if d.dictAdmitted r then
    let held := { d.held with payload := r.size.toNat }
    match d.dictRead rhdr r with
    | none => [held]
    | some (info, _) =>
      let full := { held with dict := info.rawSize.toNat }
      [held, full, { full with mid := (Decoder.readDictRecord none d rhdr r).2.dctx.midCap }]
  else []

/-- A section that may ask for memory, with the decoder behind the section's header. -/
inductive Front
  | dict (d : Decoder) (rhdr : Bytes) (r : RecordHeader)
  | block (d : Decoder) (b : BlockHeader)
  | other

/-- The section at the front of the stream, as a round of `next_block` sees it. -/
def Decoder.front (d : Decoder) : Front :=
  if d.sawEob then .other
  else
    match d.io.need 2 with
    | (.ok, io) =>
      if ld16le io.rbuf 0 ≠ blockMagic then
        match io.need recordHeaderSize with
        | (.ok, io) =>
          let rhdr := io.rbuf.take recordHeaderSize
          match fmtRecordParse rhdr with
          | .error _ => .other
          | .ok r =>
            if r.tag = recDict then .dict { d with io := io.consume recordHeaderSize } rhdr r
            else .other
        | _ => .other
      else
        match io.need blockHeaderSize with
        | (.ok, io) =>
          match fmtBlockParse (io.rbuf.take blockHeaderSize) with
          | .error _ => .other
          | .ok b => .block { d with io := io.consume blockHeaderSize } b
        | _ => .other
    | _ => .other

/-- The points of one round of `next_block`, from what is held at its start. A block is decoded in
the buffers that are there; only its codec call may ask for more. -/
def Decoder.points (d : Decoder) : List WorkingSet :=
  d.held ::
    match d.front with
    | .dict e rhdr r => e.dictPoints rhdr r
    | .block e b => [{ d.held with mid := (Decoder.readBlock none e b).2.dctx.midCap }]
    | .other => []

end Xq
