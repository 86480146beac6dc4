import Xq.Codec.Table
import Xq.Common.Xxh64
import Xq.Format.Layout

/-! The shared dictionary: how large it may be, how it is built, and how a record carries it. -/

namespace Xq

def dictKindPrefix : UInt8 := 1
def dictKindTrained : UInt8 := 3

def dictPayloadHeader : Nat := 30

/-- `xq_dict`. -/
structure XqDict where
  bytes : Bytes
  id : UInt32
  kind : UInt8
  deriving DecidableEq, Repr

/-- What the header of a dictionary payload says, before any of it is believed. -/
structure DictInfo where
  kind : UInt8
  storedCodec : UInt8
  id : UInt32
  rawSize : UInt64
  storedSize : UInt64
  xxh64 : UInt64
  deriving DecidableEq, Repr

/-- At most a quarter of the input, and nothing at all below 64 KiB. -/
def dictSizeFor (rawSize requested : Nat) : Nat :=
  if requested = 0 then 0
  else
    let requested := if requested > dictSizeMax then dictSizeMax else requested
    let requested := if requested > rawSize / 4 then rawSize / 4 else requested
    if requested < 64 * 1024 then 0 else requested

def dictBuildPrefix (heap : Heap) (src : Bytes) (want : Nat) : Except XqStatus XqDict :=
  if want = 0 then .error .param
  else
    let n := if src.length < want then src.length else want
    if n = 0 then .error .param
    else
      match heap.malloc.1 with
      | none => .error .oom
      | some _ => .ok { bytes := src.take n, id := 1, kind := dictKindPrefix }

def dictPayloadSize (storedLen : Nat) : Nat := dictPayloadHeader + storedLen

def dictPayloadStore (d : XqDict) (storedCodec : UInt8) (storedLen : Nat) : Bytes :=
  st8 d.kind ++ st8 storedCodec ++ st32le d.id ++ st64le (UInt64.ofNat d.bytes.length) ++
    st64le (UInt64.ofNat storedLen) ++ st64le (xxh64 d.bytes 0)

def dictPayloadParse (buf : Bytes) : Except XqStatus DictInfo :=
  let info : DictInfo :=
    { kind := ld8 buf 0, storedCodec := ld8 buf 1, id := ld32le buf 2, rawSize := ld64le buf 6,
      storedSize := ld64le buf 14, xxh64 := ld64le buf 22 }
  if buf.length < dictPayloadHeader then .error .corruptRecord
  else if info.id = 0 then .error .corruptRecord
  else if info.rawSize = 0 ∨ info.rawSize.toNat > dictSizeMax then .error .corruptRecord
  else if info.storedSize = 0 then .error .corruptRecord
  else if info.storedSize.toNat ≠ buf.length - dictPayloadHeader then .error .corruptRecord
  else if info.kind > dictKindTrained then .error .unsupportedFeature
  else .ok info

/-- One call into a codec's `decompress`, as the callers make it: the codec id that the section
names, whether it asks for the dictionary, and the codec and the contexts the call was made with. -/
structure DecodeCall where
  named : UInt8
  usesDict : Bool
  codec : CodecVt
  dctx : Dctx
  ddict : Option Ddict

/-- The bytes of a dictionary behind its payload header: plain, or compressed by the codec the
payload names, in the context the caller created for the file's codec. All three readers of a
dictionary share these lines; the result carries the call they make and the context after it. -/
def dictDecode (zstd : Option CodecVt) (dctx : Dctx) (info : DictInfo) (stored : Bytes) :
    (Except XqStatus Bytes × Dctx) × Option DecodeCall :=
  if info.storedCodec = 0 then
    if info.storedSize ≠ info.rawSize then ((.error .corruptRecord, dctx), none)
    else ((.ok (stored.take info.rawSize.toNat), dctx), none)
  else
    match codecGet zstd info.storedCodec with
    | none => ((.error .unsupportedCodec, dctx), none)
    | some c =>
      let call : DecodeCall :=
        { named := info.storedCodec, usesDict := false, codec := c, dctx := dctx, ddict := none }
      match c.decompress dctx info.rawSize.toNat stored info.rawSize.toNat none with
      | ((.ok, raw), dctx) =>
        if raw.length ≠ info.rawSize.toNat then ((.error .corruptRecord, dctx), some call)
        else ((.ok raw, dctx), some call)
      | ((st, _), dctx) => ((.error st, dctx), some call)

/-- The checks on a decoded dictionary, and the digest the file's codec makes of it. -/
def dictDigest (codec : CodecVt) (info : DictInfo) (raw : Bytes) : Except XqStatus Ddict :=
  if info.xxh64 ≠ xxh64 raw 0 then .error .corruptRecord
  else if ¬ codecHasDict codec then .error .unsupportedFeature
  else
    match codec.ddictNew with
    | none => .error .unsupportedFeature
    | some ddictNew => .ok (ddictNew raw)

end Xq
