import Xq.Codec.Lze

/-! The codec table: one vtable per codec, selected by the id a file carries. -/

namespace Xq

/-- A compression context behind a `void *`; the constructor is the codec that made it. -/
inductive Cctx
  | null
  | lzb (c : LzbCctx)
  | lze (c : LzeCctx)
  | zstd

/-- A decompression context behind a `void *`; the constructor is the codec that made it. -/
inductive Dctx
  | null
  | lze (d : LzeDctx)
  | zstd
  deriving DecidableEq, Repr

/-- A digested dictionary for compression; lzb and lze share one constructor function. -/
inductive Cdict
  | lzb (d : LzbCdict)
  | zstd (bytes : Bytes)

/-- A digested dictionary for decompression; lzb and lze share one constructor function. -/
inductive Ddict
  | lzb (d : LzbDdict)
  | zstd (bytes : Bytes)
  deriving DecidableEq, Repr

/-- `xq_codec_vt`; a `none` is a null function pointer. -/
structure CodecVt where
  id : UInt8
  bound : Nat → Nat
  cctxNew : Option (Heap → Cctx)
  dctxNew : Option Dctx
  cdictNew : Option (Heap → Bytes → Option Cdict × Heap)
  ddictNew : Option (Bytes → Ddict)
  compress : Cctx → Nat → Bytes → Int → Option Cdict → (XqStatus × Bytes) × Cctx
  decompress : Dctx → Nat → Bytes → Nat → Option Ddict → (XqStatus × Bytes) × Dctx

def storedBound (srcSize : Nat) : Nat := srcSize

def storedCompress (cap : Nat) (src : Bytes) : XqStatus × Bytes :=
  if src.length > cap then (.dstTooSmall, []) else (.ok, src)

def storedDecompress (cap : Nat) (src : Bytes) (expectedLen : Nat) : XqStatus × Bytes :=
  if expectedLen ≠ src.length then (.corruptBlock, [])
  else if src.length > cap then (.dstTooSmall, [])
  else (.ok, src)

def storedVt : CodecVt :=
  { id := 0, bound := storedBound, cctxNew := none, dctxNew := none, cdictNew := none,
    ddictNew := none
    compress := fun c cap src _ _ => (storedCompress cap src, c)
    decompress := fun d cap src expectedLen _ => (storedDecompress cap src expectedLen, d) }

/-- The lzb digest behind a pointer; reading another codec's digest this way is undefined in C. -/
def Cdict.asLzb : Cdict → Option LzbCdict
  | .lzb d => some d
  | .zstd _ => none

/-- The lzb digest behind a pointer; reading another codec's digest this way is undefined in C. -/
def Ddict.asLzb : Ddict → Option LzbDdict
  | .lzb d => some d
  | .zstd _ => none

def lzbCdictNewVt (heap : Heap) (bytes : Bytes) : Option Cdict × Heap :=
  let (d, heap) := lzbCdictNew heap bytes
  (d.map .lzb, heap)

def lzbDdictNewVt (bytes : Bytes) : Ddict := .lzb (lzbDdictNew bytes)

def lzbVt : CodecVt :=
  { id := 1, bound := lzbBound, cctxNew := some fun heap => .lzb (lzbCctxNew heap),
    dctxNew := none, cdictNew := some lzbCdictNewVt, ddictNew := some lzbDdictNewVt
    compress := fun c cap src level cdict =>
      match c with
      | .lzb c =>
        let (r, c) := lzbCompress c cap src level (cdict.bind Cdict.asLzb)
        (r, .lzb c)
      | c => ((.internal, []), c)
    decompress := fun d cap src _ ddict => (lzbDecompress cap src (ddict.bind Ddict.asLzb), d) }

def lzeVt : CodecVt :=
  { id := 2, bound := lzeBound, cctxNew := some fun heap => .lze (lzeCctxNew heap),
    dctxNew := some (.lze lzeDctxNew), cdictNew := some lzbCdictNewVt,
    ddictNew := some lzbDdictNewVt
    compress := fun c cap src level cdict =>
      match c with
      | .lze c =>
        let (r, c) := lzeCompress c cap src level (cdict.bind Cdict.asLzb)
        (r, .lze c)
      | c => ((.internal, []), c)
    decompress := fun d cap src _ ddict =>
      match d with
      | .lze d =>
        let (r, d) := lzeDecompress d cap src (ddict.bind Ddict.asLzb)
        (r, .lze d)
      -- A null context is refused; a foreign one is undefined in C and refused here too.
      | d => ((.internal, []), d) }

/-- The table of a build: zstd is an optional last entry, whose code is the external library. -/
def codecs (zstd : Option CodecVt) : List CodecVt := [storedVt, lzbVt, lzeVt] ++ zstd.toList

def codecGet (zstd : Option CodecVt) (id : UInt8) : Option CodecVt :=
  (codecs zstd).find? fun c => c.id = id

def codecHasDict (c : CodecVt) : Bool := c.cdictNew.isSome && c.ddictNew.isSome

/-- `xq_codec_available`, in a build with or without zstd. -/
def codecAvailable (zstd : Option CodecVt) : XqCodec → Bool
  | .stored => true
  | .lzb => true
  | .lze => true
  | .zstd => zstd.isSome

@[simp] theorem codecGet_stored (zstd : Option CodecVt) : codecGet zstd 0 = some storedVt := rfl

@[simp] theorem codecGet_lzb (zstd : Option CodecVt) : codecGet zstd 1 = some lzbVt := rfl

@[simp] theorem codecGet_lze (zstd : Option CodecVt) : codecGet zstd 2 = some lzeVt := rfl

end Xq
