import Xq.Codec.Lzb
import Xq.Common.Huff

/-! The lze codec: the lzb stream, Huffman-coded as a whole when that pays. -/

namespace Xq

def lzeModeRaw : UInt8 := 0
def lzeModeHuff : UInt8 := 1

/-- `lze_cctx`. The staging buffer is written before it is read, so only its capacity is kept. -/
structure LzeCctx where
  lzb : LzbCctx
  midCap : Nat
  heap : Heap

/-- `lze_dctx`. -/
structure LzeDctx where
  midCap : Nat
  deriving DecidableEq, Repr

def lzeBound (srcSize : Nat) : Nat := lzbBound srcSize + huffTableBytes + 32

def lzeCctxNew (heap : Heap) : LzeCctx := { lzb := lzbCctxNew heap, midCap := 0, heap := heap }

def lzeDctxNew : LzeDctx := { midCap := 0 }

/-- `reserve`, on the compression side: the capacity only grows, or falls to zero on a failure. -/
def LzeCctx.reserve (c : LzeCctx) (need : Nat) : Bool × LzeCctx :=
  if c.midCap ≥ need then (true, c)
  else
    match c.heap.malloc with
    | (none, heap) => (false, { c with midCap := 0, heap := heap })
    | (some _, heap) => (true, { c with midCap := need, heap := heap })

/-- `reserve`, on the decompression side, where allocation succeeds. -/
def LzeDctx.reserve (d : LzeDctx) (need : Nat) : LzeDctx :=
  if d.midCap ≥ need then d else { midCap := need }

/-- The 32-bit byte counts of a buffer. -/
def lzeFreq (mid : Bytes) : UInt8 → UInt32 :=
  mid.foldl (fun f b => Function.update f b (f b + 1)) fun _ => 0

/-- The counts as the Huffman builder indexes them. -/
def lzeFreqNat (mid : Bytes) (i : Nat) : Nat := (lzeFreq mid (UInt8.ofNat i)).toNat

/-- The Huffman attempt: `none` when a piece of the header does not fit. On a header that fits,
the flag says whether the coded form fits and beats the raw form. -/
def lzeHuffman (cap : Nat) (mid : Bytes) (enc : HuffEnc) : Option (Option Bytes) :=
  if 0 ≥ cap then none
  else
    match putVarint cap [lzeModeHuff] (UInt64.ofNat mid.length) with
    | none => none
    | some dst =>
      if dst.length + huffTableBytes > cap then none
      else
        let dst := dst ++ huffStore enc
        let w := mid.foldl (fun w b => huffEmit w enc b.toNat) (bitwInit (cap - dst.length))
        match bitwFlush w with
        | none => some none
        | some bits =>
          if (dst ++ bits).length < mid.length + 1 then some (some (dst ++ bits)) else some none

/-- The raw form: a mode byte and the lzb stream itself. -/
def lzeRaw (cap : Nat) (mid : Bytes) : XqStatus × Bytes :=
  if 1 + mid.length > cap then (.dstTooSmall, []) else (.ok, lzeModeRaw :: mid)

/-- The entropy stage over a staged lzb stream. -/
def lzeEntropy (cap : Nat) (mid : Bytes) : XqStatus × Bytes :=
  match if mid.length ≥ 64 then huffBuild (lzeFreqNat mid) else none with
  | none => lzeRaw cap mid
  | some enc =>
    match lzeHuffman cap mid enc with
    | none => (.dstTooSmall, [])
    | some (some out) => (.ok, out)
    | some none => lzeRaw cap mid

def lzeCompress (c : LzeCctx) (cap : Nat) (src : Bytes) (level : Int) (cdict : Option LzbCdict) :
    (XqStatus × Bytes) × LzeCctx :=
  if src.length = 0 then ((.ok, []), c)
  else
    match c.reserve (lzbBound src.length + 32) with
    | (false, c) => ((.oom, []), c)
    | (true, c) =>
      -- The stage gets the whole leftover capacity, not just what this input needs.
      match lzbCompress c.lzb c.midCap src level cdict with
      | ((.ok, mid), lzb) => (lzeEntropy cap mid, { c with lzb := lzb })
      | ((st, _), lzb) => ((st, []), { c with lzb := lzb })

/-- `get_varint` as the lze file has it, without the guard on the shift before the group. -/
def lzeGetVarintLoop : Bytes → UInt64 → Nat → Option (UInt64 × Bytes)
  | [], _, _ => none
  | b :: rest, v, shift =>
    let v := v ||| (b &&& 0x7F).toUInt64 <<< UInt64.ofNat shift
    if b &&& 0x80 = 0 then some (v, rest)
    else if shift + 7 ≥ 64 then none
    else lzeGetVarintLoop rest v (shift + 7)

def lzeGetVarint (src : Bytes) : Option (UInt64 × Bytes) := lzeGetVarintLoop src 0 0

/-- The symbol loop: as many symbols as the header announced, or `none` on a bad code. -/
def lzeDecodeSymbols (dec : HuffDec) : Nat → BitReader → Option Bytes
  | 0, _ => some []
  | n + 1, r =>
    match huffDecode r dec with
    | none => none
    | some (s, r) => (lzeDecodeSymbols dec n r).map (UInt8.ofNat s :: ·)

def lzeDecompress (d : LzeDctx) (cap : Nat) (src : Bytes) (ddict : Option LzbDdict) :
    (XqStatus × Bytes) × LzeDctx :=
  match src with
  | [] => ((.ok, []), d)
  | mode :: inp =>
    if mode = lzeModeRaw then (lzbDecompress cap inp ddict, d)
    else if mode ≠ lzeModeHuff then ((.corruptBlock, []), d)
    else
      match lzeGetVarint inp with
      | none => ((.corruptBlock, []), d)
      | some (mlen, inp) =>
        if mlen.toNat > blockSizeMax + blockSizeMax / 255 + 64 then ((.corruptBlock, []), d)
        else if huffTableBytes > inp.length then ((.corruptBlock, []), d)
        else
          match huffLoad (inp.take huffTableBytes) with
          | none => ((.corruptBlock, []), d)
          | some dec =>
            let d := d.reserve (if mlen.toNat ≠ 0 then mlen.toNat else 1)
            match lzeDecodeSymbols dec mlen.toNat (bitrInit (inp.drop huffTableBytes)) with
            | none => ((.corruptBlock, []), d)
            | some mid => (lzbDecompress cap mid ddict, d)

end Xq
