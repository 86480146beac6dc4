import Xq.Codec.Lzb

/-! The lzb decoder access by access: every load and every store is checked against its buffer,
every difference of sizes against wrapping, and a loop that does not end is a fault as well. -/

namespace Xq

/-- One load; `none` is an access outside the buffer. -/
def loadByte (buf : Bytes) (i : Nat) : Option UInt8 := buf[i]?

/-- A `memcpy` out of a buffer. -/
def loadBytes (buf : Bytes) (i n : Nat) : Option Bytes :=
  if i + n ≤ buf.length then some (slice buf i n) else none

/-- A store behind the bytes already written; `none` is a store past the capacity. -/
def storeBytes (cap : Nat) (dst bytes : Bytes) : Option Bytes :=
  if dst.length + bytes.length ≤ cap then some (dst ++ bytes) else none

/-- A difference of two `size_t`; `none` is one that would wrap. -/
def sizeSub (a b : Nat) : Option Nat := if b ≤ a then some (a - b) else none

/-- The loop of `get_varint` by positions; the inner option is the format's own answer. -/
def getVarintAtLoop (src : Bytes) : Nat → Nat → UInt64 → Nat → Option (Option (UInt64 × Nat))
  | 0, ip, _, _ => if ip < src.length then none else some none
  | fuel + 1, ip, v, shift =>
    if ip < src.length then
      (loadByte src ip).bind fun b =>
      if shift > 63 then some none
      else
        let v := v ||| (b &&& 0x7F).toUInt64 <<< UInt64.ofNat shift
        if b &&& 0x80 = 0 then some (some (v, ip + 1))
        else if shift + 7 ≥ 64 then some none
        else getVarintAtLoop src fuel (ip + 1) v (shift + 7)
    else some none

def getVarintAt (src : Bytes) (ip : Nat) : Option (Option (UInt64 × Nat)) :=
  getVarintAtLoop src (src.length - ip) ip 0 0

/-- The literal length of a token, from the position behind it. -/
def lzbLitLenAt (src : Bytes) (code ip : Nat) : Option (Option (Nat × Nat)) :=
  if code = 15 then
    (getVarintAt src ip).map fun read => read.bind fun (ext, ip) =>
      if ext.toNat > 2 ^ 64 - 1 - 15 then none else some (15 + ext.toNat, ip)
  else some (some (code, ip))

/-- The match length of a token, from the position behind the distance. -/
def lzbMatchLenAt (src : Bytes) (code ip : Nat) : Option (Option (Nat × Nat)) :=
  if code = 15 then
    (getVarintAt src ip).map fun read => read.bind fun (ext, ip) =>
      if ext.toNat > 2 ^ 64 - 1 - (code - 1 + lzbMinMatch) then none
      else some (lzbMinMatch + 14 + ext.toNat, ip)
  else some (some (code - 1 + lzbMinMatch, ip))

/-- The byte loop of a copy: each byte is loaded from what has been written before it. -/
def copyBytesAt (cap dist : Nat) : Nat → Bytes → Option Bytes
  | 0, dst => some dst
  | n + 1, dst =>
    (sizeSub dst.length dist).bind fun m =>
    (loadByte dst m).bind fun b =>
    (storeBytes cap dst [b]).bind (copyBytesAt cap dist n)

/-- A match copy, split where it leaves the dictionary. -/
def copyMatchAt (dict : Bytes) (cap : Nat) (dst : Bytes) (dist mlen : Nat) : Option Bytes :=
  if dist > dst.length then
    let back := dist - dst.length
    let fromDict := if back < mlen then back else mlen
    (sizeSub dict.length back).bind fun start =>
    (loadBytes dict start fromDict).bind fun bytes =>
    (storeBytes cap dst bytes).bind fun dst =>
    copyBytesAt cap dst.length (mlen - fromDict) dst
  else copyBytesAt cap dist mlen dst

/-- The token loop of `xq_lzb_decompress` over the position `ip`; `none` is a fault. -/
def lzbDecompressAtLoop (src dict : Bytes) (cap : Nat) :
    Nat → Nat → Bytes → Option (XqStatus × Bytes)
  | 0, ip, dst => if ip < src.length then none else some (.ok, dst)
  | fuel + 1, ip, dst =>
    if ip < src.length then
      (loadByte src ip).bind fun token =>
      (lzbLitLenAt src (token >>> 4).toNat (ip + 1)).bind fun read =>
      match read with
      | none => some (.corruptBlock, dst)
      | some (litlen, ip) =>
        (sizeSub src.length ip).bind fun unread =>
        (sizeSub cap dst.length).bind fun room =>
        if litlen > unread then some (.corruptBlock, dst)
        else if litlen > room then some (.dstTooSmall, dst)
        else
          (loadBytes src ip litlen).bind fun lits =>
          (storeBytes cap dst lits).bind fun dst =>
          if (token &&& 0x0F).toNat = 0 then some (.ok, dst)
          else
            (getVarintAt src (ip + litlen)).bind fun read =>
            match read with
            | none => some (.corruptBlock, dst)
            | some (dist, ip) =>
              if dist = 0 then some (.corruptBlock, dst)
              else
                (lzbMatchLenAt src (token &&& 0x0F).toNat ip).bind fun read =>
                match read with
                | none => some (.corruptBlock, dst)
                | some (mlen, ip) =>
                  (sizeSub cap dst.length).bind fun room =>
                  if dist.toNat > dst.length + dict.length then some (.corruptBlock, dst)
                  else if mlen > room then some (.dstTooSmall, dst)
                  else if dist.toNat > dst.length ∧ dist.toNat - dst.length > dict.length then
                    some (.corruptBlock, dst)
                  else
                    (copyMatchAt dict cap dst dist.toNat mlen).bind
                      (lzbDecompressAtLoop src dict cap fuel ip)
    else some (.ok, dst)

/-- `xq_lzb_decompress` with its accesses checked. -/
def lzbDecompressAt (cap : Nat) (src : Bytes) (ddict : Option LzbDdict) :
    Option (XqStatus × Bytes) :=
  lzbDecompressAtLoop src ((ddict.map LzbDdict.data).getD []) cap src.length 0 []

end Xq
