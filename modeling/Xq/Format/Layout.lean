import Xq.Common.Crc32c
import Xq.Common.Params

/-! The fixed structures of the container and the parsers that face untrusted bytes. -/

namespace Xq

def xqMagic : Bytes := [0x89, 0x58, 0x51, 0x31, 0x0D, 0x0A, 0x1A, 0x0A]

def footerMagic : UInt32 := 0x54465158
def blockMagic : UInt16 := 0xB10C

def fileHeaderSize : Nat := 32
def recordHeaderSize : Nat := 14
def blockHeaderSize : Nat := 24
def footerSize : Nat := 32
def indexEntrySize : Nat := 16
def indexPreambleSize : Nat := 24

def formatMajor : UInt8 := 1
def formatMinor : UInt8 := 0

def flagIndexExpected : UInt32 := 1
def flagDictPresent : UInt32 := 2
def flagUniformBlocks : UInt32 := 4
def flagStreamWritten : UInt32 := 8
def flagKnownMask : UInt32 := 0x0000000F

def recDict : UInt8 := 0x01
def recUserMeta : UInt8 := 0x02
def recEndOfBlocks : UInt8 := 0x10
def recIndex : UInt8 := 0x11

def rflagCritical : UInt8 := 1
def bflagStored : UInt8 := 1
def bflagUsesDict : UInt8 := 2

def sizeUnknown : UInt64 := 0xFFFFFFFFFFFFFFFF

structure FileHeader where
  formatMajor : UInt8
  formatMinor : UInt8
  headerSize : UInt16
  flags : UInt32
  codecId : UInt8
  level : UInt8
  checksumId : UInt8
  blockSizeLog : UInt8
  rawSize : UInt64
  deriving DecidableEq, Repr

structure RecordHeader where
  tag : UInt8
  rflags : UInt8
  size : UInt64
  crc32c : UInt32
  deriving DecidableEq, Repr

structure BlockHeader where
  bflags : UInt8
  codecId : UInt8
  storedSize : UInt32
  rawSize : UInt32
  rawOffset : UInt64
  deriving DecidableEq, Repr

structure Footer where
  indexOffset : UInt64
  indexSize : UInt64
  streamChecksum : UInt64
  deriving DecidableEq, Repr

structure IndexPreamble where
  blockCount : UInt64
  totalRaw : UInt64
  totalStored : UInt64
  deriving DecidableEq, Repr

structure IndexEntry where
  fileOffset : UInt64
  rawOffset : UInt64
  deriving DecidableEq, Repr

/-- The bytes of a header in front of its own CRC. -/
def fmtHeaderBody (h : FileHeader) : Bytes :=
  xqMagic ++ st8 h.formatMajor ++ st8 h.formatMinor ++ st16le h.headerSize ++ st32le h.flags ++
    st8 h.codecId ++ st8 h.level ++ st8 h.checksumId ++ st8 h.blockSizeLog ++ st64le h.rawSize

def fmtHeaderStore (h : FileHeader) : Bytes :=
  fmtHeaderBody h ++ st32le (crc32c (fmtHeaderBody h))

/-- The fields a header buffer holds, before any of them is believed. -/
def fmtHeaderFields (buf : Bytes) : FileHeader :=
  { formatMajor := ld8 buf 8, formatMinor := ld8 buf 9, headerSize := ld16le buf 10,
    flags := ld32le buf 12, codecId := ld8 buf 16, level := ld8 buf 17, checksumId := ld8 buf 18,
    blockSizeLog := ld8 buf 19, rawSize := ld64le buf 20 }

def fmtHeaderParse (buf : Bytes) : Except XqStatus FileHeader :=
  let h := fmtHeaderFields buf
  if buf.length < fileHeaderSize then .error .truncated
  else if buf.take 8 ≠ xqMagic then .error .badMagic
  else if ld32le buf 28 ≠ crc32c (buf.take 28) then .error .corruptHeader
  else if h.formatMajor ≠ formatMajor then .error .unsupportedVersion
  else if h.headerSize.toNat < fileHeaderSize then .error .corruptHeader
  else if h.headerSize.toNat > 4096 then .error .corruptHeader
  else if h.checksumId > 2 then .error .unsupportedFeature
  else if h.blockSizeLog ≠ 0 ∧ (h.blockSizeLog < 12 ∨ h.blockSizeLog > 28) then
    .error .corruptHeader
  else if h.blockSizeLog ≠ 0 ∧ (2 ^ h.blockSizeLog.toNat < blockSizeMin ∨
      2 ^ h.blockSizeLog.toNat > blockSizeMax) then .error .corruptHeader
  else if h.flags &&& ~~~ flagKnownMask ≠ 0 then .error .unsupportedFeature
  else if h.flags &&& flagUniformBlocks ≠ 0 ∧ h.blockSizeLog = 0 then .error .corruptHeader
  else .ok h

/-- The ten bytes of a record header that its CRC covers. -/
def fmtRecordBody (r : RecordHeader) : Bytes := st8 r.tag ++ st8 r.rflags ++ st64le r.size

def fmtRecordStore (r : RecordHeader) (payload : Bytes) : Bytes :=
  let crc := crc32c (fmtRecordBody r)
  let crc := if r.size ≠ 0 then crc32cUpdate crc (payload.take r.size.toNat) else crc
  fmtRecordBody r ++ st32le crc

def fmtRecordFields (buf : Bytes) : RecordHeader :=
  { tag := ld8 buf 0, rflags := ld8 buf 1, size := ld64le buf 2, crc32c := ld32le buf 10 }

def fmtRecordParse (buf : Bytes) : Except XqStatus RecordHeader :=
  let r := fmtRecordFields buf
  if buf.length < recordHeaderSize then .error .truncated
  else if r.size.toNat > 2 ^ 40 then .error .corruptRecord
  else .ok r

def fmtRecordVerify (hdr payload : Bytes) : XqStatus :=
  if (ld64le hdr 2).toNat ≠ payload.length then .corruptRecord
  else
    let crc := crc32c (hdr.take 10)
    let crc := if payload.length ≠ 0 then crc32cUpdate crc payload else crc
    if ld32le hdr 10 = crc then .ok else .corruptRecord

/-- The bytes of a block header in front of its own CRC. -/
def fmtBlockBody (b : BlockHeader) : Bytes :=
  st16le blockMagic ++ st8 b.bflags ++ st8 b.codecId ++ st32le b.storedSize ++
    st32le b.rawSize ++ st64le b.rawOffset

def fmtBlockStore (b : BlockHeader) : Bytes := fmtBlockBody b ++ st32le (crc32c (fmtBlockBody b))

def fmtBlockFields (buf : Bytes) : BlockHeader :=
  { bflags := ld8 buf 2, codecId := ld8 buf 3, storedSize := ld32le buf 4,
    rawSize := ld32le buf 8, rawOffset := ld64le buf 12 }

def fmtBlockParse (buf : Bytes) : Except XqStatus BlockHeader :=
  let b := fmtBlockFields buf
  if buf.length < blockHeaderSize then .error .truncated
  else if ld16le buf 0 ≠ blockMagic then .error .corruptBlock
  else if ld32le buf 20 ≠ crc32c (buf.take 20) then .error .corruptBlock
  else if b.bflags &&& bflagStored ≠ 0 ∧ b.storedSize ≠ b.rawSize then .error .corruptBlock
  else if b.rawSize = 0 then .error .corruptBlock
  else if b.rawSize.toNat > blockSizeMax then .error .corruptBlock
  else if b.storedSize > b.rawSize + b.rawSize / 8 + 1024 then .error .corruptBlock
  else if (addU64Ok b.rawOffset b.rawSize.toUInt64).isNone then .error .corruptBlock
  else .ok b

def fmtChecksumSize (checksumId : UInt8) : Nat :=
  if checksumId = 0 then 0 else if checksumId = 1 then 4 else if checksumId = 2 then 8 else 0

theorem fmtChecksumSize_le (id : UInt8) : fmtChecksumSize id ≤ 8 := by
  -- The sizes are 0, 4 and 8.
  unfold fmtChecksumSize
  split_ifs <;> omega

def fmtIndexPayloadSize (blockCount : UInt64) : UInt64 :=
  match addU64Ok blockCount 1 with
  | none => 0
  | some n =>
    match mulU64Ok n 16 with
    | none => 0
    | some bytes =>
      match addU64Ok bytes 24 with
      | none => 0
      | some total => total

def fmtIndexPreambleStore (p : IndexPreamble) : Bytes :=
  st64le p.blockCount ++ st64le p.totalRaw ++ st64le p.totalStored

def fmtIndexPreambleParse (buf : Bytes) : Except XqStatus IndexPreamble :=
  let p : IndexPreamble :=
    { blockCount := ld64le buf 0, totalRaw := ld64le buf 8, totalStored := ld64le buf 16 }
  if buf.length < indexPreambleSize then .error .truncated
  else if fmtIndexPayloadSize p.blockCount = 0 then .error .corruptIndex
  else .ok p

def fmtIndexEntryStore (e : IndexEntry) : Bytes := st64le e.fileOffset ++ st64le e.rawOffset

def fmtIndexEntryLoad (buf : Bytes) (off : Nat) : IndexEntry :=
  { fileOffset := ld64le buf off, rawOffset := ld64le buf (off + 8) }

/-- The binary search keeps `entry[lo] <= rawOff < entry[hi]`; the fuel bounds its rounds. -/
def fmtIndexFindLoop (entries : Bytes) (rawOff : UInt64) : Nat → Nat → Nat → Nat
  | 0, lo, _ => lo
  | fuel + 1, lo, hi =>
    if hi - lo > 1 then
      let mid := lo + (hi - lo) / 2
      if ld64le entries (mid * indexEntrySize + 8) ≤ rawOff then
        fmtIndexFindLoop entries rawOff fuel mid hi
      else fmtIndexFindLoop entries rawOff fuel lo mid
    else lo

/-- `none` stands for the source's `-1`. -/
def fmtIndexFind (entries : Bytes) (n : Nat) (rawOff : UInt64) : Option Nat :=
  if n < 2 then none
  else if rawOff ≥ ld64le entries ((n - 1) * indexEntrySize + 8) then none
  else some (fmtIndexFindLoop entries rawOff n 0 (n - 1))

/-- The per-entry checks of the validation loop, over the entries still to come. -/
def fmtIndexValidateLoop (entries : Bytes) (fileSize : Nat) :
    Nat → Nat → IndexEntry → Except XqStatus IndexEntry
  | 0, _, prev => .ok prev
  | left + 1, i, prev =>
    let cur := fmtIndexEntryLoad entries (i * indexEntrySize)
    if cur.fileOffset ≤ prev.fileOffset then .error .corruptIndex
    else if cur.rawOffset ≤ prev.rawOffset then .error .corruptIndex
    else if (cur.fileOffset - prev.fileOffset).toNat < blockHeaderSize then .error .corruptIndex
    else if (cur.rawOffset - prev.rawOffset).toNat > blockSizeMax then .error .corruptIndex
    else if fileSize ≠ 0 ∧ cur.fileOffset.toNat > fileSize then .error .corruptIndex
    else fmtIndexValidateLoop entries fileSize left (i + 1) cur

def fmtIndexValidate (p : IndexPreamble) (entries : Bytes) (fileSize : Nat) : XqStatus :=
  if p.blockCount = 0 then .corruptIndex
  else
    let first := fmtIndexEntryLoad entries 0
    if first.fileOffset.toNat < fileHeaderSize then .corruptIndex
    else if first.rawOffset ≠ 0 then .corruptIndex
    else
      match fmtIndexValidateLoop entries fileSize p.blockCount.toNat 1 first with
      | .error e => e
      | .ok last => if last.rawOffset ≠ p.totalRaw then .corruptIndex else .ok

/-- The bytes of a footer behind its CRC. -/
def fmtFooterBody (f : Footer) : Bytes :=
  st64le f.indexOffset ++ st64le f.indexSize ++ st64le f.streamChecksum ++ st32le footerMagic

def fmtFooterStore (f : Footer) : Bytes := st32le (crc32c (fmtFooterBody f)) ++ fmtFooterBody f

def fmtFooterFields (buf : Bytes) : Footer :=
  { indexOffset := ld64le buf 4, indexSize := ld64le buf 12, streamChecksum := ld64le buf 20 }

def fmtFooterParse (buf : Bytes) : Except XqStatus Footer :=
  let f := fmtFooterFields buf
  if buf.length < footerSize then .error .truncated
  else if ld32le buf 28 ≠ footerMagic then .error .corruptFooter
  else if ld32le buf 0 ≠ crc32c ((buf.drop 4).take (footerSize - 4)) then .error .corruptFooter
  else if f.indexOffset = 0 ∧ f.indexSize ≠ 0 then .error .corruptFooter
  else if f.indexOffset ≠ 0 ∧ f.indexSize.toNat < recordHeaderSize + indexPreambleSize then
    .error .corruptFooter
  else if f.indexOffset ≠ 0 ∧ f.indexOffset.toNat < fileHeaderSize then .error .corruptFooter
  else .ok f

end Xq
