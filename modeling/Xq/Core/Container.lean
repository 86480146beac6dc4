import Xq.Core.Encoder

/-! The finished file as a whole: what its sections are, where each of them stands, and what the
index and the footer say about them. -/

namespace Xq

/-- A block as it stands in a file. -/
structure FileBlock where
  header : BlockHeader
  payload : Bytes
  ck : Bytes
  deriving DecidableEq, Repr

def FileBlock.bytes (b : FileBlock) : Bytes := fmtBlockStore b.header ++ b.payload ++ b.ck

/-- A DICT record: the head of its payload, and the dictionary as it is stored. -/
structure FileDict where
  head : Bytes
  stored : Bytes
  deriving DecidableEq, Repr

def FileDict.bytes (d : FileDict) : Bytes := dictRecordHeader d.head d.stored ++ d.head ++ d.stored

/-- The sections of a finished file; the index, the footer and every position in them follow from
these. -/
structure Container where
  header : FileHeader
  dict : Option FileDict
  blocks : List FileBlock
  rawSize : Nat
  streamChecksum : UInt64

/-- The index entries of blocks that stand one after another from a position on. -/
def blockEntries : Nat → List FileBlock → List IndexEntry
  | _, [] => []
  | position, b :: rest =>
    { fileOffset := UInt64.ofNat position, rawOffset := b.header.rawOffset } ::
      blockEntries (position + b.bytes.length) rest

namespace Container

/-- The header and the metadata in front of the first block. -/
def front (c : Container) : Bytes :=
  fmtHeaderStore c.header ++ (c.dict.map FileDict.bytes).getD []

def blockBytes (c : Container) : Bytes := c.blocks.flatMap FileBlock.bytes

/-- The position of a block; the one behind the last is the position of END_OF_BLOCKS. -/
def position (c : Container) (i : Nat) : Nat :=
  c.front.length + ((c.blocks.take i).flatMap FileBlock.bytes).length

/-- The position just past END_OF_BLOCKS. -/
def endPosition (c : Container) : Nat := c.position c.blocks.length + recordHeaderSize

/-- One entry for each block, and the sentinel. -/
def entries (c : Container) : List IndexEntry :=
  blockEntries c.front.length c.blocks ++
    [{ fileOffset := UInt64.ofNat (c.position c.blocks.length),
       rawOffset := UInt64.ofNat c.rawSize }]

def preamble (c : Container) : IndexPreamble :=
  { blockCount := UInt64.ofNat c.blocks.length, totalRaw := UInt64.ofNat c.rawSize,
    totalStored := UInt64.ofNat (c.endPosition - fileHeaderSize) }

def indexPayload (c : Container) : Bytes :=
  fmtIndexPreambleStore c.preamble ++ c.entries.flatMap fmtIndexEntryStore

def indexRecord (c : Container) : Bytes :=
  fmtRecordStore
    { tag := recIndex, rflags := 0, size := UInt64.ofNat c.indexPayload.length, crc32c := 0 }
    c.indexPayload

/-- A file without blocks has no index. -/
def index (c : Container) : Bytes :=
  if c.blocks = [] then [] else c.indexRecord ++ c.indexPayload

def footer (c : Container) : Footer :=
  { indexOffset := if c.blocks = [] then 0 else UInt64.ofNat c.endPosition
    indexSize := UInt64.ofNat c.index.length
    streamChecksum := c.streamChecksum }

/-- Everything up to and including END_OF_BLOCKS. -/
def body (c : Container) : Bytes := c.front ++ c.blockBytes ++ endOfBlocks

def bytes (c : Container) : Bytes := c.body ++ c.index ++ fmtFooterStore c.footer

end Container

/-- The block that a job becomes, at its place in the raw bytes. -/
def Encoder.fileBlock (e : Encoder) (rawOffset : Nat) (j : EncJob) : FileBlock :=
  { header := Encoder.blockHeader { e with rawOffset := rawOffset } j
    payload := j.payload
    ck := if e.checksumLen ≠ 0 then j.ck else [] }

/-- The blocks that jobs become, one after another in the raw bytes. -/
def Encoder.fileBlocks (e : Encoder) : Nat → List EncJob → List FileBlock
  | _, [] => []
  | rawOffset, j :: rest =>
    e.fileBlock rawOffset j :: e.fileBlocks (rawOffset + j.raw.length) rest

end Xq
