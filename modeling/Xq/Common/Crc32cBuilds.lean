import Xq.Common.Crc32c
import Xq.Lib.ReflectedCrc

/-! CRC-32C bit by bit, and the two builds of `xq_crc32c_update` that use a CRC instruction. -/

namespace Xq

open Lib

/-- The polynomial of CRC-32C, its bits reflected. -/
def crc32cPoly : BitVec 32 := 0x82F63B78#32

/-- One byte through the register, bit by bit. -/
def crc32cByte (c : UInt32) (b : UInt8) : UInt32 := ⟨crcByte crc32cPoly c.toBitVec b⟩

/-- The definition of CRC-32C, continued from `crc`: input and output are complemented. -/
def crc32cBitwise (crc : UInt32) (data : Bytes) : UInt32 := ~~~ (data.foldl crc32cByte (~~~ crc))

/-- The loop over whole words of eight bytes. -/
def crc32cWords (word8 : UInt32 → UInt64 → UInt32) : Nat → Bytes → UInt32 → UInt32
  | 0, _, c => c
  | n + 1, p, c => crc32cWords word8 n (p.drop 8) (word8 c (ld64le p 0))

/-- The loops of an accelerated `xq_crc32c_update`: eight bytes at a time, then four, then one by
one. -/
def crc32cAccelerated (word8 : UInt32 → UInt64 → UInt32) (word4 : UInt32 → UInt32 → UInt32)
    (word1 : UInt32 → UInt8 → UInt32) (crc : UInt32) (data : Bytes) : UInt32 :=
  let c := crc32cWords word8 (data.length / 8) data (~~~ crc)
  let p := data.drop (8 * (data.length / 8))
  let (c, p) := if p.length ≥ 4 then (word4 c (ld32le p 0), p.drop 4) else (c, p)
  ~~~ (p.foldl word1 c)

/-- The instructions of the build with `XQ_CRC32C_HW_ARM`. -/
structure ArmCrc where
  crc32cd : UInt32 → UInt64 → UInt32
  crc32cw : UInt32 → UInt32 → UInt32
  crc32cb : UInt32 → UInt8 → UInt32

/-- The instructions of the build with `XQ_CRC32C_HW_X86`. -/
structure X86Crc where
  crc32U64 : UInt64 → UInt64 → UInt64
  crc32U32 : UInt32 → UInt32 → UInt32
  crc32U8 : UInt32 → UInt8 → UInt32

def crc32cUpdateArm (hw : ArmCrc) (crc : UInt32) (data : Bytes) : UInt32 :=
  crc32cAccelerated hw.crc32cd hw.crc32cw hw.crc32cb crc data

/-- The eight-byte instruction works on a 64-bit register, of which the lower half is kept. -/
def crc32cUpdateX86 (hw : X86Crc) (crc : UInt32) (data : Bytes) : UInt32 :=
  crc32cAccelerated (fun c x => (hw.crc32U64 c.toUInt64 x).toUInt32) hw.crc32U32 hw.crc32U8 crc data

/-- Instructions on a word of some bytes act as that many steps of one byte, the lowest first. -/
structure ActsBytewise (word8 : UInt32 → UInt64 → UInt32) (word4 : UInt32 → UInt32 → UInt32)
    (word1 : UInt32 → UInt8 → UInt32) : Prop where
  word8 : ∀ c x, word8 c x = (st64le x).foldl crc32cByte c
  word4 : ∀ c x, word4 c x = (st32le x).foldl crc32cByte c
  word1 : ∀ c b, word1 c b = crc32cByte c b

def ArmCrc.Bytewise (hw : ArmCrc) : Prop := ActsBytewise hw.crc32cd hw.crc32cw hw.crc32cb

def X86Crc.Bytewise (hw : X86Crc) : Prop :=
  ActsBytewise (fun c x => (hw.crc32U64 c.toUInt64 x).toUInt32) hw.crc32U32 hw.crc32U8

end Xq
