import Xq.Common.Bits

/-! Status codes and encoder parameters. -/

namespace Xq

/-- `xq_status`, in the order of the header. -/
inductive XqStatus
  | ok
  | param
  | dstTooSmall
  | oom
  | memlimit
  | badMagic
  | unsupportedVersion
  | unsupportedCodec
  | unsupportedFeature
  | corruptHeader
  | corruptRecord
  | corruptBlock
  | corruptIndex
  | corruptFooter
  | truncated
  | io
  | internal
  deriving DecidableEq, Repr

/-- `xq_codec`; the numbers are the format's codec ids. -/
inductive XqCodec
  | stored
  | lzb
  | lze
  | zstd
  deriving DecidableEq, Repr

def XqCodec.id : XqCodec → UInt8
  | .stored => 0
  | .lzb => 1
  | .lze => 2
  | .zstd => 3

/-- `xq_checksum`; the numbers are the format's checksum ids. -/
inductive XqChecksum
  | none
  | crc32c
  | xxh64
  deriving DecidableEq, Repr

def XqChecksum.id : XqChecksum → UInt8
  | .none => 0
  | .crc32c => 1
  | .xxh64 => 2

def blockSizeMin : Nat := 4 * 1024
def blockSizeMax : Nat := 256 * 1024 * 1024
def blockSizeDefault : Nat := 64 * 1024
def dictSizeMax : Nat := 256 * 1024 * 1024
def dictSizeDefault : Nat := 8 * 1024 * 1024

/-- `xq_params`; allocation goes through the default allocator. -/
structure XqParams where
  level : Int
  blockSize : Nat
  dictSize : Nat
  codec : XqCodec
  checksum : XqChecksum
  threads : Int
  memLimit : Nat
  deriving DecidableEq, Repr

def paramsDefault : XqParams :=
  { level := 6, blockSize := blockSizeDefault, dictSize := dictSizeDefault, codec := .lze,
    checksum := .crc32c, threads := 0, memLimit := 0 }

def isPow2 (v : Nat) : Bool := v &&& (v - 1) = 0

/-- The block size in force: zero asks for the default. -/
def XqParams.effectiveBlockSize (p : XqParams) : Nat :=
  if p.blockSize ≠ 0 then p.blockSize else blockSizeDefault

/-- `xq_params_check`, with the message it leaves in `why`; `available` is `xq_codec_available`. -/
def paramsCheckWhy (available : XqCodec → Bool) (p : XqParams) : XqStatus × Option String :=
  if p.level < 1 ∨ p.level > 12 then (.param, "level must be in 1..12")
  else if p.blockSize ≠ 0 ∧ p.blockSize < blockSizeMin then (.param, "block_size below 4 KiB")
  else if p.blockSize ≠ 0 ∧ p.blockSize > blockSizeMax then (.param, "block_size above 256 MiB")
  else if p.blockSize ≠ 0 ∧ ¬ isPow2 p.blockSize then
    (.param, "block_size must be a power of two")
  else if p.dictSize > dictSizeMax then (.param, "dict_size above 256 MiB")
  else if ¬ available p.codec then (.unsupportedCodec, "codec not available in this build")
  else if p.threads < 0 then (.param, "threads must be >= 0")
  else if p.memLimit ≠ 0 ∧ p.memLimit < p.dictSize + p.effectiveBlockSize * 2 then
    (.memlimit, "mem_limit too small for block_size and dict_size")
  else (.ok, none)

def paramsCheck (available : XqCodec → Bool) (p : XqParams) : XqStatus :=
  (paramsCheckWhy available p).1

/-- Accepted parameters have a level in range and a power-of-two block size in range. -/
theorem paramsCheck_ok {available : XqCodec → Bool} {p : XqParams}
    (accepted : paramsCheck available p = .ok) :
    1 ≤ p.level ∧ p.level ≤ 12 ∧ p.dictSize ≤ dictSizeMax ∧ available p.codec ∧
      ∃ k, 12 ≤ k ∧ k ≤ 28 ∧ p.effectiveBlockSize = 2 ^ k := by
  -- Every earlier refusal is excluded, so each guard holds the other way round.
  simp only [paramsCheck, paramsCheckWhy] at accepted
  split at accepted <;> rename_i level; · simp at accepted
  split at accepted <;> rename_i small; · simp at accepted
  split at accepted <;> rename_i large; · simp at accepted
  split at accepted <;> rename_i power; · simp at accepted
  split at accepted <;> rename_i dict; · simp at accepted
  split at accepted <;> rename_i codec; · simp at accepted
  refine ⟨by omega, by omega, by omega, by simpa using codec, ?_⟩
  by_cases default : p.blockSize = 0
  · exact ⟨16, by omega, by omega, by simp [XqParams.effectiveBlockSize, default, blockSizeDefault]⟩
  · have shape : p.blockSize &&& (p.blockSize - 1) = 0 := by
      simpa [default, isPow2] using power
    obtain ⟨k, size⟩ := (Nat.and_sub_one_eq_zero_iff_isPowerOfTwo default).mp shape
    simp only [blockSizeMin, blockSizeMax] at small large
    refine ⟨k, ?_, ?_, by simp [XqParams.effectiveBlockSize, size]⟩
    · by_contra below
      have : 2 ^ k ≤ 2 ^ 11 := Nat.pow_le_pow_right (by omega) (by omega)
      omega
    · by_contra above
      have : 2 ^ 29 ≤ 2 ^ k := Nat.pow_le_pow_right (by omega) (by omega)
      omega

end Xq
