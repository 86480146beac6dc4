import Xq.Common.Params

/-! Files: positional reads of an input, and an output whose writes may fail. -/

namespace Xq

/-- `xq_file_pread` on a regular file: as many bytes as there are. -/
def filePread (f : Bytes) (len off : Nat) : XqStatus × Bytes :=
  -- The kernel refuses an offset that is negative as an `off_t`.
  if len ≠ 0 ∧ off ≥ 2 ^ 63 then (.io, []) else (.ok, (f.drop off).take len)

/-- `xq_file_map` of a range inside the file; an empty range is refused. -/
def fileMap (f : Bytes) (off len : Nat) : XqStatus × Bytes :=
  if len = 0 then (.param, []) else (.ok, (f.drop off).take len)

/-- A file being written: `fails` tells of the n-th write whether it fails, and how many bytes get
through before it does. -/
structure OutFile where
  written : Bytes
  fails : Nat → Option Nat
  calls : Nat

def OutFile.write (f : OutFile) (buf : Bytes) : XqStatus × OutFile :=
  match f.fails f.calls with
  | none => (.ok, { f with written := f.written ++ buf, calls := f.calls + 1 })
  | some n => (.io, { f with written := f.written ++ buf.take n, calls := f.calls + 1 })

end Xq
