import Xq.Common.Bits

/-! Huffman tables over bytes: construction, serialisation, and the bit writer and reader. -/

namespace Xq

def huffSymbols : Nat := 256
def huffMaxBits : Nat := 15
def huffTableBytes : Nat := huffSymbols / 2

/-- `xq_bitw`; `buf` holds the bytes written so far, so its length is the source's `pos`. -/
structure BitWriter where
  buf : Bytes
  cap : Nat
  acc : Nat
  nbits : Nat
  overflow : Bool
  deriving DecidableEq, Repr

def bitwInit (cap : Nat) : BitWriter :=
  { buf := [], cap := cap, acc := 0, nbits := 0, overflow := false }

/-- The loop that moves whole bytes out of the accumulator; the fuel bounds its rounds. -/
def bitwDrain : Nat → BitWriter → BitWriter
  | 0, w => w
  | fuel + 1, w =>
    if w.nbits ≥ 8 then
      if w.buf.length ≥ w.cap then { w with overflow := true, nbits := 0, acc := 0 }
      else bitwDrain fuel
        { w with buf := w.buf ++ [UInt8.ofNat (w.acc % 256)], acc := w.acc >>> 8, nbits := w.nbits - 8 }
    else w

def bitwPut (w : BitWriter) (value bits : Nat) : BitWriter :=
  if bits = 0 then w
  else
    bitwDrain (w.nbits + bits)
      { w with acc := w.acc ||| value <<< w.nbits, nbits := w.nbits + bits }

/-- The flush loop writes the last partial byte; `nbits - 8` stops at zero as the source's sign
does. -/
def bitwFlushLoop : Nat → BitWriter → BitWriter
  | 0, w => w
  | fuel + 1, w =>
    if w.nbits > 0 then
      if w.buf.length ≥ w.cap then { w with overflow := true }
      else bitwFlushLoop fuel
        { w with buf := w.buf ++ [UInt8.ofNat (w.acc % 256)], acc := w.acc >>> 8, nbits := w.nbits - 8 }
    else w

def bitwFlush (w : BitWriter) : Option Bytes :=
  let w := bitwFlushLoop w.nbits w
  if w.overflow then none else some w.buf

/-- `xq_bitr`; `rest` holds the bytes from `pos` on. -/
structure BitReader where
  rest : Bytes
  acc : Nat
  nbits : Nat
  deriving DecidableEq, Repr

def bitrInit (buf : Bytes) : BitReader := { rest := buf, acc := 0, nbits := 0 }

def bitrFillFrom : Bytes → Nat → Nat → BitReader
  | [], acc, nbits => { rest := [], acc := acc, nbits := nbits }
  | b :: rest, acc, nbits =>
    if nbits ≤ 56 then bitrFillFrom rest (acc ||| b.toNat <<< nbits) (nbits + 8)
    else { rest := b :: rest, acc := acc, nbits := nbits }

def bitrFill (r : BitReader) : BitReader := bitrFillFrom r.rest r.acc r.nbits

/-- `xq_huff_enc`. -/
structure HuffEnc where
  len : Nat → Nat
  code : Nat → Nat
  maxLen : Nat
  used : Nat

/-- The node arrays of one construction attempt: leaves first, then merged nodes. -/
structure HuffNodes where
  weight : Nat → Nat
  parent : Nat → Option Nat
  live : List Nat
  total : Nat

/-- The symbols with a non-zero frequency, in order; the source's `node` array. -/
def huffUsed (f : Nat → Nat) : List Nat := (List.range huffSymbols).filter fun i => f i ≠ 0

def huffLeaves (f : Nat → Nat) : HuffNodes :=
  let node := huffUsed f
  { weight := fun i => f (node.getD i 0), parent := fun _ => none,
    live := List.range node.length, total := node.length }

/-- One step of the scan for the two smallest live weights, over positions in `live`. -/
def huffPick (weight : Nat → Nat) (live : List Nat) (best : Option Nat × Option Nat) (i : Nat) :
    Option Nat × Option Nat :=
  let w := fun j => weight (live.getD j 0)
  match best with
  | (none, _) => (some i, none)
  | (some a, b) =>
    if w i < w a then (some i, some a)
    else
      match b with
      | none => (some a, some i)
      | some c => if w i < w c then (some a, some i) else (some a, some c)

def huffTwoSmallest (weight : Nat → Nat) (live : List Nat) : Option Nat × Option Nat :=
  (List.range live.length).foldl (huffPick weight live) (none, none)

/-- Merge the two smallest live nodes under a new one, and compact the live list. -/
def huffMerge (t : HuffNodes) : HuffNodes :=
  match huffTwoSmallest t.weight t.live with
  | (some a, some b) =>
    let na := t.live.getD a 0
    let nb := t.live.getD b 0
    let hi := if a > b then a else b
    let lo := if a < b then a else b
    let live := t.live.set lo t.total
    let live := live.set hi (live.getD (t.live.length - 1) 0)
    { weight := Function.update t.weight t.total (t.weight na + t.weight nb)
      parent := Function.update (Function.update (Function.update t.parent t.total none) na
        (some t.total)) nb (some t.total)
      live := live.take (t.live.length - 1)
      total := t.total + 1 }
  | _ => t

def huffMergeLoop : Nat → HuffNodes → HuffNodes
  | 0, t => t
  | fuel + 1, t => if t.live.length > 1 then huffMergeLoop fuel (huffMerge t) else t

/-- Follow the parent chain of a leaf; the fuel covers every node there is. -/
def huffDepth (parent : Nat → Option Nat) : Nat → Nat → Nat
  | 0, _ => 0
  | fuel + 1, i =>
    match parent i with
    | none => 0
    | some p => huffDepth parent fuel p + 1

/-- The length pass over the leaves, given up at the first length above the limit. -/
def huffLengths (parent : Nat → Option Nat) (node : List Nat) :
    List Nat → (Nat → Nat) → Nat → Option ((Nat → Nat) × Nat)
  | [], len, maxLen => some (len, maxLen)
  | i :: rest, len, maxLen =>
    let l := huffDepth parent (2 * huffSymbols) i
    if l > huffMaxBits then none
    else huffLengths parent node rest (Function.update len (node.getD i 0) l) (max maxLen l)

def huffAttempt (f : Nat → Nat) : Option ((Nat → Nat) × Nat) :=
  let node := huffUsed f
  let t := huffMergeLoop node.length (huffLeaves f)
  huffLengths t.parent node (List.range node.length) (fun _ => 0) 0

/-- The smoothing between attempts: halve each used frequency, keeping it non-zero. -/
def huffSmooth (f : Nat → Nat) (i : Nat) : Nat := if f i ≠ 0 then f i / 2 + 1 else f i

def huffAttempts : Nat → (Nat → Nat) → Option ((Nat → Nat) × Nat)
  | 0, _ => none
  | n + 1, f =>
    match huffAttempt f with
    | some r => some r
    | none => huffAttempts n (huffSmooth f)

/-- How many symbols have each length; length zero is not counted. -/
def huffCount (len : Nat → Nat) (b : Nat) : Nat :=
  if b = 0 then 0 else ((List.range huffSymbols).filter fun i => len i = b).length

/-- The first canonical code of each length, in 16-bit arithmetic. -/
def huffNext (count : Nat → Nat) : Nat → Nat
  | 0 => 0
  | b + 1 => ((huffNext count b + count b) * 2) % 2 ^ 16

/-- The low `l` bits of a code, most significant first. -/
def huffReverse (c : Nat) : Nat → Nat
  | 0 => 0
  | l + 1 => (huffReverse c l * 2 + c / 2 ^ l % 2) % 2 ^ 16

/-- Hand out the codes symbol by symbol: the `next` array, and what each symbol received. -/
def huffAssign (len : Nat → Nat) (s : (Nat → Nat) × (Nat → Nat)) (i : Nat) :
    (Nat → Nat) × (Nat → Nat) :=
  let l := len i
  if l = 0 then s
  else
    let c := s.1 l
    (Function.update s.1 l ((c + 1) % 2 ^ 16), Function.update s.2 i (huffReverse c l))

def huffCodes (len : Nat → Nat) : Nat → Nat :=
  ((List.range huffSymbols).foldl (huffAssign len) (huffNext (huffCount len), fun _ => 0)).2

def huffBuild (freq : Nat → Nat) : Option HuffEnc :=
  match huffUsed freq with
  | [] => none
  | [s] =>
    some { len := Function.update (fun _ => 0) s 1, code := fun _ => 0, maxLen := 1, used := 1 }
  | node =>
    match huffAttempts 12 freq with
    | none => none
    | some (len, maxLen) =>
      if maxLen = 0 then none
      else some { len := len, code := huffCodes len, maxLen := maxLen, used := node.length }

def huffStore (e : HuffEnc) : Bytes :=
  (List.range huffTableBytes).map fun i =>
    UInt8.ofNat (e.len (2 * i) ||| e.len (2 * i + 1) <<< 4)

/-- `xq_huff_dec`. -/
structure HuffDec where
  sym : Nat → Nat
  len : Nat → Nat
  maxLen : Nat

/-- The 256 four-bit lengths a table holds. -/
def huffTableLen (src : Bytes) (i : Nat) : Nat :=
  if i % 2 = 0 then (ld8 src (i / 2) &&& 0x0F).toNat else (ld8 src (i / 2) >>> 4).toNat

/-- The room left at each length must cover the codes of that length; none is over-subscribed. -/
def huffAvail (count : Nat → Nat) : Nat → Option Nat
  | 0 => some 1
  | b + 1 =>
    match huffAvail count b with
    | none => none
    | some avail => if count (b + 1) > avail * 2 then none else some (avail * 2 - count (b + 1))

/-- Fill every slot `f = rev, rev + step, ...` below `tsize`. -/
def huffFill (tab : Nat → Nat) (rev step tsize v : Nat) (f : Nat) : Nat :=
  if rev ≤ f ∧ f < tsize ∧ (f - rev) % step = 0 then v else tab f

/-- The state of the table loop: `next`, and the two tables. -/
structure HuffFilling where
  next : Nat → Nat
  sym : Nat → Nat
  len : Nat → Nat

def huffFillSymbol (len : Nat → Nat) (tsize : Nat) (s : HuffFilling) (i : Nat) : HuffFilling :=
  let l := len i
  if l = 0 then s
  else
    let c := s.next l
    let rev := huffReverse c l
    { next := Function.update s.next l ((c + 1) % 2 ^ 16)
      sym := huffFill s.sym rev (2 ^ l) tsize i
      len := huffFill s.len rev (2 ^ l) tsize l }

def huffLoad (src : Bytes) : Option HuffDec :=
  let len := huffTableLen src
  let used := ((List.range huffSymbols).filter fun i => len i ≠ 0).length
  let maxLen := (List.range huffSymbols).foldl (fun m i => max m (len i)) 0
  let count := huffCount len
  if used = 0 ∨ maxLen = 0 ∨ maxLen > huffMaxBits then none
  else if used = 1 ∧ maxLen ≠ 1 then none
  else if used ≠ 1 ∧ huffAvail count maxLen ≠ some 0 then none
  else
    let s := (List.range huffSymbols).foldl (huffFillSymbol len (2 ^ maxLen))
      { next := huffNext count, sym := fun _ => 0, len := fun _ => 0 }
    some { sym := s.sym, len := s.len, maxLen := maxLen }

def huffEmit (w : BitWriter) (e : HuffEnc) (sym : Nat) : BitWriter :=
  bitwPut w (e.code sym) (e.len sym)

/-- `none` stands for the source's `-1`. -/
def huffDecode (r : BitReader) (d : HuffDec) : Option (Nat × BitReader) :=
  let r := if r.nbits < huffMaxBits then bitrFill r else r
  let idx := r.acc % 2 ^ d.maxLen
  let l := d.len idx
  if l = 0 ∨ l > r.nbits then none
  else some (d.sym idx, { r with acc := r.acc >>> l, nbits := r.nbits - l })

end Xq
