import Xq.Common.Params

/-! The lzb codec: LZ77 over hash chains, with an optional preset dictionary. -/

namespace Xq

def lzbMinMatch : Nat := 4
def lzbHlogMin : Nat := 12
def lzbHlogMax : Nat := 22

/-- What the allocator answers: whether the n-th request is granted, and what the block holds. -/
structure Heap where
  grants : Nat → Bool
  junk : Nat → Nat → UInt32
  next : Nat

/-- One request; `none` is a null pointer, and a granted block arrives with arbitrary contents. -/
def Heap.malloc (h : Heap) : Option (Nat → UInt32) × Heap :=
  (if h.grants h.next then some (h.junk h.next) else none, { h with next := h.next + 1 })

/-- An array on the heap: how many entries it has room for, and what they hold. -/
structure HeapArray where
  size : Nat
  data : Nat → UInt32

/-- `lzb_cdict`: the dictionary and its hash chains, immutable once built. -/
structure LzbCdict where
  data : Bytes
  head : Nat → UInt32
  chain : Nat → UInt32
  hlog : Nat

/-- `lzb_ddict`. -/
structure LzbDdict where
  data : Bytes
  deriving DecidableEq, Repr

/-- `lzb_cctx`; a `none` array is a null pointer. -/
structure LzbCctx where
  head : Option HeapArray
  chain : Option HeapArray
  chainCap : Nat
  hlog : Nat
  heap : Heap

def hash4 (v : UInt32) (hlog : Nat) : Nat := ((v * 2654435761) >>> UInt32.ofNat (32 - hlog)).toNat

def read32 (p : Bytes) (i : Nat) : UInt32 := ld32le p i

def depthFor (level : Int) : Nat :=
  if level ≤ 1 then 4
  else if level ≤ 3 then 8
  else if level ≤ 5 then 16
  else if level ≤ 7 then 32
  else if level ≤ 9 then 64
  else 128

/-- The loop of `hlog_for`; the fuel is the distance to the largest table. -/
def hlogForFrom (n : Nat) : Nat → Nat → Nat
  | 0, h => h
  | fuel + 1, h => if 2 ^ h < n then hlogForFrom n fuel (h + 1) else h

def hlogFor (n : Nat) : Nat := hlogForFrom n (lzbHlogMax - lzbHlogMin) lzbHlogMin

/-- Seven bits at a time, low group first; the fuel covers the ten groups of a 64-bit value. -/
def putVarintLoop (cap : Nat) : Nat → Bytes → UInt64 → Option Bytes
  | 0, _, _ => none
  | fuel + 1, dst, v =>
    if v ≥ 0x80 then
      if dst.length ≥ cap then none
      else putVarintLoop cap fuel (dst ++ [(v ||| 0x80).toUInt8]) (v >>> 7)
    else if dst.length ≥ cap then none
    else some (dst ++ [v.toUInt8])

/-- Append a varint to the bytes written so far, or report that the capacity is exhausted. -/
def putVarint (cap : Nat) (dst : Bytes) (v : UInt64) : Option Bytes := putVarintLoop cap 10 dst v

/-- The loop of `get_varint`, on the unread input: the value so far and the next shift. -/
def getVarintLoop : Bytes → UInt64 → Nat → Option (UInt64 × Bytes)
  | [], _, _ => none
  | b :: rest, v, shift =>
    if shift > 63 then none
    else
      let v := v ||| (b &&& 0x7F).toUInt64 <<< UInt64.ofNat shift
      if b &&& 0x80 = 0 then some (v, rest)
      else if shift + 7 ≥ 64 then none
      else getVarintLoop rest v (shift + 7)

def getVarint (src : Bytes) : Option (UInt64 × Bytes) := getVarintLoop src 0 0

/-- The two hash tables a search walks: the most recent position for a hash, and its predecessors. -/
structure LzbTables where
  head : Nat → UInt32
  chain : Nat → UInt32

/-- Put position `i` at the front of its hash chain; positions are stored plus one. -/
def LzbTables.insert (t : LzbTables) (src : Bytes) (hlog i : Nat) : LzbTables :=
  let h := hash4 (read32 src i) hlog
  { head := Function.update t.head h (UInt32.ofNat (i + 1))
    chain := Function.update t.chain i (t.head h) }

/-- The indexing loop of `cdict_new`, over the positions still to come. -/
def LzbTables.index (src : Bytes) (hlog : Nat) : Nat → Nat → LzbTables → LzbTables
  | 0, _, t => t
  | left + 1, i, t => LzbTables.index src hlog left (i + 1) (t.insert src hlog i)

/-- `xq_lzb_cdict_new`; the chain array arrives from the allocator uninitialised. -/
def lzbCdictNew (heap : Heap) (bytes : Bytes) : Option LzbCdict × Heap :=
  if bytes.length < lzbMinMatch then (none, heap)
  else
    let (head, heap) := heap.malloc
    let (chain, heap) := heap.malloc
    match head, chain with
    | some _, some junk =>
      let hlog := hlogFor bytes.length
      let t := LzbTables.index bytes hlog (bytes.length + 1 - lzbMinMatch) 0
        { head := fun _ => 0, chain := junk }
      (some { data := bytes, head := t.head, chain := t.chain, hlog := hlog }, heap)
    | _, _ => (none, heap)

def lzbDdictNew (bytes : Bytes) : LzbDdict := { data := bytes }

def lzbCctxNew (heap : Heap) : LzbCctx :=
  { head := none, chain := none, chainCap := 0, hlog := 0, heap := heap }

/-- The first half of `cctx_prepare`: a hash table of the size this input wants. -/
def cctxPrepareHead (c : LzbCctx) (n : Nat) : Bool × LzbCctx :=
  let hlog := hlogFor n
  if c.head.isNone ∨ c.hlog ≠ hlog then
    match c.heap.malloc with
    | (none, heap) => (false, { c with head := none, heap := heap })
    | (some junk, heap) =>
      (true, { c with head := some { size := 2 ^ hlog, data := junk }, hlog := hlog, heap := heap })
  else (true, c)

/-- The second half: a chain array with room for every position. -/
def cctxPrepareChain (c : LzbCctx) (n : Nat) : Bool × LzbCctx :=
  if c.chainCap < n then
    match c.heap.malloc with
    | (none, heap) => (false, { c with chain := none, heap := heap })
    | (some junk, heap) =>
      (true, { c with chain := some { size := n, data := junk }, chainCap := n, heap := heap })
  else (true, c)

/-- `cctx_prepare`, ending with the `memset` over the whole hash table. -/
def cctxPrepare (c : LzbCctx) (n : Nat) : Bool × LzbCctx :=
  match cctxPrepareHead c n with
  | (false, c) => (false, c)
  | (true, c) =>
    match cctxPrepareChain c n with
    | (false, c) => (false, c)
    | (true, c) =>
      (true, { c with head := c.head.map fun a =>
        { a with data := fun i => if i < 2 ^ c.hlog then 0 else a.data i } })

/-- The byte loop of `match_len`, over the bytes still allowed to match. -/
def matchLenBytes (a : Bytes) (i : Nat) (b : Bytes) (j : Nat) : Nat → Nat
  | 0 => 0
  | left + 1 =>
    if ld8 a i = ld8 b j then matchLenBytes a (i + 1) b (j + 1) left + 1 else 0

/-- `match_len`: whole words while they agree, then the byte loop. -/
def matchLenFrom (a : Bytes) (i : Nat) (b : Bytes) (j : Nat) : Nat → Nat → Nat
  | 0, left => matchLenBytes a i b j left
  | fuel + 1, left =>
    if 8 ≤ left ∧ ld64le a i = ld64le b j then
      matchLenFrom a (i + 8) b (j + 8) fuel (left - 8) + 8
    else matchLenBytes a i b j left

def matchLen (a : Bytes) (i : Nat) (b : Bytes) (j limit : Nat) : Nat :=
  matchLenFrom a i b j (limit / 8) limit

/-- `searcher`, without the context whose tables are passed separately. -/
structure Searcher where
  src : Bytes
  hlog : Nat
  d : Option LzbCdict
  depth : Nat

/-- Walk the block's own chain: `best` and `bestd` are the longest match so far and its distance. -/
def findInBlock (s : Searcher) (t : LzbTables) (pos limit : Nat) :
    Nat → UInt32 → Nat → Nat → Nat × Nat
  | 0, _, best, bestd => (best, bestd)
  | tries + 1, cand, best, bestd =>
    if cand = 0 then (best, bestd)
    else
      let p := cand.toNat - 1
      if p ≥ pos then (best, bestd)
      else
        let m := matchLen s.src p s.src pos limit
        if m > best then
          if m = limit then (m, pos - p)
          else findInBlock s t pos limit tries (t.chain p) m (pos - p)
        else findInBlock s t pos limit tries (t.chain p) best bestd

/-- Continue into the dictionary's chain, where a match ends at the dictionary's last byte. -/
def findInDict (s : Searcher) (d : LzbCdict) (pos limit : Nat) :
    Nat → UInt32 → Nat → Nat → Nat × Nat
  | 0, _, best, bestd => (best, bestd)
  | tries + 1, cand, best, bestd =>
    if cand = 0 then (best, bestd)
    else
      let p := cand.toNat - 1
      let m := matchLen d.data p s.src pos (min (d.data.length - p) limit)
      if m > best then
        if m = limit then (m, pos + (d.data.length - p))
        else findInDict s d pos limit tries (d.chain p) m (pos + (d.data.length - p))
      else findInDict s d pos limit tries (d.chain p) best bestd

/-- The best match at `pos` with its distance; length zero when none reaches the minimum. -/
def findMatch (s : Searcher) (t : LzbTables) (pos : Nat) : Nat × Nat :=
  let limit := s.src.length - pos
  if limit < lzbMinMatch then (0, 0)
  else
    let limit := if limit > 65535 then 65535 else limit
    let v := read32 s.src pos
    let found := findInBlock s t pos limit s.depth (t.head (hash4 v s.hlog)) 0 0
    let found :=
      match s.d with
      | none => found
      | some d =>
        if d.data.length ≥ lzbMinMatch ∧ found.1 < limit then
          findInDict s d pos limit s.depth (d.head (hash4 v d.hlog)) found.1 found.2
        else found
    if found.1 < lzbMinMatch then (0, 0) else found

def lzbBound (srcSize : Nat) : Nat := srcSize + srcSize / 255 + 32

/-- One sequence: a token, the literals, and a match unless this is the last sequence. -/
def emitSeq (cap : Nat) (dst lits : Bytes) (dist mlen : Nat) : Option Bytes :=
  let litlen := lits.length
  let litcode := if litlen < 15 then litlen else 15
  let mcode :=
    if mlen = 0 then 0
    else if mlen - lzbMinMatch < 14 then mlen - lzbMinMatch + 1 else 15
  if dst.length ≥ cap then none
  else
    let dst := dst ++ [UInt8.ofNat (litcode <<< 4 ||| mcode)]
    (if litcode = 15 then putVarint cap dst (UInt64.ofNat (litlen - 15)) else some dst).bind
      fun dst =>
    (if litlen ≠ 0 then if dst.length + litlen > cap then none else some (dst ++ lits)
      else some dst).bind fun dst =>
    if mlen ≠ 0 then
      (putVarint cap dst (UInt64.ofNat dist)).bind fun dst =>
      if mcode = 15 then putVarint cap dst (UInt64.ofNat (mlen - lzbMinMatch - 14)) else some dst
    else some dst

/-- The loop state of `xq_lzb_compress`. -/
structure LzbRun where
  pos : Nat
  anchor : Nat
  tables : LzbTables
  dst : Bytes

/-- Index the matched span, as far as four bytes remain; the count is the rest of the span. -/
def insertSpan (s : Searcher) : Nat → Nat → LzbTables → LzbTables
  | 0, _, t => t
  | left + 1, i, t =>
    if i + lzbMinMatch ≤ s.src.length then insertSpan s left (i + 1) (t.insert s.src s.hlog i)
    else t

/-- The lazy step: index `pos`, probe the next position, and prefer it when clearly longer. -/
def lazyStep (s : Searcher) (r : LzbRun) (m dist : Nat) : LzbRun × Nat × Nat :=
  if r.pos + 1 + lzbMinMatch ≤ s.src.length then
    let r := { r with tables := r.tables.insert s.src s.hlog r.pos }
    let (m2, d2) := findMatch s r.tables (r.pos + 1)
    if m2 > m + 1 then ({ r with pos := r.pos + 1 }, m2, d2) else (r, m, dist)
  else (r, m, dist)

/-- The bytes of `src` from `i` on, `n` of them. -/
def slice (src : Bytes) (i n : Nat) : Bytes := (src.drop i).take n

/-- The main loop; the flag is false when the output did not fit. The fuel bounds the positions. -/
def lzbLoop (s : Searcher) (cap : Nat) : Nat → LzbRun → Bool × LzbRun
  | 0, r => (true, r)
  | fuel + 1, r =>
    if r.pos + lzbMinMatch ≤ s.src.length then
      let (m, dist) := findMatch s r.tables r.pos
      if m = 0 then
        lzbLoop s cap fuel
          { r with tables := r.tables.insert s.src s.hlog r.pos, pos := r.pos + 1 }
      else
        let (r, m, dist) := lazyStep s r m dist
        match emitSeq cap r.dst (slice s.src r.anchor (r.pos - r.anchor)) dist m with
        | none => (false, r)
        | some dst =>
          lzbLoop s cap fuel
            { pos := r.pos + m, anchor := r.pos + m, dst := dst,
              tables := insertSpan s m r.pos r.tables }
    else (true, r)

/-- Write the tables of a finished run back into the context's arrays. -/
def LzbCctx.store (c : LzbCctx) (t : LzbTables) : LzbCctx :=
  { c with head := c.head.map fun a => { a with data := t.head }
           chain := c.chain.map fun a => { a with data := t.chain } }

/-- The tables a context holds; a null array is never read. -/
def LzbCctx.tables (c : LzbCctx) : LzbTables :=
  { head := (c.head.map HeapArray.data).getD fun _ => 0
    chain := (c.chain.map HeapArray.data).getD fun _ => 0 }

def lzbCompress (c : LzbCctx) (cap : Nat) (src : Bytes) (level : Int) (cdict : Option LzbCdict) :
    (XqStatus × Bytes) × LzbCctx :=
  if src.length = 0 then ((.ok, []), c)
  else
    match cctxPrepare c src.length with
    | (false, c) => ((.oom, []), c)
    | (true, c) =>
      let s : Searcher := { src := src, hlog := c.hlog, d := cdict, depth := depthFor level }
      match lzbLoop s cap src.length { pos := 0, anchor := 0, tables := c.tables, dst := [] } with
      | (false, r) => ((.dstTooSmall, []), c.store r.tables)
      | (true, r) =>
        match emitSeq cap r.dst (slice src r.anchor (src.length - r.anchor)) 0 0 with
        | none => ((.dstTooSmall, []), c.store r.tables)
        | some dst => ((.ok, dst), c.store r.tables)

/-- Copy bytes one at a time from `dist` back, so that a copy may overlap its own output. -/
def copyBytes (dist : Nat) : Nat → Bytes → Bytes
  | 0, dst => dst
  | n + 1, dst => copyBytes dist n (dst ++ [ld8 dst (dst.length - dist)])

/-- A match copy: first out of the dictionary's tail, then out of the output. The caller has
checked `dist` against output and dictionary, so `back` never exceeds the dictionary. -/
def copyMatch (dict dst : Bytes) (dist mlen : Nat) : Bytes :=
  if dist > dst.length then
    let back := dist - dst.length
    let fromDict := if back < mlen then back else mlen
    let dst := dst ++ slice dict (dict.length - back) fromDict
    copyBytes dst.length (mlen - fromDict) dst
  else copyBytes dist mlen dst

/-- The literal length of a token; `none` is a bad extension. -/
def lzbLitLen (code : Nat) (inp : Bytes) : Option (Nat × Bytes) :=
  if code = 15 then
    match getVarint inp with
    | none => none
    | some (ext, rest) =>
      if ext.toNat > 2 ^ 64 - 1 - 15 then none else some (15 + ext.toNat, rest)
  else some (code, inp)

/-- The match length of a token with a match; `none` is a bad extension. -/
def lzbMatchLen (code : Nat) (inp : Bytes) : Option (Nat × Bytes) :=
  if code = 15 then
    match getVarint inp with
    | none => none
    | some (ext, rest) =>
      if ext.toNat > 2 ^ 64 - 1 - (code - 1 + lzbMinMatch) then none
      else some (lzbMinMatch + 14 + ext.toNat, rest)
  else some (code - 1 + lzbMinMatch, inp)

/-- The token loop, on the unread input; the second component is what has been written so far. -/
def lzbDecompressLoop (dict : Bytes) (cap : Nat) : Nat → Bytes → Bytes → XqStatus × Bytes
  | 0, _, dst => (.ok, dst)
  | _ + 1, [], dst => (.ok, dst)
  | fuel + 1, token :: inp, dst =>
    match lzbLitLen (token >>> 4).toNat inp with
    | none => (.corruptBlock, dst)
    | some (litlen, inp) =>
      if litlen > inp.length then (.corruptBlock, dst)
      else if litlen > cap - dst.length then (.dstTooSmall, dst)
      else
        let dst := dst ++ inp.take litlen
        let inp := inp.drop litlen
        if (token &&& 0x0F).toNat = 0 then (.ok, dst)
        else
          match getVarint inp with
          | none => (.corruptBlock, dst)
          | some (dist, inp) =>
            if dist = 0 then (.corruptBlock, dst)
            else
              match lzbMatchLen (token &&& 0x0F).toNat inp with
              | none => (.corruptBlock, dst)
              | some (mlen, inp) =>
                if dist.toNat > dst.length + dict.length then (.corruptBlock, dst)
                else if mlen > cap - dst.length then (.dstTooSmall, dst)
                else lzbDecompressLoop dict cap fuel inp (copyMatch dict dst dist.toNat mlen)

/-- The status, and the bytes written into `dst`, which on an error may be a partial output. -/
def lzbDecompress (cap : Nat) (src : Bytes) (ddict : Option LzbDdict) : XqStatus × Bytes :=
  lzbDecompressLoop ((ddict.map LzbDdict.data).getD []) cap src.length src []

end Xq
