import Xq.Common.Bits

/-! XXH64, one-shot over a whole buffer and streaming over consecutive pieces. -/

namespace Xq

def xxhP1 : UInt64 := 11400714785074694791
def xxhP2 : UInt64 := 14029467366897019727
def xxhP3 : UInt64 := 1609587929392839161
def xxhP4 : UInt64 := 9650029242287828579
def xxhP5 : UInt64 := 2870177450012600261

def rotl64 (x r : UInt64) : UInt64 := (x <<< r) ||| (x >>> (64 - r))

def round64 (acc input : UInt64) : UInt64 := rotl64 (acc + input * xxhP2) 31 * xxhP1

def mergeRound (acc val : UInt64) : UInt64 := (acc ^^^ round64 0 val) * xxhP1 + xxhP4

/-- The four lanes that bulk input runs through. -/
structure Xxh64Lanes where
  v1 : UInt64
  v2 : UInt64
  v3 : UInt64
  v4 : UInt64
  deriving DecidableEq, Repr

def Xxh64Lanes.init (seed : UInt64) : Xxh64Lanes :=
  { v1 := seed + xxhP1 + xxhP2, v2 := seed + xxhP2, v3 := seed + 0, v4 := seed - xxhP1 }

/-- One 32-byte stripe, eight bytes to each lane. -/
def Xxh64Lanes.stripe (v : Xxh64Lanes) (p : Bytes) : Xxh64Lanes :=
  { v1 := round64 v.v1 (ld64le p 0), v2 := round64 v.v2 (ld64le p 8),
    v3 := round64 v.v3 (ld64le p 16), v4 := round64 v.v4 (ld64le p 24) }

/-- The bulk loop, over as many whole stripes as the count says. -/
def Xxh64Lanes.stripes (v : Xxh64Lanes) : Nat → Bytes → Xxh64Lanes
  | 0, _ => v
  | n + 1, p => (v.stripe p).stripes n (p.drop 32)

def Xxh64Lanes.merge (v : Xxh64Lanes) : UInt64 :=
  let h := rotl64 v.v1 1 + rotl64 v.v2 7 + rotl64 v.v3 12 + rotl64 v.v4 18
  mergeRound (mergeRound (mergeRound (mergeRound h v.v1) v.v2) v.v3) v.v4

/-- The eight-byte steps of the tail. -/
def xxhTail8 : Nat → Bytes → UInt64 → UInt64
  | 0, _, h => h
  | n + 1, p, h =>
    xxhTail8 n (p.drop 8) (rotl64 (h ^^^ round64 0 (ld64le p 0)) 27 * xxhP1 + xxhP4)

/-- The last fewer-than-32 bytes: eight at a time, then four, then one by one. -/
def xxhTail (h : UInt64) (p : Bytes) : UInt64 :=
  let h := xxhTail8 (p.length / 8) p h
  let p := p.drop (8 * (p.length / 8))
  let (h, p) :=
    if p.length ≥ 4 then
      (rotl64 (h ^^^ (ld32le p 0).toUInt64 * xxhP1) 23 * xxhP2 + xxhP3, p.drop 4)
    else (h, p)
  p.foldl (fun h b => rotl64 (h ^^^ b.toUInt64 * xxhP5) 11 * xxhP1) h

def xxhAvalanche (h : UInt64) : UInt64 :=
  let h := (h ^^^ (h >>> 33)) * xxhP2
  let h := (h ^^^ (h >>> 29)) * xxhP3
  h ^^^ (h >>> 32)

def xxh64 (data : Bytes) (seed : UInt64) : UInt64 :=
  let n := data.length / 32
  let h :=
    if data.length ≥ 32 then ((Xxh64Lanes.init seed).stripes n data).merge else seed + xxhP5
  xxhAvalanche (xxhTail (h + UInt64.ofNat data.length) (data.drop (32 * n)))

/-- The streaming state; `buf` holds the bytes of an incomplete stripe. -/
structure Xxh64State where
  lanes : Xxh64Lanes
  total : UInt64
  seed : UInt64
  buf : Bytes
  deriving DecidableEq, Repr

def xxh64Init (seed : UInt64) : Xxh64State :=
  { lanes := Xxh64Lanes.init seed, total := 0, seed := seed, buf := [] }

/-- The bulk and remainder sections of an update, once no stripe is pending. -/
def xxh64Absorb (s : Xxh64State) (data : Bytes) : Xxh64State :=
  let n := data.length / 32
  { s with lanes := s.lanes.stripes n data, buf := data.drop (32 * n) }

def xxh64Update (s : Xxh64State) (data : Bytes) : Xxh64State :=
  let s := { s with total := s.total + UInt64.ofNat data.length }
  if s.buf = [] then xxh64Absorb s data
  else
    let take := min data.length (32 - s.buf.length)
    let buf := s.buf ++ data.take take
    if buf.length < 32 then { s with buf := buf }
    else xxh64Absorb { s with lanes := s.lanes.stripe buf, buf := [] } (data.drop take)

def xxh64Final (s : Xxh64State) : UInt64 :=
  let h := if s.total ≥ 32 then s.lanes.merge else s.seed + xxhP5
  xxhAvalanche (xxhTail (h + s.total) s.buf)

end Xq
