import Xq.Common.Params

/-! The decoder's buffered input: a source that delivers bytes in pieces, and the window over it. -/

namespace Xq

def rbufSize : Nat := 256 * 1024

/-- A source callback over a finite stream. Call number `n` asking for `len` bytes reports a
failure, or delivers as many bytes as `answer n len` allows: at least one while any remain, and
never more than were asked for. -/
structure Source where
  rest : Bytes
  answer : Nat → Nat → XqStatus × Nat
  calls : Nat

/-- One call: the status, the bytes delivered, and the source after it. -/
def Source.read (s : Source) (len : Nat) : XqStatus × Bytes × Source :=
  let (st, allowed) := s.answer s.calls len
  let s := { s with calls := s.calls + 1 }
  if st ≠ .ok then (st, [], s)
  else
    let take := min (max allowed 1) len
    (.ok, s.rest.take take, { s with rest := s.rest.drop take })

/-- `mem_src`: one buffer, delivered as far as each request goes. -/
def memSrc (src : Bytes) : Source := { rest := src, answer := fun _ len => (.ok, len), calls := 0 }

/-- The input of a decoder; `rbuf` holds the bytes between `rpos` and `rlen`. -/
structure Stream where
  src : Source
  rbuf : Bytes
  srcEof : Bool

def Stream.init (src : Source) : Stream := { src := src, rbuf := [], srcEof := false }

/-- `rbuf_fill`: the unread bytes move to the front, and the source fills the rest. -/
def Stream.fill (d : Stream) : XqStatus × Stream :=
  if d.srcEof then (.ok, d)
  else
    match d.src.read (rbufSize - d.rbuf.length) with
    | (.ok, got, src) =>
      (.ok, { src := src, rbuf := d.rbuf ++ got, srcEof := got.length = 0 })
    | (st, _, src) => (st, { d with src := src })

/-- The loop of `need`; every round but the last delivers a byte, which bounds the rounds. -/
def Stream.needLoop (n : Nat) : Nat → Stream → XqStatus × Stream
  | 0, d => (.ok, d)
  | fuel + 1, d =>
    if d.rbuf.length < n then
      if d.srcEof then (.truncated, d)
      else
        match d.fill with
        | (.ok, d) => Stream.needLoop n fuel d
        | (st, d) => (st, d)
    else (.ok, d)

/-- `need`: after a success the next `n` bytes stand at the front of `rbuf`. -/
def Stream.need (d : Stream) (n : Nat) : XqStatus × Stream :=
  if n > rbufSize then (.internal, d) else d.needLoop n (n + 2)

def Stream.consume (d : Stream) (n : Nat) : Stream := { d with rbuf := d.rbuf.drop n }

/-- The loop of `read_exact` once the window is empty: straight from the source. -/
def Stream.readLoop : Nat → Nat → Bytes → Stream → XqStatus × Bytes × Stream
  | 0, _, dst, d => (.ok, dst, d)
  | fuel + 1, n, dst, d =>
    if n = 0 then (.ok, dst, d)
    else if d.srcEof then (.truncated, dst, d)
    else
      match d.src.read n with
      | (.ok, got, src) =>
        if got.length = 0 then (.truncated, dst, { d with src := src, srcEof := true })
        else Stream.readLoop fuel (n - got.length) (dst ++ got) { d with src := src }
      | (st, _, src) => (st, dst, { d with src := src })

/-- `read_exact`: the status, and what has been written to the destination. -/
def Stream.readExact (d : Stream) (n : Nat) : XqStatus × Bytes × Stream :=
  let take := min n d.rbuf.length
  Stream.readLoop (n + 1) (n - take) (d.rbuf.take take) { d with rbuf := d.rbuf.drop take }

/-- The skip loop of `handle_record`; every round but the last skips a byte. -/
def Stream.skipLoop : Nat → Nat → Stream → XqStatus × Stream
  | 0, _, d => (.ok, d)
  | fuel + 1, remain, d =>
    if remain = 0 then (.ok, d)
    else if d.rbuf = [] then
      if d.srcEof then (.truncated, d)
      else
        match d.fill with
        | (.ok, d) =>
          if d.rbuf = [] ∧ d.srcEof then (.truncated, d)
          else
            let take := min remain d.rbuf.length
            Stream.skipLoop fuel (remain - take) (d.consume take)
        | (st, d) => (st, d)
    else
      let take := min remain d.rbuf.length
      Stream.skipLoop fuel (remain - take) (d.consume take)

def Stream.skip (d : Stream) (n : Nat) : XqStatus × Stream := d.skipLoop (n + 1) n

end Xq
