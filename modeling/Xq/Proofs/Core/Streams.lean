import Xq.Lib.Loop
import Xq.Proofs.Core.Runs

/-! Buffered input: however a source cuts its bytes, the window over it reads them in order. -/

namespace Xq

open Lib

/-- A source that never fails. -/
def Source.NeverFails (s : Source) : Prop := ∀ n len, (s.answer n len).1 = .ok

/-- A stream over such a source, whose end flag is only up once everything has been delivered. -/
structure Stream.Delivers (d : Stream) : Prop where
  source : d.src.NeverFails
  ended : d.srcEof = true → d.src.rest = []

/-- The bytes a stream has yet to hand out, wherever they are. -/
def Stream.bytes (d : Stream) : Bytes := d.rbuf ++ d.src.rest

/-- A stream all of whose bytes are in the window already. -/
def Stream.whole (bytes : Bytes) : Stream :=
  { src := memSrc [], rbuf := bytes, srcEof := true }

section Whole

@[simp] theorem Stream.bytes_whole (bytes : Bytes) : (Stream.whole bytes).bytes = bytes :=
  List.append_nil bytes

@[simp] theorem Stream.rbuf_whole (bytes : Bytes) : (Stream.whole bytes).rbuf = bytes := rfl

@[simp] theorem Stream.consume_whole (bytes : Bytes) (n : Nat) :
    (Stream.whole bytes).consume n = Stream.whole (bytes.drop n) := rfl

/-- With everything in the window, `need` only compares lengths. -/
theorem Stream.need_whole (bytes : Bytes) (n : Nat) : (Stream.whole bytes).need n =
    (if n > rbufSize then .internal else if n ≤ bytes.length then .ok else .truncated,
      Stream.whole bytes) := by
  -- The window does not grow any more, so the loop stops at once.
  rw [Stream.need]
  by_cases large : n > rbufSize
  · rw [if_pos large, if_pos large]
  · rw [if_neg large, if_neg large, Stream.needLoop]
    rw [Stream.rbuf_whole]
    by_cases enough : n ≤ bytes.length
    · rw [if_neg (Nat.not_lt.mpr enough), if_pos enough]
    · rw [if_pos (Nat.not_le.mp enough), if_neg enough]
      rfl

/-- A read takes its bytes off the window, or finds the stream too short. -/
theorem Stream.readExact_whole (bytes : Bytes) (n : Nat) : (Stream.whole bytes).readExact n =
    if n ≤ bytes.length then (.ok, bytes.take n, Stream.whole (bytes.drop n))
    else (.truncated, bytes, Stream.whole []) := by
  -- The window is the whole stream, so nothing is left for direct reads.
  rw [Stream.readExact]
  dsimp only [Stream.rbuf_whole]
  rw [Stream.readLoop]
  by_cases enough : n ≤ bytes.length
  · rw [if_pos enough, Nat.min_eq_left enough, Nat.sub_self, if_pos rfl]
    rfl
  · have short : min n bytes.length = bytes.length := Nat.min_eq_right (Nat.le_of_not_le enough)
    rw [if_neg enough, short, if_neg (by omega), List.take_length, List.drop_length]
    rfl

/-- A skip drops its bytes off the window, or finds the stream too short. -/
theorem Stream.skip_whole (bytes : Bytes) (n : Nat) : (Stream.whole bytes).skip n =
    if n ≤ bytes.length then (.ok, Stream.whole (bytes.drop n))
    else (.truncated, Stream.whole []) := by
  rw [Stream.skip, Stream.skipLoop]
  by_cases none : n = 0
  · rw [if_pos none, if_pos (by omega), none, List.drop_zero]
  rw [if_neg none, Stream.rbuf_whole]
  by_cases empty : bytes = []
  · have ended : (Stream.whole bytes).srcEof = true := rfl
    rw [if_pos empty, if_pos ended, if_neg (by rw [empty, List.length_nil]; omega), empty]
  obtain ⟨m, rfl⟩ := Nat.exists_eq_succ_of_ne_zero none
  rw [if_neg empty, Stream.skipLoop]
  by_cases enough : m + 1 ≤ bytes.length
  · rw [Nat.succ_eq_add_one, Nat.min_eq_left enough, Nat.sub_self, if_pos rfl, if_pos enough]
    rfl
  · -- The window runs dry with bytes still to skip, and the source has no more.
    have short : min (m + 1) bytes.length = bytes.length := Nat.min_eq_right (by omega)
    have dry : ((Stream.whole bytes).consume bytes.length).rbuf = [] := List.drop_length
    rw [Nat.succ_eq_add_one, short, if_neg (by omega), if_pos dry, if_neg enough]
    rw [Stream.consume_whole, List.drop_length]
    rfl

end Whole

section Rounds

variable {d d' : Stream}

/-- A call that reports success delivers something, unless nothing is left. -/
theorem Source.read_nothing {s s' : Source} {len : Nat} {got : Bytes} (asked : 0 < len)
    (read : s.read len = (.ok, got, s')) (nothing : got = []) : s.rest = [] := by
  simp only [Source.read] at read
  split at read
  · rename_i failed
    exact absurd (congrArg Prod.fst read) failed
  · simp only [Prod.mk.injEq, true_and] at read
    -- At least one byte is asked for, so an empty piece means an empty rest.
    have length := congrArg List.length (read.1.trans nothing)
    rw [List.length_take, List.length_nil] at length
    exact List.length_eq_zero_iff.mp (by omega)

/-- A refill that succeeds moves bytes into the window, or raises the end flag. -/
theorem Stream.fill_ok (room : d.rbuf.length < rbufSize) (more : d.srcEof = false)
    (filled : d.fill = (.ok, d')) :
    d'.bytes = d.bytes ∧ d.rbuf.length ≤ d'.rbuf.length ∧
      (d'.srcEof = false → d.rbuf.length < d'.rbuf.length) ∧
      (d'.srcEof = true → d'.rbuf = d.rbuf ∧ d'.src.rest = []) := by
  rw [Stream.fill, more, if_neg Bool.false_ne_true] at filled
  split at filled
  · rename_i got src read
    cases filled
    have rest := (Source.read_ok read).2
    have nothing := Source.read_nothing (by omega) read
    refine ⟨?_, ?_, fun going => ?_, fun ended => ?_⟩
    · rw [Stream.bytes, Stream.bytes, rest, List.append_assoc]
    · rw [List.length_append]
      omega
    · have some_byte : got.length ≠ 0 := of_decide_eq_false going
      rw [List.length_append]
      omega
    · -- The flag goes up on an empty piece, which only an empty rest gives.
      have empty := List.length_eq_zero_iff.mp (of_decide_eq_true ended)
      have whole := nothing empty
      rw [empty, List.nil_append] at rest
      dsimp only
      rw [empty, List.append_nil]
      exact ⟨rfl, rest.symm.trans whole⟩
  · rename_i failed _
    cases filled
    exact (failed rfl).elim

/-- One round of `need`. -/
def Stream.needRound (n : Nat) (d : Stream) : Round Stream (XqStatus × Stream) :=
  if d.rbuf.length < n then
    if d.srcEof then .done (.truncated, d)
    else
      match d.fill with
      | (.ok, d) => .again d
      | (st, d) => .done (st, d)
  else .done (.ok, d)

theorem Stream.needLoop_unrolls (n : Nat) :
    Unrolls (Stream.needRound n) fun fuel d => d.needLoop n fuel := by
  -- A refill that succeeds is followed by another round.
  intro fuel d
  dsimp only
  rw [Stream.needLoop, Stream.needRound]
  by_cases missing : d.rbuf.length < n
  · rw [if_pos missing, if_pos missing]
    by_cases ended : d.srcEof = true
    · rw [if_pos ended, if_pos ended]
    · rw [if_neg ended, if_neg ended]
      rcases d.fill with ⟨st, _⟩
      cases st
      all_goals rfl
  · rw [if_neg missing, if_neg missing]

/-- Another round of `need` follows a refill, which has brought a byte or the end flag. -/
theorem Stream.needRound_again {n : Nat} (small : n ≤ rbufSize)
    (round : d.needRound n = .again d') :
    d'.bytes = d.bytes ∧ n - d'.rbuf.length + (if d'.srcEof then 0 else 1) <
      n - d.rbuf.length + (if d.srcEof then 0 else 1) := by
  rw [Stream.needRound] at round
  by_cases missing : d.rbuf.length < n
  · rw [if_pos missing] at round
    by_cases ended : d.srcEof = true
    · rw [if_pos ended] at round
      cases round
    · rw [if_neg ended] at round
      split at round
      · rename_i next filled
        cases round
        obtain ⟨bytes, longer, progress, stays⟩ :=
          Stream.fill_ok (by omega) (Bool.eq_false_iff.mpr ended) filled
        refine ⟨bytes, ?_⟩
        rw [if_neg ended]
        by_cases flag : d'.srcEof = true
        · -- The refill has come to the end.
          rw [if_pos flag, (stays flag).1]
          omega
        · -- The refill has brought a byte.
          have := progress (Bool.eq_false_iff.mpr flag)
          rw [if_neg flag]
          omega
      · cases round
  · rw [if_neg missing] at round
    cases round

/-- `need` ends: every round brings a byte, or the end flag. -/
theorem Stream.need_ends {n : Nat} (small : n ≤ rbufSize) (d : Stream) :
    Ends (Stream.needRound n) d (d.need n) := by
  -- What is missing, and the end still to come, fall with every round.
  rw [Stream.need, if_neg (Nat.not_lt.mpr small)]
  refine (Stream.needLoop_unrolls n).ends (I := fun _ => True)
    (m := fun d => n - d.rbuf.length + (if d.srcEof then 0 else 1))
    (fun d d' _ round => ⟨trivial, (Stream.needRound_again small round).2⟩) trivial ?_
  split <;> omega

/-- A success of `need` puts the bytes in the window, and takes none off the stream. -/
theorem Stream.need_ok {n : Nat} (done : d.need n = (.ok, d')) :
    n ≤ d'.rbuf.length ∧ d'.bytes = d.bytes := by
  -- A request larger than the window is refused.
  have small : n ≤ rbufSize := by
    by_contra large
    rw [Stream.need, if_pos (by omega)] at done
    cases done
  have ends := Stream.need_ends small d
  rw [done] at ends
  refine ends.result (I := fun w => w.bytes = d.bytes)
    (Q := fun r => r.1 = .ok → n ≤ r.2.rbuf.length ∧ r.2.bytes = d.bytes)
    (fun w w' same round => (Stream.needRound_again small round).1.trans same)
    (fun w r same round good => ?_) rfl rfl
  rw [Stream.needRound] at round
  by_cases missing : w.rbuf.length < n
  · rw [if_pos missing] at round
    split at round
    · -- The stream ended too early.
      cases round
      cases good
    · split at round
      · cases round
      · -- The refill failed.
        rename_i failed _
        cases round
        exact (failed good).elim
  · -- The bytes are there.
    rw [if_neg missing] at round
    cases round
    exact ⟨Nat.not_lt.mp missing, same⟩

/-- One round of the direct reads of `read_exact`; `n` bytes are missing from `dst`. -/
def Stream.readRound : Nat × Bytes × Stream →
    Round (Nat × Bytes × Stream) (XqStatus × Bytes × Stream)
  | (n, dst, d) =>
    if n = 0 then .done (.ok, dst, d)
    else if d.srcEof then .done (.truncated, dst, d)
    else
      match d.src.read n with
      | (.ok, got, src) =>
        if got.length = 0 then .done (.truncated, dst, { d with src := src, srcEof := true })
        else .again (n - got.length, dst ++ got, { d with src := src })
      | (st, _, src) => .done (st, dst, { d with src := src })

theorem Stream.readLoop_unrolls :
    Unrolls Stream.readRound fun fuel s => Stream.readLoop fuel s.1 s.2.1 s.2.2 := by
  -- A read that brings some bytes is followed by another round.
  rintro fuel ⟨n, dst, d⟩
  dsimp only
  rw [Stream.readLoop, Stream.readRound]
  by_cases none : n = 0
  · rw [if_pos none, if_pos none]
  rw [if_neg none, if_neg none]
  by_cases ended : d.srcEof = true
  · rw [if_pos ended, if_pos ended]
  rw [if_neg ended, if_neg ended]
  rcases d.src.read n with ⟨st, got, src⟩
  cases st
  case ok =>
    dsimp only
    by_cases nothing : got.length = 0
    · rw [if_pos nothing, if_pos nothing]
    · rw [if_neg nothing, if_neg nothing]
  all_goals rfl

/-- The direct reads of `read_exact` end: every one of them brings a byte. -/
theorem Stream.readLoop_ends (n : Nat) (dst : Bytes) (d : Stream) :
    Ends Stream.readRound (n, dst, d) (Stream.readLoop (n + 1) n dst d) := by
  -- What is left to read falls with every round.
  refine Stream.readLoop_unrolls.ends (I := fun _ => True) (m := fun s => s.1) ?_
    (s := (n, dst, d)) trivial (Nat.lt_succ_self n)
  rintro ⟨n, dst, d⟩ s' _ round
  rw [Stream.readRound] at round
  split at round; · cases round
  split at round; · cases round
  split at round
  · split at round
    · cases round
    · cases round
      refine ⟨trivial, ?_⟩
      dsimp only
      omega
  · cases round

/-- One round of the skip loop. -/
def Stream.skipRound : Nat × Stream → Round (Nat × Stream) (XqStatus × Stream)
  | (remain, d) =>
    if remain = 0 then .done (.ok, d)
    else if d.rbuf = [] then
      if d.srcEof then .done (.truncated, d)
      else
        match d.fill with
        | (.ok, d) =>
          if d.rbuf = [] ∧ d.srcEof then .done (.truncated, d)
          else
            let take := min remain d.rbuf.length
            .again (remain - take, d.consume take)
        | (st, d) => .done (st, d)
    else
      let take := min remain d.rbuf.length
      .again (remain - take, d.consume take)

theorem Stream.skipLoop_unrolls :
    Unrolls Stream.skipRound fun fuel s => Stream.skipLoop fuel s.1 s.2 := by
  -- A round drops what is in the window, or refills it first.
  rintro fuel ⟨remain, d⟩
  dsimp only
  rw [Stream.skipLoop, Stream.skipRound]
  by_cases none : remain = 0
  · rw [if_pos none, if_pos none]
  rw [if_neg none, if_neg none]
  by_cases empty : d.rbuf = []
  · rw [if_pos empty, if_pos empty]
    by_cases ended : d.srcEof = true
    · rw [if_pos ended, if_pos ended]
    rw [if_neg ended, if_neg ended]
    rcases d.fill with ⟨st, next⟩
    cases st
    case ok =>
      dsimp only
      by_cases dry : next.rbuf = [] ∧ next.srcEof
      · rw [if_pos dry, if_pos dry]
      · rw [if_neg dry, if_neg dry]
    all_goals rfl
  · rw [if_neg empty, if_neg empty]

/-- A refill of an empty window that does not end the stream brings a byte. -/
theorem Stream.fill_some (empty : d.rbuf = []) (more : d.srcEof = false)
    (filled : d.fill = (.ok, d')) (going : ¬ (d'.rbuf = [] ∧ d'.srcEof)) :
    0 < d'.rbuf.length := by
  -- With the end not reached a refill makes progress.
  obtain ⟨_, _, progress, _⟩ := Stream.fill_ok (by rw [empty]; decide) more filled
  rcases Nat.eq_zero_or_pos d'.rbuf.length with nothing | positive
  · have no_end : d'.srcEof = false := by
      by_contra flag
      exact going ⟨List.length_eq_zero_iff.mp nothing, Bool.not_eq_false _ ▸ flag⟩
    have := progress no_end
    omega
  · exact positive

/-- The skip loop ends: every round skips a byte. -/
theorem Stream.skip_ends (d : Stream) (n : Nat) : Ends Stream.skipRound (n, d) (d.skip n) := by
  refine Stream.skipLoop_unrolls.ends (I := fun _ => True) (m := fun s => s.1) ?_
    (s := (n, d)) trivial (Nat.lt_succ_self n)
  rintro ⟨n, d⟩ s' _ round
  rw [Stream.skipRound] at round
  split at round; · cases round
  split at round
  · -- The window was empty and has been refilled.
    rename_i empty
    split at round; · cases round
    rename_i ended
    split at round
    · rename_i next filled
      split at round
      · cases round
      · rename_i going
        have some_byte := Stream.fill_some empty (Bool.eq_false_iff.mpr ended) filled going
        cases round
        refine ⟨trivial, ?_⟩
        dsimp only
        omega
    · cases round
  · -- The window had some bytes.
    rename_i held
    have some_byte := List.length_pos_iff.mpr held
    cases round
    refine ⟨trivial, ?_⟩
    dsimp only
    omega

/-- A read that succeeds takes its bytes off the stream. -/
theorem Stream.readLoop_ok {n fuel : Nat} {dst got : Bytes} (empty : d.rbuf = [])
    (done : Stream.readLoop fuel n dst d = (.ok, got, d')) :
    dst ++ d.bytes = got ++ d'.bytes := by
  -- The induction is on the reads: each appends a chunk and takes it off the source.
  induction fuel generalizing n dst d with
  | zero =>
    cases done
    rfl
  | succ fuel ih =>
    rw [Stream.readLoop] at done
    split at done
    · cases done
      rfl
    split at done
    · cases done
    split at done
    · rename_i chunk src read
      split at done
      · cases done
      · have rest := ih (d := { d with src := src }) empty done
        rw [← rest, Stream.bytes, Stream.bytes, empty, List.nil_append, List.nil_append,
          (Source.read_ok read).2, List.append_assoc]
    · rename_i failed _
      cases done
      exact (failed rfl).elim

theorem Stream.readExact_ok {n : Nat} {got : Bytes} (done : d.readExact n = (.ok, got, d')) :
    d.bytes = got ++ d'.bytes := by
  rw [Stream.readExact] at done
  rcases Nat.le_total n d.rbuf.length with there | beyond
  · -- The window has all of it.
    rw [Nat.min_eq_left there, Nat.sub_self, Stream.readLoop, if_pos rfl] at done
    obtain ⟨rfl, rfl⟩ := Prod.mk.inj (Prod.mk.inj done).2
    rw [Stream.bytes, Stream.bytes, ← List.append_assoc, List.take_append_drop]
  · rw [Nat.min_eq_right beyond, List.take_length, List.drop_length] at done
    have rest := Stream.readLoop_ok rfl done
    rw [← rest]
    rfl

/-- A skip that succeeds leaves no more than there was. -/
theorem Stream.skipLoop_ok {n fuel : Nat} (done : Stream.skipLoop fuel n d = (.ok, d')) :
    d'.bytes.length ≤ d.bytes.length := by
  -- Dropping bytes from the window leaves no more than there was.
  have consumed (w : Stream) (k : Nat) : (w.consume k).bytes.length ≤ w.bytes.length := by
    show (w.rbuf.drop k ++ w.src.rest).length ≤ (w.rbuf ++ w.src.rest).length
    rw [List.length_append, List.length_append, List.length_drop]
    omega
  induction fuel generalizing n d with
  | zero =>
    cases done
    exact Nat.le_refl _
  | succ fuel ih =>
    rw [Stream.skipLoop] at done
    split at done
    · cases done
      exact Nat.le_refl _
    split at done
    · rename_i empty
      split at done
      · cases done
      rename_i ended
      split at done
      · rename_i next filled
        have bytes := (Stream.fill_ok (by rw [empty]; decide)
          (Bool.eq_false_iff.mpr ended) filled).1
        split at done
        · cases done
        · exact Nat.le_trans (ih done) (by rw [← bytes]; exact consumed _ _)
      · rename_i failed _
        cases done
        exact (failed rfl).elim
    · exact Nat.le_trans (ih done) (consumed _ _)

end Rounds

section Delivers

variable {d : Stream}

/-- A call of a source that never fails succeeds. -/
theorem Source.NeverFails.read {s : Source} (never : s.NeverFails) (len : Nat) :
    ∃ got s', s.read len = (.ok, got, s') ∧ s'.NeverFails := by
  -- The answer of the source is a success, and a call changes no answer.
  have granted := never s.calls len
  rw [Source.read]
  generalize s.answer s.calls len = answer at granted
  obtain ⟨st, allowed⟩ := answer
  obtain rfl : st = .ok := granted
  exact ⟨_, _, rfl, never⟩

/-- A refill succeeds. -/
theorem Stream.Delivers.fill (delivers : d.Delivers) (room : d.rbuf.length < rbufSize)
    (more : d.srcEof = false) : ∃ d', d.fill = (.ok, d') ∧ d'.Delivers := by
  -- The source answers, and an empty answer means the end.
  obtain ⟨got, src, read, never⟩ := delivers.source.read (rbufSize - d.rbuf.length)
  have filled : d.fill = (.ok,
      { src := src, rbuf := d.rbuf ++ got, srcEof := got.length = 0 }) := by
    rw [Stream.fill, more, if_neg Bool.false_ne_true, read]
  exact ⟨_, filled, never, fun ended => ((Stream.fill_ok room more filled).2.2.2 ended).2⟩

/-- The loop of `need` ends with the bytes in the window, or at the end of a stream too short. -/
theorem Stream.Delivers.needLoop (delivers : d.Delivers) (n fuel : Nat) (small : n ≤ rbufSize)
    (enough : n - d.rbuf.length + (if d.srcEof then 0 else 1) < fuel) :
    ∃ d', d.needLoop n fuel = (if n ≤ d.bytes.length then .ok else .truncated, d') ∧
      d'.Delivers ∧ d'.bytes = d.bytes ∧ (n ≤ d.bytes.length → n ≤ d'.rbuf.length) := by
  -- The induction is on the rounds; each brings a byte, or the end flag.
  induction fuel generalizing d with
  | zero => omega
  | succ fuel ih =>
    have window : d.bytes.length = d.rbuf.length + d.src.rest.length := List.length_append
    rw [Stream.needLoop]
    by_cases missing : d.rbuf.length < n
    · rw [if_pos missing]
      cases ended : d.srcEof with
      | true =>
        -- The window holds all there is.
        have rest := delivers.ended ended
        rw [rest, List.length_nil] at window
        rw [if_pos rfl, if_neg (by omega)]
        exact ⟨d, rfl, delivers, rfl, fun fits => by omega⟩
      | false =>
        rw [ended, if_neg Bool.false_ne_true] at enough
        rw [if_neg Bool.false_ne_true]
        obtain ⟨filled, fill, next⟩ := delivers.fill (by omega) ended
        obtain ⟨bytes, longer, progress, stays⟩ := Stream.fill_ok (by omega) ended fill
        rw [fill]
        dsimp only
        have shorter : n - filled.rbuf.length + (if filled.srcEof then 0 else 1) < fuel := by
          cases flag : filled.srcEof with
          | true =>
            rw [if_pos rfl, (stays flag).1]
            omega
          | false =>
            have := progress flag
            rw [if_neg Bool.false_ne_true]
            omega
        obtain ⟨d', done, delivers', bytes', fits⟩ := ih next shorter
        rw [bytes] at done bytes' fits
        exact ⟨d', done, delivers', bytes', fits⟩
    · rw [if_neg missing, if_pos (by omega)]
      exact ⟨d, rfl, delivers, rfl, fun _ => by omega⟩

/-- `need` answers as if everything were in the window, and puts what it grants there. -/
theorem Stream.Delivers.need (delivers : d.Delivers) (n : Nat) :
    ∃ st d', d.need n = (st, d') ∧ (Stream.whole d.bytes).need n = (st, Stream.whole d.bytes) ∧
      d'.Delivers ∧ d'.bytes = d.bytes ∧ (st = .ok → n ≤ d'.rbuf.length) := by
  rw [Stream.need_whole, Stream.need]
  -- A request larger than the window is refused by both.
  by_cases large : n > rbufSize
  · rw [if_pos large, if_pos large]
    exact ⟨_, d, rfl, rfl, delivers, rfl, fun granted => by cases granted⟩
  · rw [if_neg large, if_neg large]
    obtain ⟨d', done, delivers', bytes, fits⟩ :=
      delivers.needLoop n (n + 2) (by omega) (by split <;> omega)
    refine ⟨_, d', done, rfl, delivers', bytes, fun granted => ?_⟩
    by_cases short : n ≤ d.bytes.length
    · exact fits short
    · rw [if_neg short] at granted
      cases granted

/-- The same for a length that may be zero, in which case nothing is asked for. -/
theorem Stream.Delivers.needSome (delivers : d.Delivers) (n : Nat) :
    ∃ st d', (if n > 0 then d.need n else (.ok, d)) = (st, d') ∧
      (if n > 0 then (Stream.whole d.bytes).need n else (.ok, Stream.whole d.bytes)) =
        (st, Stream.whole d.bytes) ∧
      d'.Delivers ∧ d'.bytes = d.bytes ∧ (st = .ok → n ≤ d'.rbuf.length) := by
  -- A length of zero grants itself.
  by_cases some_byte : n > 0
  · rw [if_pos some_byte, if_pos some_byte]
    exact delivers.need n
  · rw [if_neg some_byte, if_neg some_byte]
    exact ⟨.ok, d, rfl, rfl, delivers, rfl, fun _ => by omega⟩

/-- What `need` has put in the window is the front of the stream. -/
theorem Stream.take_rbuf {n : Nat} (there : n ≤ d.rbuf.length) : d.rbuf.take n = d.bytes.take n := by
  rw [Stream.bytes, List.take_append_of_le_length there]

/-- Consuming what is in the window drops it off the stream. -/
theorem Stream.Delivers.consume (delivers : d.Delivers) {n : Nat} (there : n ≤ d.rbuf.length) :
    (d.consume n).Delivers ∧ (d.consume n).bytes = d.bytes.drop n := by
  -- The window is the front of the stream.
  refine ⟨⟨delivers.source, delivers.ended⟩, ?_⟩
  show d.rbuf.drop n ++ d.src.rest = _
  rw [Stream.bytes, List.drop_append_of_le_length there]

/-- The direct reads of `read_exact`, once the window is empty. -/
theorem Stream.Delivers.readLoop (delivers : d.Delivers) (empty : d.rbuf = []) (n fuel : Nat)
    (enough : n < fuel) (dst : Bytes) :
    (d.readLoop fuel n dst).1 = (if n ≤ d.bytes.length then .ok else .truncated) ∧
      (n ≤ d.bytes.length → ∃ d', Stream.readLoop fuel n dst d =
        (.ok, dst ++ d.bytes.take n, d') ∧ d'.Delivers ∧ d'.bytes = d.bytes.drop n) := by
  have bytes : d.bytes = d.src.rest := by rw [Stream.bytes, empty, List.nil_append]
  rw [bytes]
  -- The induction is on the rounds; each of them delivers a byte, or ends the read.
  induction fuel generalizing n dst d with
  | zero => omega
  | succ fuel ih =>
    rw [Stream.readLoop]
    by_cases none : n = 0
    · rw [if_pos none, none, if_pos (Nat.zero_le _), List.take_zero, List.append_nil,
        List.drop_zero]
      exact ⟨rfl, fun _ => ⟨d, rfl, delivers, bytes⟩⟩
    rw [if_neg none]
    by_cases ended : d.srcEof = true
    · rw [if_pos ended, delivers.ended ended, if_neg (by rw [List.length_nil]; omega)]
      exact ⟨rfl, fun fits => absurd fits (by rw [List.length_nil]; omega)⟩
    rw [if_neg ended]
    obtain ⟨got, src, read, never⟩ := delivers.source.read n
    obtain ⟨short, rest⟩ := Source.read_ok read
    have nothing := Source.read_nothing (Nat.pos_of_ne_zero none) read
    rw [read]
    dsimp only
    by_cases stuck : got.length = 0
    · -- An empty piece means that nothing is left.
      have all := nothing (List.length_eq_zero_iff.mp stuck)
      rw [if_pos stuck, all, if_neg (by rw [List.length_nil]; omega)]
      exact ⟨rfl, fun fits => absurd fits (by rw [List.length_nil]; omega)⟩
    · rw [if_neg stuck]
      have next : ({ d with src := src } : Stream).Delivers :=
        ⟨never, fun flag => (ended flag).elim⟩
      have onward : ({ d with src := src } : Stream).bytes = src.rest := by
        rw [Stream.bytes, empty, List.nil_append]
      obtain ⟨status, reads⟩ := ih (d := { d with src := src }) next empty
        (n - got.length) (by omega) (dst ++ got) onward
      have length : d.src.rest.length = got.length + src.rest.length := by
        rw [rest, List.length_append]
      have same : n - got.length ≤ src.rest.length ↔ n ≤ d.src.rest.length := by omega
      refine ⟨?_, fun fits => ?_⟩
      · rw [status]
        exact if_congr same rfl rfl
      · obtain ⟨d', done, delivers', bytes'⟩ := reads (same.mpr fits)
        refine ⟨d', ?_, delivers', ?_⟩
        · rw [done, rest, List.take_append, List.take_of_length_le short, List.append_assoc]
        · rw [bytes', rest, List.drop_append, List.drop_of_length_le short, List.nil_append]

/-- `read_exact` answers as if everything were in the window, and delivers the same bytes. -/
theorem Stream.Delivers.readExact (delivers : d.Delivers) (n : Nat) :
    (d.readExact n).1 = ((Stream.whole d.bytes).readExact n).1 ∧
      (n ≤ d.bytes.length → ∃ d', d.readExact n = (.ok, d.bytes.take n, d') ∧ d'.Delivers ∧
        d'.bytes = d.bytes.drop n) := by
  have length : d.bytes.length = d.rbuf.length + d.src.rest.length := List.length_append
  rw [Stream.readExact_whole, Stream.readExact]
  rcases Nat.le_total n d.rbuf.length with there | beyond
  · -- The window has all of it.
    rw [Nat.min_eq_left there, Nat.sub_self, Stream.readLoop, if_pos rfl, if_pos (by omega)]
    have consumed := delivers.consume there
    refine ⟨rfl, fun _ => ⟨d.consume n, ?_, consumed.1, consumed.2⟩⟩
    rw [Stream.take_rbuf there]
    rfl
  · -- The window is emptied, and the source is asked for the rest.
    rw [Nat.min_eq_right beyond, List.take_length, List.drop_length]
    have emptied : ({ d with rbuf := [] } : Stream).Delivers := ⟨delivers.source, delivers.ended⟩
    obtain ⟨status, reads⟩ := emptied.readLoop rfl (n - d.rbuf.length) (n + 1)
      (by omega) d.rbuf
    have rest : ({ d with rbuf := [] } : Stream).bytes = d.src.rest := List.nil_append _
    rw [rest] at status reads
    have same : n - d.rbuf.length ≤ d.src.rest.length ↔ n ≤ d.bytes.length := by omega
    refine ⟨?_, fun fits => ?_⟩
    · rw [status]
      by_cases fits : n ≤ d.bytes.length
      · rw [if_pos (same.mpr fits), if_pos fits]
      · rw [if_neg fun short => fits (same.mp short), if_neg fits]
    · obtain ⟨d', done, delivers', bytes'⟩ := reads (same.mpr fits)
      refine ⟨d', ?_, delivers', ?_⟩
      · rw [done, Stream.bytes, List.take_append, List.take_of_length_le beyond]
      · rw [bytes', Stream.bytes, List.drop_append, List.drop_of_length_le beyond, List.nil_append]

/-- The skip loop ends with the bytes gone, or at the end of a stream too short. -/
theorem Stream.Delivers.skipLoop (delivers : d.Delivers) {n fuel : Nat} (enough : n < fuel) :
    (d.skipLoop fuel n).1 = (if n ≤ d.bytes.length then .ok else .truncated) ∧
      (n ≤ d.bytes.length → ∃ d', Stream.skipLoop fuel n d = (.ok, d') ∧ d'.Delivers ∧
        d'.bytes = d.bytes.drop n) := by
  -- The induction is on the rounds; each of them skips a byte, or ends the skip.
  induction fuel generalizing n d with
  | zero => omega
  | succ fuel ih =>
    rw [Stream.skipLoop]
    by_cases none : n = 0
    · rw [if_pos none, none, if_pos (Nat.zero_le _), List.drop_zero]
      exact ⟨rfl, fun _ => ⟨d, rfl, delivers, rfl⟩⟩
    rw [if_neg none]
    -- One step over a window that is not empty.
    have step (w : Stream) (delivers : w.Delivers) (some_byte : w.rbuf ≠ []) :
        (Stream.skipLoop fuel (n - min n w.rbuf.length)
          (w.consume (min n w.rbuf.length))).1 =
            (if n ≤ w.bytes.length then .ok else .truncated) ∧
        (n ≤ w.bytes.length → ∃ d', Stream.skipLoop fuel (n - min n w.rbuf.length)
          (w.consume (min n w.rbuf.length)) = (.ok, d') ∧ d'.Delivers ∧
            d'.bytes = w.bytes.drop n) := by
      have positive : 0 < w.rbuf.length := List.length_pos_iff.mpr some_byte
      have length : w.bytes.length = w.rbuf.length + w.src.rest.length := List.length_append
      obtain ⟨next, bytes⟩ := delivers.consume (n := min n w.rbuf.length) (Nat.min_le_right _ _)
      obtain ⟨status, skips⟩ := ih next (n := n - min n w.rbuf.length) (by omega)
      rw [bytes, List.length_drop] at status skips
      have same : n - min n w.rbuf.length ≤ w.bytes.length - min n w.rbuf.length ↔
          n ≤ w.bytes.length := by omega
      refine ⟨?_, fun fits => ?_⟩
      · rw [status]
        exact if_congr same rfl rfl
      · obtain ⟨d', done, delivers', bytes'⟩ := skips (same.mpr fits)
        refine ⟨d', done, delivers', ?_⟩
        rw [bytes', List.drop_drop]
        congr 1
        omega
    by_cases empty : d.rbuf = []
    · rw [if_pos empty]
      have bytes : d.bytes = d.src.rest := by rw [Stream.bytes, empty, List.nil_append]
      cases ended : d.srcEof with
      | true =>
        rw [if_pos rfl, bytes, delivers.ended ended, if_neg (by rw [List.length_nil]; omega)]
        exact ⟨rfl, fun fits => absurd fits (by rw [List.length_nil]; omega)⟩
      | false =>
        rw [if_neg Bool.false_ne_true]
        obtain ⟨filled, fill, next⟩ := delivers.fill (by rw [empty]; decide) ended
        obtain ⟨same, _, progress, _⟩ := Stream.fill_ok (by rw [empty]; decide) ended fill
        rw [fill]
        dsimp only
        rw [← same]
        by_cases dry : filled.rbuf = [] ∧ filled.srcEof
        · -- The refill found nothing: the stream is too short.
          have nothing : filled.bytes = [] := by
            rw [Stream.bytes, dry.1, next.ended dry.2, List.nil_append]
          rw [if_pos dry, nothing, if_neg (by rw [List.length_nil]; omega)]
          exact ⟨rfl, fun fits => absurd fits (by rw [List.length_nil]; omega)⟩
        · rw [if_neg dry]
          refine step filled next fun nothing => ?_
          cases flag : filled.srcEof with
          | true => exact dry ⟨nothing, flag⟩
          | false =>
            have longer := progress flag
            rw [nothing, empty] at longer
            exact absurd longer (Nat.lt_irrefl _)
    · rw [if_neg empty]
      exact step d delivers empty

/-- A skip answers as if everything were in the window, and drops the same bytes. -/
theorem Stream.Delivers.skip (delivers : d.Delivers) (n : Nat) :
    (d.skip n).1 = ((Stream.whole d.bytes).skip n).1 ∧
      (n ≤ d.bytes.length → ∃ d', d.skip n = (.ok, d') ∧ d'.Delivers ∧
        d'.bytes = d.bytes.drop n) := by
  -- The loop has the status of the whole stream.
  obtain ⟨status, skips⟩ := delivers.skipLoop (n := n) (Nat.lt_succ_self n)
  rw [Stream.skip_whole]
  refine ⟨?_, skips⟩
  rw [Stream.skip, status]
  by_cases fits : n ≤ d.bytes.length
  · rw [if_pos fits, if_pos fits]
  · rw [if_neg fits, if_neg fits]

end Delivers

end Xq
