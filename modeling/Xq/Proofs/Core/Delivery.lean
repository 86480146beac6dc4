import Xq.Proofs.Core.Sections

/-! What reads deliver of a stream: its blocks one after another, up to the first section that
fails. -/

namespace Xq

open Lib

section Blocks

variable {zstd : Option CodecVt} {d : Decoder}

/-- The blocks of a stream, one `next_block` after another, with what ends them. Each block takes
bytes off the stream, which bounds the rounds. -/
def Decoder.blocksLoop (zstd : Option CodecVt) : Nat → Decoder → Bytes × XqStatus
  | 0, _ => ([], .ok)
  | fuel + 1, d =>
    if d.sawEob then ([], .ok)
    else
      match Decoder.nextBlock zstd d with
      | (.ok, e) =>
        if e.rawPos = e.rawLen then ([], .ok)
        else
          let rest := Decoder.blocksLoop zstd fuel { e with rawPos := e.rawLen }
          (e.raw ++ rest.1, rest.2)
      | (st, _) => ([], st)

/-- The raw bytes of all blocks in front of the first section that fails to decode, and the status
it fails with; a stream without one ends with success. -/
def Decoder.blocks (zstd : Option CodecVt) (d : Decoder) : Bytes × XqStatus :=
  Decoder.blocksLoop zstd (d.remaining + 1) d

/-- Between two sections every byte of the block has been handed out; a block that follows takes
bytes off the stream. -/
theorem Decoder.nextBlock_less {e : Decoder} (done : d.rawPos = d.rawLen)
    (next : Decoder.nextBlock zstd d = (.ok, e)) (some_byte : e.rawPos ≠ e.rawLen) :
    e.Begun ∧ e.remaining < d.remaining := by
  -- At the end of the blocks nothing would be there to hand out.
  rcases (Decoder.nextBlock_ok next).outcome with ⟨_, same⟩ | ⟨begun, _, less⟩
  · rw [same.rawPos, same.rawLen] at some_byte
    exact (some_byte done).elim
  · exact ⟨begun, less⟩

/-- More rounds find no more blocks. -/
theorem Decoder.blocksLoop_rounds (zstd : Option CodecVt) (fuel extra : Nat)
    (done : d.rawPos = d.rawLen)
    (enough : d.remaining < fuel) :
    Decoder.blocksLoop zstd (fuel + extra) d = Decoder.blocksLoop zstd fuel d := by
  -- The induction is on the rounds; every block takes some bytes of what remains.
  induction fuel generalizing d with
  | zero => omega
  | succ fuel ih =>
    rw [Nat.add_right_comm, Decoder.blocksLoop, Decoder.blocksLoop]
    by_cases ended : d.sawEob
    · rw [if_pos ended, if_pos ended]
    rw [if_neg ended, if_neg ended]
    cases next : Decoder.nextBlock zstd d with
    | mk st e =>
      cases st
      case ok =>
        dsimp only
        by_cases same : e.rawPos = e.rawLen
        · rw [if_pos same, if_pos same]
        · have less := (Decoder.nextBlock_less done next same).2
          rw [if_neg same, if_neg same, ih (d := { e with rawPos := e.rawLen }) rfl
            (by show e.remaining < fuel; omega)]
      all_goals rfl

/-- The blocks of a stream are the next one and those behind it. -/
theorem Decoder.blocks_next {e : Decoder} (done : d.rawPos = d.rawLen) (going : d.sawEob = false)
    (next : Decoder.nextBlock zstd d = (.ok, e)) (some_byte : e.rawPos ≠ e.rawLen) :
    d.blocks zstd = (e.raw ++ (Decoder.blocks zstd { e with rawPos := e.rawLen }).1,
      (Decoder.blocks zstd { e with rawPos := e.rawLen }).2) := by
  -- The first round is the next block, and the others are enough for those behind it.
  have less := (Decoder.nextBlock_less done next some_byte).2
  obtain ⟨extra, enough⟩ := Nat.exists_eq_add_of_lt less
  have rounds := Decoder.blocksLoop_rounds zstd (d := { e with rawPos := e.rawLen })
    (e.remaining + 1) extra rfl (Nat.lt_succ_self _)
  rw [Decoder.blocks, Decoder.blocksLoop, going, if_neg Bool.false_ne_true, next]
  dsimp only
  have fuel : d.remaining = e.remaining + 1 + extra := by omega
  rw [if_neg some_byte, fuel, rounds]
  rfl

/-- A section that fails ends the blocks. -/
theorem Decoder.blocks_failed {e : Decoder} {st : XqStatus} (going : d.sawEob = false)
    (next : Decoder.nextBlock zstd d = (st, e)) (failed : st ≠ .ok) :
    d.blocks zstd = ([], st) := by
  -- The loop over the blocks ends with the status of the section.
  rw [Decoder.blocks, Decoder.blocksLoop, going, if_neg Bool.false_ne_true, next]
  cases st
  case ok => exact (failed rfl).elim
  all_goals rfl

end Blocks

section Reads

variable {zstd : Option CodecVt} {d : Decoder}

/-- The place in the current block is one of its places. -/
structure Decoder.InBlock (d : Decoder) : Prop where
  rawLen : d.rawLen = d.raw.length
  rawPos : d.rawPos ≤ d.rawLen

/-- What reads have yet to deliver: the rest of the current block, and the blocks behind it. -/
def Decoder.ahead (zstd : Option CodecVt) (d : Decoder) : Bytes × XqStatus :=
  let behind := Decoder.blocks zstd { d with rawPos := d.rawLen }
  (d.raw.drop d.rawPos ++ behind.1, behind.2)

/-- Bytes taken from the current block are the first of those ahead. -/
theorem Decoder.InBlock.take (zstd : Option CodecVt) (inBlock : d.InBlock) {n : Nat}
    (within : n ≤ d.rawLen - d.rawPos) :
    ({ d with rawPos := d.rawPos + n } : Decoder).InBlock ∧
      (d.raw.drop d.rawPos).take n = (d.ahead zstd).1.take n ∧
      n ≤ (d.ahead zstd).1.length ∧
      Decoder.ahead zstd { d with rawPos := d.rawPos + n } =
        ((d.ahead zstd).1.drop n, (d.ahead zstd).2) := by
  -- What is ahead begins with the rest of the current block.
  have position := inBlock.rawPos
  have length : (d.raw.drop d.rawPos).length = d.rawLen - d.rawPos := by
    rw [List.length_drop, inBlock.rawLen]
  refine ⟨⟨inBlock.rawLen, ?_⟩, ?_, ?_, ?_⟩
  · show d.rawPos + n ≤ d.rawLen
    omega
  · rw [Decoder.ahead, List.take_append_of_le_length (by omega)]
  · rw [Decoder.ahead, List.length_append]
    omega
  · rw [Decoder.ahead, Decoder.ahead, List.drop_append_of_le_length (by omega), List.drop_drop]

/-- What a read that wants `want` more bytes, with `ahead` before it, comes to. -/
structure Decoder.ReadDone (zstd : Option CodecVt) (d : Decoder) (out : Bytes) (want : Nat)
    (answer : Except XqStatus Bytes) (d' : Decoder) : Prop where
  enough : want ≤ (d.ahead zstd).1.length → answer = .ok (out ++ (d.ahead zstd).1.take want) ∧
    d'.InBlock ∧ d'.sticky = d.sticky ∧
      d'.ahead zstd = ((d.ahead zstd).1.drop want, (d.ahead zstd).2)
  ended : (d.ahead zstd).1.length < want → (d.ahead zstd).2 = .ok →
    answer = .ok (out ++ (d.ahead zstd).1) ∧ d'.InBlock ∧ d'.sticky = d.sticky ∧
      d'.ahead zstd = ([], .ok)
  failed : (d.ahead zstd).1.length < want → (d.ahead zstd).2 ≠ .ok →
    answer = .error (d.ahead zstd).2 ∧ d'.sticky = (d.ahead zstd).2

/-- A read that takes some bytes off the current block does what the rest of it does. -/
theorem Decoder.ReadDone.take (inBlock : d.InBlock) {out : Bytes} {n want : Nat}
    {answer : Except XqStatus Bytes} {d' : Decoder} (within : n ≤ d.rawLen - d.rawPos)
    (wanted : n ≤ want)
    (rest : Decoder.ReadDone zstd { d with rawPos := d.rawPos + n }
      (out ++ (d.raw.drop d.rawPos).take n) (want - n) answer d') :
    Decoder.ReadDone zstd d out want answer d' := by
  obtain ⟨_, piece, fits, ahead⟩ := inBlock.take zstd within
  obtain ⟨enough, ended, failed⟩ := rest
  rw [ahead, piece] at enough ended
  rw [ahead] at failed
  dsimp only at enough ended failed
  rw [List.length_drop] at enough ended failed
  refine ⟨fun large => ?_, fun small good => ?_, fun small bad => failed (by omega) bad⟩
  · -- The bytes taken first are the front of those wanted.
    obtain ⟨answered, inBlock', sticky, left⟩ := enough (by omega)
    refine ⟨?_, inBlock', sticky, ?_⟩
    · rw [answered, List.append_assoc, ← List.take_add, Nat.add_sub_cancel' wanted]
    · rw [left, List.drop_drop, Nat.add_sub_cancel' wanted]
  · -- They are the front of all that is left.
    obtain ⟨answered, inBlock', sticky, left⟩ := ended (by omega) good
    refine ⟨?_, inBlock', sticky, left⟩
    rw [answered, List.append_assoc, List.take_append_drop]

/-- A read from a block that has come up does what was owed in front of it. -/
theorem Decoder.ReadDone.behind {e d' : Decoder} {out : Bytes} {want : Nat}
    {answer : Except XqStatus Bytes} (done : Decoder.ReadDone zstd e out want answer d')
    (all : e.ahead zstd = d.ahead zstd) (sticky : e.sticky = d.sticky) :
    Decoder.ReadDone zstd d out want answer d' := by
  -- The statement only speaks of what is ahead and of the sticky status.
  obtain ⟨enough, ended, failed⟩ := done
  rw [all, sticky] at enough ended
  rw [all] at failed
  exact ⟨enough, ended, failed⟩

/-- A read that wants more and finds nothing ahead but a failure reports it. -/
theorem Decoder.ReadDone.fails {e : Decoder} {out : Bytes} {want : Nat} {st : XqStatus}
    (ahead : d.ahead zstd = ([], st)) (wanted : 0 < want) (bad : st ≠ .ok) :
    Decoder.ReadDone zstd d out want (.error st) { e with sticky := st } := by
  -- Of the three cases only the failure can be.
  refine ⟨fun fits => ?_, fun _ fine => ?_, fun _ _ => ?_⟩
  · rw [ahead, List.length_nil] at fits
    omega
  · rw [ahead] at fine
    exact (bad fine).elim
  · rw [ahead]
    exact ⟨rfl, rfl⟩

/-- A read that wants more at the end of the stream returns what it has. -/
theorem Decoder.ReadDone.atEnd {d' : Decoder} {out : Bytes} {want : Nat}
    (ahead : d.ahead zstd = ([], .ok)) (wanted : 0 < want) (inBlock : d'.InBlock)
    (sticky : d'.sticky = d.sticky) (left : d'.ahead zstd = ([], .ok)) :
    Decoder.ReadDone zstd d out want (.ok out) d' := by
  -- Of the three cases only the end can be.
  refine ⟨fun fits => ?_, fun _ _ => ?_, fun _ bad => ?_⟩
  · rw [ahead, List.length_nil] at fits
    omega
  · rw [ahead, List.append_nil]
    exact ⟨rfl, inBlock, sticky, left⟩
  · rw [ahead] at bad
    exact (bad rfl).elim

/-- One round of a read of `len` bytes, `out` of which are there. -/
def Decoder.readRound (zstd : Option CodecVt) (len : Nat) :
    Bytes × Decoder → Round (Bytes × Decoder) (Except XqStatus Bytes × Decoder)
  | (out, d) =>
    if out.length < len then
      if d.rawPos = d.rawLen then
        if d.sawEob then .done (.ok out, d)
        else
          match Decoder.nextBlock zstd d with
          | (.ok, d) =>
            if d.rawPos = d.rawLen then .done (.ok out, d)
            else
              let take := min (len - out.length) (d.rawLen - d.rawPos)
              .again (out ++ (d.raw.drop d.rawPos).take take, { d with rawPos := d.rawPos + take })
          | (st, d) => .done (.error st, { d with sticky := st })
      else
        let take := min (len - out.length) (d.rawLen - d.rawPos)
        .again (out ++ (d.raw.drop d.rawPos).take take, { d with rawPos := d.rawPos + take })
    else .done (.ok out, d)

theorem Decoder.readLoop_unrolls (zstd : Option CodecVt) (len : Nat) :
    Unrolls (Decoder.readRound zstd len) fun fuel s => Decoder.readLoop zstd len fuel s.1 s.2 := by
  -- The round is the loop's body, with its returns and its next state told apart.
  rintro fuel ⟨out, d⟩
  dsimp only
  rw [Decoder.readLoop, Decoder.readRound]
  by_cases more : out.length < len
  · rw [if_pos more, if_pos more]
    by_cases empty : d.rawPos = d.rawLen
    · rw [if_pos empty, if_pos empty]
      by_cases ended : d.sawEob = true
      · rw [if_pos ended, if_pos ended]
      rw [if_neg ended, if_neg ended]
      rcases Decoder.nextBlock zstd d with ⟨st, e⟩
      cases st
      case ok =>
        dsimp only
        by_cases same : e.rawPos = e.rawLen
        · rw [if_pos same, if_pos same]
        · rw [if_neg same, if_neg same]
      all_goals rfl
    · rw [if_neg empty, if_neg empty]
  · rw [if_neg more, if_neg more]

/-- The bytes a round takes from a block in which some are left. -/
theorem Decoder.InBlock.piece (inBlock : d.InBlock) {len : Nat} {out : Bytes}
    (more : out.length < len) (left : d.rawPos ≠ d.rawLen) :
    0 < min (len - out.length) (d.rawLen - d.rawPos) ∧
      ((d.raw.drop d.rawPos).take (min (len - out.length) (d.rawLen - d.rawPos))).length =
        min (len - out.length) (d.rawLen - d.rawPos) := by
  -- Some bytes are wanted and some are left.
  have position := inBlock.rawPos
  rw [List.length_take, List.length_drop, ← inBlock.rawLen]
  omega

/-- Another round of a read follows bytes taken from a block, after which the place is in the
block. -/
theorem Decoder.readRound_again (len : Nat) {s s' : Bytes × Decoder} (inBlock : s.2.InBlock)
    (round : Decoder.readRound zstd len s = .again s') :
    s'.2.InBlock ∧ len - s'.1.length < len - s.1.length := by
  obtain ⟨out, d⟩ := s
  have taking (e : Decoder) (inBlock : e.InBlock) (more : out.length < len)
      (left : e.rawPos ≠ e.rawLen) :
      ({ e with rawPos := e.rawPos + min (len - out.length) (e.rawLen - e.rawPos) } :
        Decoder).InBlock ∧
      len - (out ++ (e.raw.drop e.rawPos).take
        (min (len - out.length) (e.rawLen - e.rawPos))).length < len - out.length := by
    obtain ⟨some_byte, length⟩ := inBlock.piece more left
    refine ⟨(inBlock.take zstd (Nat.min_le_right _ _)).1, ?_⟩
    rw [List.length_append, length]
    omega
  rw [Decoder.readRound] at round
  by_cases more : out.length < len
  · rw [if_pos more] at round
    by_cases empty : d.rawPos = d.rawLen
    · rw [if_pos empty] at round
      split at round
      · cases round
      · split at round
        · rename_i e next
          by_cases same : e.rawPos = e.rawLen
          · rw [if_pos same] at round
            cases round
          · rw [if_neg same] at round
            cases round
            -- A block has come up, and it is not empty.
            have begun := (Decoder.nextBlock_less empty next same).1
            have fresh : e.InBlock := ⟨begun.rawLen, begun.rawPos.trans_le (Nat.zero_le _)⟩
            exact taking e fresh more same
        · cases round
    · -- The current block has some bytes left.
      rw [if_neg empty] at round
      cases round
      exact taking d inBlock more empty
  · rw [if_neg more] at round
    cases round

/-- A read of a decoder that has not failed ends: every round takes a byte. -/
theorem Decoder.InBlock.read_ends (zstd : Option CodecVt) (inBlock : d.InBlock)
    (good : d.sticky = .ok) (len : Nat) :
    Ends (Decoder.readRound zstd len) ([], d) (Decoder.read zstd d len) := by
  -- What is left to read falls with every round.
  rw [Decoder.read, if_neg (not_not.mpr good)]
  exact (Decoder.readLoop_unrolls zstd len).ends (I := fun s => s.2.InBlock)
    (m := fun s => len - s.1.length) (fun _ _ => Decoder.readRound_again len) (s := ([], d)) inBlock
    (Nat.lt_succ_of_le (Nat.sub_le _ _))

/-- What the loop of a read has come to at its end. -/
theorem Decoder.InBlock.readLoop (zstd : Option CodecVt) (inBlock : d.InBlock) (len fuel : Nat)
    (out : Bytes) (enough : len - out.length < fuel) :
    Decoder.ReadDone zstd d out (len - out.length) (Decoder.readLoop zstd len fuel out d).1
      (Decoder.readLoop zstd len fuel out d).2 := by
  -- The induction is on the rounds; each of them takes bytes from one block.
  induction fuel generalizing out d with
  | zero => omega
  | succ fuel ih =>
    rw [Decoder.readLoop]
    by_cases more : out.length < len
    case neg =>
      rw [if_neg more]
      refine ⟨fun _ => ?_, fun short => ?_, fun short => ?_⟩
      · rw [Nat.sub_eq_zero_of_le (Nat.not_lt.mp more), List.take_zero, List.append_nil,
          List.drop_zero]
        exact ⟨rfl, inBlock, rfl, rfl⟩
      · omega
      · omega
    case pos =>
    rw [if_pos more]
    -- A round that takes from a block in which bytes are left.
    have taking (e : Decoder) (inBlock : e.InBlock) (left : e.rawPos ≠ e.rawLen) :
        let next := Decoder.readLoop zstd len fuel
          (out ++ (e.raw.drop e.rawPos).take (min (len - out.length) (e.rawLen - e.rawPos)))
          { e with rawPos := e.rawPos + min (len - out.length) (e.rawLen - e.rawPos) }
        Decoder.ReadDone zstd e out (len - out.length) next.1 next.2 := by
      obtain ⟨some_byte, length⟩ := inBlock.piece more left
      have within : min (len - out.length) (e.rawLen - e.rawPos) ≤ e.rawLen - e.rawPos :=
        Nat.min_le_right _ _
      have wanted : min (len - out.length) (e.rawLen - e.rawPos) ≤ len - out.length :=
        Nat.min_le_left _ _
      have done := ih (inBlock.take zstd within).1
        (out ++ (e.raw.drop e.rawPos).take (min (len - out.length) (e.rawLen - e.rawPos)))
        (by rw [List.length_append, length]; omega)
      rw [List.length_append, length, Nat.sub_add_eq] at done
      exact .take inBlock within wanted done
    by_cases empty : d.rawPos = d.rawLen
    case neg =>
      rw [if_neg empty]
      exact taking d inBlock empty
    case pos =>
    rw [if_pos empty]
    -- The block is used up, so everything ahead is in the sections behind it.
    have here : ({ d with rawPos := d.rawLen } : Decoder) = d :=
      congrArg (fun n => ({ d with rawPos := n } : Decoder)) empty.symm
    have ahead : d.ahead zstd = d.blocks zstd := by
      rw [Decoder.ahead, here, empty, inBlock.rawLen, List.drop_length, List.nil_append]
    cases ended : d.sawEob with
    | true =>
      have nothing : d.blocks zstd = ([], .ok) := by
        rw [Decoder.blocks, Decoder.blocksLoop, if_pos ended]
      rw [nothing] at ahead
      rw [if_pos rfl]
      exact .atEnd ahead (by omega) inBlock rfl ahead
    | false =>
      rw [if_neg Bool.false_ne_true]
      cases next : Decoder.nextBlock zstd d with
      | mk st e =>
        by_cases good : st = .ok
        · subst good
          have outcome := Decoder.nextBlock_ok next
          dsimp only
          by_cases same : e.rawPos = e.rawLen
          · -- No block, so the end has come.
            obtain ⟨eob, before⟩ : e.sawEob = true ∧ d.SameBlock e := by
              rcases outcome.outcome with end_ | ⟨begun, _, _⟩
              · exact end_
              · have := begun.nonempty
                rw [begun.rawPos, begun.rawLen] at same
                omega
            have nothing : d.blocks zstd = ([], .ok) := by
              rw [Decoder.blocks, Decoder.blocksLoop, ended, if_neg Bool.false_ne_true, next]
              dsimp only
              rw [if_pos same]
            have inBlock' : e.InBlock := by
              refine ⟨?_, same.le⟩
              rw [before.rawLen, before.raw, inBlock.rawLen]
            have left : e.ahead zstd = ([], .ok) := by
              rw [Decoder.ahead, same, inBlock'.rawLen, List.drop_length, Decoder.blocks,
                Decoder.blocksLoop, if_pos eob]
              rfl
            rw [nothing] at ahead
            rw [if_pos same]
            exact .atEnd ahead (by omega) inBlock' outcome.sticky left
          · -- A block, from which the round takes its bytes.
            have begun := (Decoder.nextBlock_less empty next same).1
            have behind := Decoder.blocks_next empty ended next same
            have fresh : e.InBlock := ⟨begun.rawLen, begun.rawPos.trans_le (Nat.zero_le _)⟩
            have all : e.ahead zstd = d.ahead zstd := by
              rw [ahead, behind, Decoder.ahead, begun.rawPos, List.drop_zero]
            rw [if_neg same]
            exact (taking e fresh same).behind all outcome.sticky
        · -- A section that fails: the read reports it, and it sticks.
          rw [Decoder.blocks_failed ended next good] at ahead
          cases st
          case ok => exact (good rfl).elim
          all_goals exact .fails ahead (by omega) good

/-- A read of a decoder that has not failed. -/
theorem Decoder.InBlock.read (zstd : Option CodecVt) (inBlock : d.InBlock) (good : d.sticky = .ok)
    (len : Nat) :
    Decoder.ReadDone zstd d [] len (Decoder.read zstd d len).1 (Decoder.read zstd d len).2 := by
  -- The fuel is enough for a byte a round.
  rw [Decoder.read, if_neg (not_not.mpr good)]
  exact inBlock.readLoop zstd len (len + 1) [] (Nat.lt_succ_of_le (Nat.sub_le _ _))

end Reads

section Delivery

variable {zstd : Option CodecVt} {d : Decoder}

/-- Any sequence of reads, with what each returns. -/
def Decoder.reads (zstd : Option CodecVt) : List Nat → Decoder → List (Except XqStatus Bytes)
  | [], _ => []
  | len :: rest, d =>
    (Decoder.read zstd d len).1 :: Decoder.reads zstd rest (Decoder.read zstd d len).2

/-- After a read the place is still in the block, or the failure has stuck. -/
theorem Decoder.ReadDone.next {d' : Decoder} {out : Bytes} {want : Nat}
    {answer : Except XqStatus Bytes} (done : Decoder.ReadDone zstd d out want answer d') :
    d'.sticky = .ok → d'.InBlock := by
  intro still
  rcases Nat.lt_or_ge (d.ahead zstd).1.length want with short | fits
  · -- Too few bytes ahead: the stream ends, or its failure has stuck.
    by_cases fine : (d.ahead zstd).2 = .ok
    · exact (done.ended short fine).2.1
    · exact (fine ((done.failed short fine).2.symm.trans still)).elim
  · exact (done.enough fits).2.1

/-- Every read of a sequence ends, and with what it returns. -/
def Decoder.ReadsEnd (zstd : Option CodecVt) : List Nat → Decoder → Prop
  | [], _ => True
  | len :: rest, d =>
    (d.sticky = .ok → Ends (Decoder.readRound zstd len) ([], d) (Decoder.read zstd d len)) ∧
      Decoder.ReadsEnd zstd rest (Decoder.read zstd d len).2

/-- A place that is in the block for as long as nothing fails keeps every read finite. -/
theorem Decoder.readsEnd (zstd : Option CodecVt) (lens : List Nat)
    (inBlock : d.sticky = .ok → d.InBlock) : d.ReadsEnd zstd lens := by
  induction lens generalizing d with
  | nil => trivial
  | cons len rest ih =>
    refine ⟨fun good => (inBlock good).read_ends zstd good len, ih fun still => ?_⟩
    by_cases good : d.sticky = .ok
    · exact ((inBlock good).read zstd good len).next still
    · -- A decoder that has failed returns at once.
      rw [Decoder.read, if_pos good] at still ⊢
      exact inBlock still

/-- The bytes that results report as read in front of the first failure. -/
def delivered : List (Except XqStatus Bytes) → Bytes
  | [] => []
  | .ok got :: rest => got ++ delivered rest
  | .error _ :: _ => []

/-- One of the results is a failure. -/
def SomeFails (results : List (Except XqStatus Bytes)) : Prop := ∃ st, .error st ∈ results

/-- Reads fail exactly when they ask for more than the good blocks hold and the stream then fails;
and when they do, they have delivered all of the good blocks exactly when some of them end where
the good blocks end. -/
theorem Decoder.InBlock.delivery (zstd : Option CodecVt) (lens : List Nat) (inBlock : d.InBlock)
    (good : d.sticky = .ok) :
    (SomeFails (d.reads zstd lens) ↔
      (d.ahead zstd).2 ≠ .ok ∧ (d.ahead zstd).1.length < lens.sum) ∧
    (SomeFails (d.reads zstd lens) →
      (delivered (d.reads zstd lens) = (d.ahead zstd).1 ↔
        ∃ k, (lens.take k).sum = (d.ahead zstd).1.length)) := by
  -- The induction is on the reads.
  induction lens generalizing d with
  | nil =>
    have none : ¬ SomeFails (d.reads zstd []) := by
      rintro ⟨_, member⟩
      cases member
    refine ⟨iff_of_false none fun both => ?_, fun some => (none some).elim⟩
    have less := both.2
    rw [List.sum_nil] at less
    omega
  | cons len rest ih =>
    obtain ⟨enough, ended, failed⟩ := inBlock.read zstd good len
    rw [Decoder.reads]
    rcases Nat.lt_or_ge (d.ahead zstd).1.length len with short | fits
    · by_cases fine : (d.ahead zstd).2 = .ok
      · -- The stream ends well, and so does every later read.
        obtain ⟨answered, inBlock', sticky, left⟩ := ended short fine
        obtain ⟨later, _⟩ := ih inBlock' (sticky.trans good)
        rw [left] at later
        have none : ¬ SomeFails ((Decoder.read zstd d len).1 ::
            Decoder.reads zstd rest (Decoder.read zstd d len).2) := by
          rintro ⟨st, member⟩
          rcases List.mem_cons.mp member with here | there
          · rw [answered] at here
            cases here
          · exact (later.mp ⟨st, there⟩).1 rfl
        exact ⟨iff_of_false none fun both => both.1 fine, fun some => (none some).elim⟩
      · -- The read meets the failure, and drops what it has copied.
        obtain ⟨answered, _⟩ := failed short fine
        rw [answered]
        refine ⟨iff_of_true ⟨_, List.mem_cons_self⟩ ⟨fine, ?_⟩, fun _ => ?_⟩
        · rw [List.sum_cons]
          omega
        · rw [delivered]
          constructor
          · intro nothing
            refine ⟨0, ?_⟩
            rw [← nothing]
            rfl
          · rintro ⟨k, reached⟩
            cases k with
            | zero => exact (List.length_eq_zero_iff.mp reached.symm).symm
            | succ k =>
              rw [List.take_succ_cons, List.sum_cons] at reached
              omega
    · -- The read stays within the good blocks.
      obtain ⟨answered, inBlock', sticky, left⟩ := enough fits
      obtain ⟨later, all⟩ := ih inBlock' (sticky.trans good)
      rw [left, List.length_drop] at later all
      rw [answered]
      have tail : SomeFails (.ok ([] ++ (d.ahead zstd).1.take len) ::
          Decoder.reads zstd rest (Decoder.read zstd d len).2) ↔
            SomeFails (Decoder.reads zstd rest (Decoder.read zstd d len).2) := by
        constructor
        · rintro ⟨st, member⟩
          rcases List.mem_cons.mp member with here | there
          · cases here
          · exact ⟨st, there⟩
        · rintro ⟨st, member⟩
          exact ⟨st, List.mem_cons_of_mem _ member⟩
      refine ⟨tail.trans (later.trans (and_congr_right fun _ => ?_)), fun some => ?_⟩
      · rw [List.sum_cons]
        omega
      · rw [delivered, List.nil_append]
        have split_at : (d.ahead zstd).1.take len ++
            delivered (Decoder.reads zstd rest (Decoder.read zstd d len).2) =
              (d.ahead zstd).1 ↔
            delivered (Decoder.reads zstd rest (Decoder.read zstd d len).2) =
              (d.ahead zstd).1.drop len := by
          constructor
          · intro same
            exact List.append_cancel_left (same.trans (List.take_append_drop len _).symm)
          · intro same
            rw [same, List.take_append_drop]
        rw [split_at, all (tail.mp some)]
        constructor
        · rintro ⟨k, reached⟩
          refine ⟨k + 1, ?_⟩
          rw [List.take_succ_cons, List.sum_cons]
          omega
        · rintro ⟨k, reached⟩
          cases k with
          | zero =>
            refine ⟨0, ?_⟩
            rw [List.take_zero, List.sum_nil] at reached ⊢
            omega
          | succ k =>
            rw [List.take_succ_cons, List.sum_cons] at reached
            exact ⟨k, by omega⟩

/-- A new decoder has failed nowhere, and has all of its blocks ahead. -/
theorem decoderCreate_inBlock {src : Source} {memLimit : Nat}
    (created : decoderCreate zstd src memLimit = .ok d) :
    d.InBlock ∧ d.sticky = .ok ∧ ∀ zstd, d.ahead zstd = d.blocks zstd := by
  -- Its buffer is empty, so all that is ahead are the blocks.
  obtain ⟨_, _, _, _, _, rfl⟩ := decoderCreate_ok created
  exact ⟨⟨rfl, le_rfl⟩, rfl, fun _ => rfl⟩

/-- Reads of a new decoder deliver every block in front of the first section that fails exactly when
the failure is out of their reach or some of them end where those blocks end. -/
theorem reads_deliver_iff {src : Source} {memLimit : Nat} (lens : List Nat)
    (created : decoderCreate zstd src memLimit = .ok d) :
    (SomeFails (d.reads zstd lens) → delivered (d.reads zstd lens) = (d.blocks zstd).1) ↔
      ((d.blocks zstd).2 ≠ .ok → (d.blocks zstd).1.length < lens.sum →
        ∃ k, (lens.take k).sum = (d.blocks zstd).1.length) := by
  -- A failure is met exactly when more is asked for than is in front of it.
  obtain ⟨inBlock, good, here⟩ := decoderCreate_inBlock created
  obtain ⟨fails, all⟩ := inBlock.delivery zstd lens good
  rw [here zstd] at fails all
  rw [← and_imp, ← fails]
  exact imp_congr_right all

/-- A stream that is cut off behind its first block, which holds one byte. -/
def cutFile : Bytes :=
  fmtHeaderStore
    { formatMajor := 1, formatMinor := 0, headerSize := 32, flags := 0, codecId := 0, level := 6,
      checksumId := 0, blockSizeLog := 12, rawSize := 1 } ++
    fmtBlockStore
      { bflags := bflagStored, codecId := 0, storedSize := 1, rawSize := 1, rawOffset := 0 } ++
    [0x41]

/-- A read of two bytes of that stream fails and delivers nothing of the block in front of the
cut. -/
theorem cutFile_reads : ∃ d, decoderCreate none (memSrc cutFile) 0 = .ok d ∧
    SomeFails (d.reads none [2]) ∧ delivered (d.reads none [2]) = [] ∧
      d.blocks none = ([0x41], .truncated) := by
  -- The reads and the blocks are evaluated together.
  have run : (decoderCreate none (memSrc cutFile) 0).toOption.map (fun d =>
      (d.reads none [2], d.blocks none)) =
        some ([.error .truncated], ([0x41], .truncated)) := by
    decide +kernel
  cases create : decoderCreate none (memSrc cutFile) 0 with
  | error st =>
    rw [create] at run
    cases run
  | ok d =>
    rw [create] at run
    obtain ⟨reads, blocks⟩ := Prod.mk.inj (Option.some.inj run)
    refine ⟨d, rfl, ?_, ?_, blocks⟩
    · exact ⟨.truncated, reads ▸ List.mem_singleton.mpr rfl⟩
    · rw [reads]
      rfl

/-- Not every sequence of reads delivers every block in front of the first failure. -/
theorem reads_undelivered :
    ¬ ∀ (src : Source) (memLimit : Nat) (lens : List Nat) (d : Decoder),
      decoderCreate none src memLimit = .ok d → SomeFails (d.reads none lens) →
        delivered (d.reads none lens) = (d.blocks none).1 := by
  -- The block in front of the cut is one byte long, and the read asks for two.
  intro all
  obtain ⟨d, created, fails, nothing, blocks⟩ := cutFile_reads
  have same := all _ _ _ d created fails
  rw [nothing, blocks] at same
  cases same

/-- The equivalence on that stream, where a read of one byte and then another delivers the block. -/
theorem reads_deliver_iff_cut : ∃ d, decoderCreate none (memSrc cutFile) 0 = .ok d ∧
    ((SomeFails (d.reads none [1, 1]) →
        delivered (d.reads none [1, 1]) = (d.blocks none).1) ↔
      ((d.blocks none).2 ≠ .ok → (d.blocks none).1.length < [1, 1].sum →
        ∃ k, ([1, 1].take k).sum = (d.blocks none).1.length)) := by
  -- The decoder is a new one.
  obtain ⟨d, created, _⟩ := cutFile_reads
  exact ⟨d, created, reads_deliver_iff [1, 1] created⟩

end Delivery

end Xq
