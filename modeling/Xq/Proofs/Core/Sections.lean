import Xq.Proofs.Core.Streams
import Xq.Proofs.Core.Verify

/-! The sections of a stream, one after another: each of them takes bytes off it, so that the loops
of the decoder come to their ends. -/

namespace Xq

open Lib

section Progress

variable {zstd : Option CodecVt} {d e : Decoder}

theorem Decoder.remaining_eq (d : Decoder) : d.remaining = d.io.bytes.length := by
  rw [Decoder.remaining, Stream.bytes, List.length_append]

/-- What a record leaves alone: the block being handed out, and the failure mark. -/
structure Decoder.SameBlock (d e : Decoder) : Prop where
  raw : e.raw = d.raw
  rawLen : e.rawLen = d.rawLen
  rawPos : e.rawPos = d.rawPos
  sticky : e.sticky = d.sticky

theorem Decoder.SameBlock.trans {c d e : Decoder} (first : c.SameBlock d)
    (second : d.SameBlock e) : c.SameBlock e :=
  ⟨second.raw.trans first.raw, second.rawLen.trans first.rawLen, second.rawPos.trans first.rawPos,
    second.sticky.trans first.sticky⟩

/-- Loading a dictionary leaves stream and block alone. -/
theorem Decoder.loadDict_same (zstd : Option CodecVt) (d : Decoder) (info : DictInfo)
    (stored : Bytes) :
    d.SameBlock (Decoder.loadDict zstd d info stored).2 ∧
      (Decoder.loadDict zstd d info stored).2.io = d.io := by
  -- A dictionary changes the context, the digest and the log of calls only.
  unfold Decoder.loadDict
  generalize dictDecode zstd d.dctx info stored = decoded
  obtain ⟨⟨raw, dctx'⟩, call⟩ := decoded
  cases raw with
  | error st => exact ⟨⟨rfl, rfl, rfl, rfl⟩, rfl⟩
  | ok raw =>
    dsimp only
    cases dictDigest d.codec info raw with
    | error st => exact ⟨⟨rfl, rfl, rfl, rfl⟩, rfl⟩
    | ok ddict => exact ⟨⟨rfl, rfl, rfl, rfl⟩, rfl⟩

/-- A dictionary record takes bytes off the stream, and leaves the block alone. -/
theorem Decoder.readDictRecord_same (zstd : Option CodecVt) (d : Decoder) (rhdr : Bytes)
    (r : RecordHeader) :
    d.SameBlock (Decoder.readDictRecord zstd d rhdr r).2 ∧
      ((Decoder.readDictRecord zstd d rhdr r).1 = .ok →
        (Decoder.readDictRecord zstd d rhdr r).2.remaining ≤ d.remaining) := by
  unfold Decoder.readDictRecord
  split; · exact ⟨⟨rfl, rfl, rfl, rfl⟩, fun done => by cases done⟩
  split; · exact ⟨⟨rfl, rfl, rfl, rfl⟩, fun done => by cases done⟩
  split; · exact ⟨⟨rfl, rfl, rfl, rfl⟩, fun done => by cases done⟩
  split; · exact ⟨⟨rfl, rfl, rfl, rfl⟩, fun done => by cases done⟩
  split
  · rename_i payload io read
    -- The payload comes off the stream, whatever becomes of it.
    have shorter : ({ d with io := io } : Decoder).remaining ≤ d.remaining := by
      rw [Decoder.remaining_eq, Decoder.remaining_eq, Stream.readExact_ok read,
        List.length_append]
      exact Nat.le_add_left _ _
    dsimp only
    split
    · rename_i damaged
      exact ⟨⟨rfl, rfl, rfl, rfl⟩, fun done => (damaged done).elim⟩
    split
    · exact ⟨⟨rfl, rfl, rfl, rfl⟩, fun _ => shorter⟩
    split
    · exact ⟨⟨rfl, rfl, rfl, rfl⟩, fun done => by cases done⟩
    · rename_i info _ _
      obtain ⟨same, io_eq⟩ := Decoder.loadDict_same zstd { d with io := io } info
        (payload.drop dictPayloadHeader)
      refine ⟨⟨same.raw, same.rawLen, same.rawPos, same.sticky⟩, fun _ => ?_⟩
      rw [Decoder.remaining_eq, io_eq, ← Decoder.remaining_eq]
      exact shorter
  · rename_i failed _
    exact ⟨⟨rfl, rfl, rfl, rfl⟩, fun done => (failed done).elim⟩

/-- A record takes at least its header off the stream, and leaves the block alone. -/
theorem Decoder.handleRecord_same (zstd : Option CodecVt)
    (there : recordHeaderSize ≤ d.io.rbuf.length)
    (hdrbytes : Bytes) :
    d.SameBlock (Decoder.handleRecord zstd d hdrbytes).2 ∧
      ((Decoder.handleRecord zstd d hdrbytes).1 = .ok →
        (Decoder.handleRecord zstd d hdrbytes).2.remaining + recordHeaderSize ≤ d.remaining) := by
  have consumed : ({ d with io := d.io.consume recordHeaderSize } : Decoder).remaining +
      recordHeaderSize = d.remaining := by
    show (d.io.rbuf.drop recordHeaderSize).length + d.io.src.rest.length + recordHeaderSize =
      d.io.rbuf.length + d.io.src.rest.length
    rw [List.length_drop]
    omega
  unfold Decoder.handleRecord
  split
  · rename_i st refused
    refine ⟨⟨rfl, rfl, rfl, rfl⟩, fun done => ?_⟩
    -- A refusal of the record parser is an error.
    obtain rfl : st = .ok := done
    unfold fmtRecordParse at refused
    dsimp only at refused
    split at refused; · cases refused
    split at refused; · cases refused
    cases refused
  rename_i r _
  dsimp only
  split
  · -- The END_OF_BLOCKS record.
    split; · exact ⟨⟨rfl, rfl, rfl, rfl⟩, fun done => by cases done⟩
    split
    · rename_i damaged
      exact ⟨⟨rfl, rfl, rfl, rfl⟩, fun done => (damaged done).elim⟩
    · exact ⟨⟨rfl, rfl, rfl, rfl⟩, fun _ => consumed.le⟩
  split
  · -- The record of a dictionary.
    obtain ⟨same, shorter⟩ := Decoder.readDictRecord_same zstd
      { d with io := d.io.consume recordHeaderSize } hdrbytes r
    refine ⟨⟨same.raw, same.rawLen, same.rawPos, same.sticky⟩, fun done => ?_⟩
    have := shorter done
    omega
  split
  · -- A critical record of another kind is an error.
    exact ⟨⟨rfl, rfl, rfl, rfl⟩, fun done => by cases done⟩
  · -- Any other record is skipped.
    refine ⟨⟨rfl, rfl, rfl, rfl⟩, fun done => ?_⟩
    cases skipped : (d.io.consume recordHeaderSize).skip r.size.toNat with
    | mk st io =>
      rw [skipped] at done
      obtain rfl : st = .ok := done
      have shorter := Stream.skipLoop_ok skipped
      rw [Decoder.remaining_eq] at consumed ⊢
      dsimp only at consumed ⊢
      omega

/-- A block that has been read: handed out from its start, and not empty. -/
structure Decoder.Begun (e : Decoder) : Prop where
  rawPos : e.rawPos = 0
  rawLen : e.rawLen = e.raw.length
  nonempty : 0 < e.raw.length

/-- Decoding a payload leaves the stream alone, and begins a block when it succeeds. -/
theorem Decoder.decodePayload_begun (zstd : Option CodecVt) {b : BlockHeader} (nonempty : b.rawSize ≠ 0)
    (payload : Bytes) :
    (Decoder.decodePayload zstd d b payload).2.io = d.io ∧
    (Decoder.decodePayload zstd d b payload).2.sawEob = d.sawEob ∧
    (Decoder.decodePayload zstd d b payload).2.sticky = d.sticky ∧
      ((Decoder.decodePayload zstd d b payload).1 = .ok →
        (Decoder.decodePayload zstd d b payload).2.Begun) := by
  unfold Decoder.decodePayload
  generalize blockPayload zstd d.dctx d.ddict d.rawCap b payload = r
  dsimp only
  split
  · rename_i failed
    exact ⟨rfl, rfl, rfl, fun done => (failed done).elim⟩
  · rename_i finish
    refine ⟨rfl, rfl, rfl, fun _ => ⟨rfl, rfl, ?_⟩⟩
    -- The block has the length its header says, and that is not zero.
    have finish := not_not.mp finish
    rw [blockFinish] at finish
    split at finish
    · rename_i failed
      exact (failed finish).elim
    split at finish
    · cases finish
    rename_i length
    show 0 < r.written.length
    rw [not_not.mp length]
    exact Nat.pos_of_ne_zero fun zero => nonempty (UInt32.toNat_inj.mp zero)

/-- A block takes its bytes off the stream, and is begun when it can be read. -/
theorem Decoder.readBlock_begun (zstd : Option CodecVt) {b : BlockHeader} (nonempty : b.rawSize ≠ 0) :
    (Decoder.readBlock zstd d b).2.sticky = d.sticky ∧
    ((Decoder.readBlock zstd d b).1 = .ok →
      (Decoder.readBlock zstd d b).2.Begun ∧
      (Decoder.readBlock zstd d b).2.sawEob = d.sawEob ∧
      (Decoder.readBlock zstd d b).2.remaining ≤ d.remaining) := by
  unfold Decoder.readBlock
  split; · exact ⟨rfl, fun done => by cases done⟩
  split; · exact ⟨rfl, fun done => by cases done⟩
  split; · exact ⟨rfl, fun done => by cases done⟩
  split
  · rename_i payload io read
    have first := Stream.readExact_ok read
    split
    · rename_i ck io' sealed
      -- The checksum comes off the stream behind the payload, if there is one.
      have second : io'.bytes.length ≤ io.bytes.length := by
        split at sealed
        · rw [Stream.readExact_ok sealed, List.length_append]
          exact Nat.le_add_left _ _
        · obtain ⟨_, rfl⟩ := Prod.mk.inj (Prod.mk.inj sealed).2
          exact Nat.le_refl _
      dsimp only
      split
      · -- A checksum that does not hold is an error.
        exact ⟨rfl, fun done => by cases done⟩
      · obtain ⟨stream, sawEob, sticky, begun⟩ := Decoder.decodePayload_begun zstd
          (d := { d with io := io' }) nonempty payload
        refine ⟨sticky, fun done => ⟨begun done, sawEob, ?_⟩⟩
        rw [Decoder.remaining_eq, Decoder.remaining_eq, stream, first, List.length_append]
        exact Nat.le_trans second (Nat.le_add_left _ _)
    · rename_i failed _
      exact ⟨rfl, fun done => (failed done).elim⟩
  · rename_i failed _
    exact ⟨rfl, fun done => (failed done).elim⟩

/-- What a call of `next_block` that succeeds has come to: the end, with the block before it still
in place, or a block. -/
structure Decoder.NextBlock (d e : Decoder) : Prop where
  sticky : e.sticky = d.sticky
  outcome : (e.sawEob = true ∧ d.SameBlock e) ∨
    (e.Begun ∧ e.sawEob = false ∧ e.remaining < d.remaining)

/-- One round of `next_block`, with one section. -/
def Decoder.nextBlockRound (zstd : Option CodecVt) (d : Decoder) :
    Round Decoder (XqStatus × Decoder) :=
  if d.sawEob then .done (.ok, d)
  else
    match d.io.need 2 with
    | (.ok, io) =>
      let d := { d with io := io }
      if ld16le d.io.rbuf 0 ≠ blockMagic then
        match d.io.need recordHeaderSize with
        | (.ok, io) =>
          let d := { d with io := io }
          match Decoder.handleRecord zstd d (d.io.rbuf.take recordHeaderSize) with
          | (.ok, d) => .again d
          | (st, d) => .done (st, d)
        | (st, io) => .done (st, { d with io := io })
      else
        match d.io.need blockHeaderSize with
        | (.ok, io) =>
          let d := { d with io := io }
          match fmtBlockParse (d.io.rbuf.take blockHeaderSize) with
          | .error st => .done (st, d)
          | .ok b => .done (Decoder.readBlock zstd { d with io := d.io.consume blockHeaderSize } b)
        | (st, io) => .done (st, { d with io := io })
    | (st, io) => .done (st, { d with io := io })

theorem Decoder.nextBlockLoop_unrolls (zstd : Option CodecVt) :
    Unrolls (Decoder.nextBlockRound zstd) (Decoder.nextBlockLoop zstd) := by
  -- In every place a round ends the loop, or leaves a decoder for the next one.
  intro fuel d
  rw [Decoder.nextBlockLoop, Decoder.nextBlockRound]
  by_cases ended : d.sawEob = true
  · rw [if_pos ended, if_pos ended]
  rw [if_neg ended, if_neg ended]
  rcases d.io.need 2 with ⟨st, io₂⟩
  cases st
  case ok =>
    dsimp only
    by_cases record : ld16le io₂.rbuf 0 ≠ blockMagic
    · rw [if_pos record, if_pos record]
      rcases io₂.need recordHeaderSize with ⟨st, io'⟩
      cases st
      case ok =>
        dsimp only
        rcases Decoder.handleRecord zstd { d with io := io' }
          (io'.rbuf.take recordHeaderSize) with ⟨st, e⟩
        cases st
        all_goals rfl
      all_goals rfl
    · rw [if_neg record, if_neg record]
      rcases io₂.need blockHeaderSize with ⟨st, io'⟩
      cases st
      case ok =>
        dsimp only
        cases fmtBlockParse (io'.rbuf.take blockHeaderSize)
        all_goals rfl
      all_goals rfl
  all_goals rfl

/-- What one section comes to: a record, which is off the stream and leaves the block, or the end,
a block or a failure. -/
def Decoder.RoundDone (d : Decoder) : Round Decoder (XqStatus × Decoder) → Prop
  | .again e => d.SameBlock e ∧ e.remaining < d.remaining
  | .done r => r.1 = .ok → d.NextBlock r.2

/-- A record that is handled leaves the block, and is off the stream. -/
theorem Decoder.handleRecord_less (zstd : Option CodecVt) {io : Stream}
    (there : recordHeaderSize ≤ io.rbuf.length) (same : io.bytes = d.io.bytes)
    (done : Decoder.handleRecord zstd { d with io := io } (io.rbuf.take recordHeaderSize) =
      (.ok, e)) : d.SameBlock e ∧ e.remaining < d.remaining := by
  have handled := Decoder.handleRecord_same zstd (d := { d with io := io }) there
    (io.rbuf.take recordHeaderSize)
  rw [done] at handled
  obtain ⟨kept, shorter⟩ := handled
  have shorter := shorter rfl
  -- Filling the window has taken nothing off the stream.
  have left : ({ d with io := io } : Decoder).remaining = d.remaining := by
    rw [Decoder.remaining_eq, Decoder.remaining_eq, same]
  rw [left] at shorter
  have size : recordHeaderSize = 14 := rfl
  refine ⟨⟨kept.raw, kept.rawLen, kept.rawPos, kept.sticky⟩, ?_⟩
  dsimp only at shorter
  omega

/-- A block whose header is in the window and parses is begun, and off the stream. -/
theorem Decoder.readBlock_next (zstd : Option CodecVt) (going : d.sawEob = false) {io : Stream}
    (there : blockHeaderSize ≤ io.rbuf.length) (same : io.bytes = d.io.bytes) {b : BlockHeader}
    (parsed : fmtBlockParse (io.rbuf.take blockHeaderSize) = .ok b)
    (done : (Decoder.readBlock zstd { d with io := io.consume blockHeaderSize } b).1 = .ok) :
    d.NextBlock (Decoder.readBlock zstd { d with io := io.consume blockHeaderSize } b).2 := by
  obtain ⟨_, _, _, valid, rfl⟩ := fmtBlockParse_ok_iff.mp parsed
  obtain ⟨sticky, begun⟩ := Decoder.readBlock_begun zstd
    (d := { d with io := io.consume blockHeaderSize }) valid.nonempty
  obtain ⟨begun, sawEob, less⟩ := begun done
  refine ⟨sticky, .inr ⟨begun, sawEob.trans going, ?_⟩⟩
  -- The header at least has been taken off the stream.
  have consumed : ({ d with io := io.consume blockHeaderSize } : Decoder).remaining +
      blockHeaderSize = d.remaining := by
    rw [Decoder.remaining_eq d, ← same]
    show (io.rbuf.drop blockHeaderSize).length + io.src.rest.length + blockHeaderSize =
      (io.rbuf ++ io.src.rest).length
    rw [List.length_drop, List.length_append]
    omega
  have size : blockHeaderSize = 24 := rfl
  omega

theorem Decoder.nextBlockRound_done (zstd : Option CodecVt) (d : Decoder) :
    d.RoundDone (Decoder.nextBlockRound zstd d) := by
  rw [Decoder.nextBlockRound]
  by_cases ended : d.sawEob
  · -- The end has been read before.
    rw [if_pos ended]
    exact fun _ => ⟨rfl, .inl ⟨ended, rfl, rfl, rfl, rfl⟩⟩
  rw [if_neg ended]
  cases peek : d.io.need 2 with
  | mk st io₂ =>
    cases st
    case ok =>
      have bytes₂ := (Stream.need_ok peek).2
      dsimp only
      by_cases record : ld16le io₂.rbuf 0 ≠ blockMagic
      · -- A record: the round goes on behind it, or ends with its error.
        rw [if_pos record]
        cases got : io₂.need recordHeaderSize with
        | mk st io' =>
          cases st
          case ok =>
            obtain ⟨there, bytes'⟩ := Stream.need_ok got
            dsimp only
            rcases handled : Decoder.handleRecord zstd { d with io := io' }
              (io'.rbuf.take recordHeaderSize) with ⟨st, e⟩
            cases st
            case ok => exact Decoder.handleRecord_less zstd there (bytes'.trans bytes₂) handled
            all_goals exact fun done => by cases done
          all_goals exact fun done => by cases done
      · -- A block: the round ends with it, or with its error.
        rw [if_neg record]
        cases got : io₂.need blockHeaderSize with
        | mk st io' =>
          cases st
          case ok =>
            obtain ⟨there, bytes'⟩ := Stream.need_ok got
            dsimp only
            cases parsed : fmtBlockParse (io'.rbuf.take blockHeaderSize) with
            | error st =>
              intro done
              obtain rfl : st = .ok := done
              exact (fmtBlockParse_ne_ok _ parsed).elim
            | ok b =>
              exact Decoder.readBlock_next zstd (Bool.eq_false_iff.mpr ended) there
                (bytes'.trans bytes₂) parsed
          all_goals exact fun done => by cases done
    -- Not even two bytes came.
    all_goals exact fun done => by cases done

/-- `next_block` ends: every record takes bytes off the stream. -/
theorem Decoder.nextBlock_ends (zstd : Option CodecVt) (d : Decoder) :
    Ends (Decoder.nextBlockRound zstd) d (Decoder.nextBlock zstd d) := by
  -- What remains of the stream falls with every round that goes on.
  refine (Decoder.nextBlockLoop_unrolls zstd).ends (I := fun _ => True) (m := Decoder.remaining)
    (fun d e _ round => ⟨trivial, ?_⟩) trivial (Nat.lt_succ_self _)
  have done := Decoder.nextBlockRound_done zstd d
  rw [round] at done
  exact done.2

/-- A call of `next_block` that succeeds has come to the end or to a block. -/
theorem Decoder.nextBlock_ok (done : Decoder.nextBlock zstd d = (.ok, e)) : d.NextBlock e := by
  have ends := Decoder.nextBlock_ends zstd d
  rw [done] at ends
  refine ends.result (I := fun w => d.SameBlock w ∧ w.remaining ≤ d.remaining)
    (Q := fun r => r.1 = .ok → d.NextBlock r.2) (fun w w' kept round => ?_)
    (fun w r kept round good => ?_) ⟨⟨rfl, rfl, rfl, rfl⟩, le_rfl⟩ rfl
  · -- A round that goes on has read a record.
    have section_ := Decoder.nextBlockRound_done zstd w
    rw [round] at section_
    exact ⟨kept.1.trans section_.1, by have := section_.2; omega⟩
  · -- The last round has found the end or a block.
    have section_ := Decoder.nextBlockRound_done zstd w
    rw [round] at section_
    have next := section_ good
    refine ⟨next.sticky.trans kept.1.sticky, ?_⟩
    rcases next.outcome with ⟨eob, after⟩ | ⟨begun, going, less⟩
    · exact .inl ⟨eob, kept.1.trans after⟩
    · exact .inr ⟨begun, going, Nat.lt_of_lt_of_le less kept.2⟩

end Progress

end Xq
