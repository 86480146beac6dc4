import Xq.Lib.Loop
import Xq.Proofs.Core.Repairing

/-! The scan of repair, window by window, against one scan over the whole file. -/

namespace Xq

open Lib

section Scans

variable (zstd : Option CodecVt)

/-- What the scan finds at an offset: no header, a header whose block does not decode, or a block. -/
inductive Verdict
  | nonHeader
  | damaged
  | decoded
  deriving DecidableEq, Repr

/-- The offsets tested, in order, each with its verdict. -/
abbrev Tests := List (Nat × Verdict)

/-- The verdict on a header, in the context the scan has come to. -/
def Scan.verdict (s : Scan) (boff : Nat) (b : BlockHeader) : Verdict :=
  if (RepairCtx.decodeAt zstd s.ctx boff b).1 = .ok then .decoded else .damaged

/-- Where the two loops of `xq_repair_file` stand: at the test of the outer one, at the test of the
inner one, or behind the inner one. -/
inductive ScanPoint
  | window (pos : Nat)
  | test (pos : Nat) (win : Bytes) (i : Nat)
  | step (pos : Nat) (win : Bytes) (i : Nat)

/-- A round of the two loops, with the flag and the state of the scan and the tests made. -/
def scanRound (window : Nat) (o : RepairOpts) (file : Bytes) :
    ScanPoint × Bool × Scan × Tests →
      Round (ScanPoint × Bool × Scan × Tests) (Bool × Scan × Tests)
  | (.window pos, good, s, tests) =>
    if pos + blockHeaderSize ≤ file.length then
      -- The window is cut short at the end of the file.
      let want := if pos + window > file.length then file.length - pos else window
      let win := (filePread file want pos).2
      if win.length < blockHeaderSize then .done (good, s, tests)
      else .again (.test pos win 0, good, s, tests)
    else .done (good, s, tests)
  | (.test pos win i, good, s, tests) =>
    if i + blockHeaderSize ≤ win.length then
      match scanCandidate win i with
      | none => .again (.test pos win (i + 1), good, s, tests ++ [(pos + i, .nonHeader)])
      | some b =>
        let tests := tests ++ [(pos + i, s.verdict zstd (pos + i) b)]
        match Scan.block zstd o s (pos + i) b with
        | (true, adv, s) => .again (.test pos win (i + adv), good, s, tests)
        | (false, _, s) => .again (.step pos win i, false, s, tests)
    else .again (.step pos win i, good, s, tests)
  | (.step pos win i, good, s, tests) =>
    let keep := blockHeaderSize - 1
    -- A block that reaches past the window takes the scan with it.
    let step := if i > win.length - keep then i else win.length - keep
    let step := if step = 0 then 1 else step
    let pos := pos + step
    if win.length < window ∧ pos + blockHeaderSize > file.length then .done (good, s, tests)
    else .again (.window pos, good, s, tests)

/-- A round of one scan over the whole file: by one byte on a non-header, by the size of a header
whose block fails to decode, and by the extent of a decoded block. -/
def wholeRound (o : RepairOpts) (file : Bytes) :
    Nat × Scan × Tests → Round (Nat × Scan × Tests) (Scan × Tests)
  | (off, s, tests) =>
    if off + blockHeaderSize ≤ file.length then
      match scanCandidate file off with
      | none => .again (off + 1, s, tests ++ [(off, .nonHeader)])
      | some b =>
        let extent := blockHeaderSize + b.storedSize.toNat + s.ctx.checksumLen
        match s.verdict zstd off b with
        | .decoded =>
          .again (off + extent, (Scan.block zstd o s off b).2.2, tests ++ [(off, .decoded)])
        | verdict =>
          .again (off + blockHeaderSize, (Scan.block zstd o s off b).2.2, tests ++ [(off, verdict)])
    else .done (s, tests)

end Scans

/-- Reads inside the file are exact. -/
def ReadsExact (file : Bytes) : Prop :=
  ∀ len off, off + len ≤ file.length → filePread file len off = (.ok, (file.drop off).take len)

/-- No write to the output fails. -/
def WritesSucceed (out : Option OutFile) : Prop := ∀ f ∈ out, ∀ call, f.fails call = none

section Candidates

/-- A window has the file's bytes. -/
theorem ld8_window {file : Bytes} {pos n i : Nat} (inside : i < n) :
    ld8 ((file.drop pos).take n) i = ld8 file (pos + i) := by
  -- Where the file ends early, so does its window.
  simp only [ld8, List.getD_eq_getElem?_getD, List.getElem?_take, List.getElem?_drop]
  rw [if_pos inside]

/-- A candidate that a window has room for is the file's. -/
theorem scanCandidate_window {file : Bytes} {pos n i : Nat} (inside : i + blockHeaderSize ≤ n) :
    scanCandidate ((file.drop pos).take n) i = scanCandidate file (pos + i) := by
  have size : blockHeaderSize = 24 := rfl
  -- The magic is two of the window's bytes, and the header the first 24 of them.
  have magic : ld16le ((file.drop pos).take n) i = ld16le file (pos + i) := by
    rw [ld16le, ld16le, ld8_window (by omega), ld8_window (by omega), Nat.add_assoc]
  have header : (((file.drop pos).take n).drop i).take blockHeaderSize =
      (file.drop (pos + i)).take blockHeaderSize := by
    rw [List.drop_take, List.drop_drop, List.take_take, Nat.min_eq_left (by omega)]
  rw [scanCandidate, scanCandidate, magic, header]

theorem scanCandidate_drop {file : Bytes} {pos i : Nat} :
    scanCandidate (file.drop pos) i = scanCandidate file (pos + i) := by
  -- A window that has room for everything is all that is left of the file.
  have window := @scanCandidate_window file pos ((file.drop pos).length + (i + blockHeaderSize)) i
    (Nat.le_add_left _ _)
  rwa [List.take_of_length_le (Nat.le_add_right _ _)] at window

end Candidates

section Blocks

variable (zstd : Option CodecVt) (o : RepairOpts)

theorem OutFile.write_fails (f : OutFile) (buf : Bytes) : (f.write buf).2.fails = f.fails := by
  -- A write is counted whether it fails or not.
  rw [OutFile.write]
  split
  · rfl
  · rfl

theorem fillGap_fails (fillByte : UInt8) (fuel remain : Nat) (f : OutFile) :
    (fillGap fillByte fuel remain f).fails = f.fails := by
  -- The loop's fuel bounds the chunks, and each chunk is one write.
  induction fuel generalizing remain f with
  | zero => rfl
  | succ fuel ih =>
    rw [fillGap]
    split; · rfl
    dsimp only
    -- What one chunk leaves of the answers is what the write leaves.
    have kept := f.write_fails
      (List.replicate (if remain < fillChunk then remain else fillChunk) fillByte)
    split
    · rename_i wrote
      rw [wrote] at kept
      rw [ih, kept]
    · rename_i wrote
      rw [wrote] at kept
      exact kept

/-- Filling a gap does not make writes fail. -/
theorem Scan.gap_writes {s : Scan} (writes : WritesSucceed s.out) (b : BlockHeader) :
    WritesSucceed (s.gap o b).out := by
  -- Only a filled gap touches the output, and it writes to the file that is there.
  rw [Scan.gap]
  split; swap
  · exact writes
  dsimp only
  split; swap
  · exact writes
  rintro f member call
  obtain ⟨g, there, rfl⟩ := Option.mem_map.mp member
  rw [fillGap_fails]
  exact writes g there call

/-- A block is put in its place when no write fails. -/
theorem Scan.place_writes {s : Scan} (writes : WritesSucceed s.out) (b : BlockHeader) :
    (s.place b).1 = true ∧ WritesSucceed (s.place b).2.out ∧ (s.place b).2.ctx = s.ctx := by
  rw [Scan.place]
  -- A block behind the expected offset is not placed at all.
  split; swap
  · exact ⟨rfl, writes, rfl⟩
  cases out : s.out with
  | none =>
    dsimp only
    rw [if_neg (by simp)]
    exact ⟨rfl, fun f wrong => (by cases wrong), rfl⟩
  | some f =>
    have fine : (f.write s.ctx.raw).1 = .ok := by
      rw [OutFile.write, writes f out f.calls]
    dsimp only
    rw [if_neg (not_not.mpr fine)]
    refine ⟨rfl, fun g here call => ?_, rfl⟩
    obtain rfl := Option.some.inj here
    rw [OutFile.write_fails]
    exact writes f out call

/-- With no write failing, a header takes the scan on: by the block's extent when it decodes, and
by its own size when not. -/
theorem Scan.block_advance {s : Scan} (writes : WritesSucceed s.out) (boff : Nat)
    (b : BlockHeader) :
    (Scan.block zstd o s boff b).1 = true ∧ WritesSucceed (Scan.block zstd o s boff b).2.2.out ∧
      (Scan.block zstd o s boff b).2.1 =
        if s.verdict zstd boff b = .decoded then
          blockHeaderSize + b.storedSize.toNat + s.ctx.checksumLen
        else blockHeaderSize := by
  -- Decoding does not change how long a checksum is.
  have same : (RepairCtx.decodeAt zstd s.ctx boff b).2.checksumLen = s.ctx.checksumLen := rfl
  rw [Scan.verdict, Scan.block]
  generalize RepairCtx.decodeAt zstd s.ctx boff b = answer at same ⊢
  obtain ⟨ds, ctx⟩ := answer
  dsimp only at same ⊢
  -- A decoded block is counted, its gap filled and its bytes placed; none of these can fail.
  by_cases fine : ds = .ok
  · rw [if_neg (not_not.mpr fine), if_pos fine, if_pos rfl]
    generalize placing : ({ s with
      ctx := ctx
      rep := { s.rep with blocksFound := s.rep.blocksFound + 1 } } : Scan) = s'
    have context : s'.ctx = ctx := by rw [← placing]
    have writes' : WritesSucceed s'.out := by
      rw [← placing]
      exact writes
    obtain ⟨placed, kept, unchanged⟩ := Scan.place_writes (Scan.gap_writes o writes' b) b
    have gap : (s'.gap o b).ctx = s'.ctx := by
      rw [Scan.gap]
      split
      · rfl
      · rfl
    generalize Scan.place (s'.gap o b) b = answer at placed kept unchanged
    obtain ⟨good, s''⟩ := answer
    dsimp only at placed kept unchanged
    subst placed
    dsimp only
    rw [unchanged, gap, context, same]
    exact ⟨rfl, kept, rfl⟩
  · -- A block that does not decode is counted and stepped over.
    rw [if_pos fine, if_neg fine, if_neg (by decide)]
    exact ⟨rfl, writes, rfl⟩

/-- The scan over the whole file goes on in the same way. -/
theorem wholeRound_header {file : Bytes} {s : Scan} {off : Nat} {b : BlockHeader}
    (inside : off + blockHeaderSize ≤ file.length) (found : scanCandidate file off = some b)
    (writes : WritesSucceed s.out) (tests : Tests) :
    wholeRound zstd o file (off, s, tests) =
      .again (off + (Scan.block zstd o s off b).2.1, (Scan.block zstd o s off b).2.2,
        tests ++ [(off, s.verdict zstd off b)]) := by
  -- The advance of a header is the whole scan's own.
  have advance := (Scan.block_advance zstd o writes off b).2.2
  rw [wholeRound, if_pos inside, found, advance]
  dsimp only
  rcases verdict : s.verdict zstd off b
  · rfl
  · rfl
  · rfl

end Blocks

section Windows

variable (zstd : Option CodecVt) {window : Nat} (o : RepairOpts) {file : Bytes}

/-- The inner loop over a window tests what the scan over the whole file tests, and leaves the
window where its last headers would not be whole. -/
theorem scanWindowLoop_tests {pos n : Nat} (fuel i : Nat) {s : Scan}
    (enough : ((file.drop pos).take n).length < i + fuel) (writes : WritesSucceed s.out) :
    ∃ i' s' more, scanWindowLoop zstd o ((file.drop pos).take n) pos fuel i s = (true, i', s') ∧
      WritesSucceed s'.out ∧ i ≤ i' ∧ ((file.drop pos).take n).length < i' + blockHeaderSize ∧
      ∀ good tests,
        (∀ r, Ends (scanRound zstd window o file)
            (.step pos ((file.drop pos).take n) i', good, s', tests ++ more) r →
          Ends (scanRound zstd window o file)
            (.test pos ((file.drop pos).take n) i, good, s, tests) r) ∧
        ∀ r, Ends (wholeRound zstd o file) (pos + i', s', tests ++ more) r →
          Ends (wholeRound zstd o file) (pos + i, s, tests) r := by
  -- Induction on the rounds; the tests made so far are carried along by both loops.
  have size : blockHeaderSize = 24 := rfl
  induction fuel generalizing i s with
  | zero =>
    refine ⟨i, s, [], rfl, writes, Nat.le_refl i, by omega, fun good tests => ⟨fun r ends => ?_,
      fun r ends => ?_⟩⟩
    · rw [List.append_nil] at ends
      refine .again ?_ ends
      rw [scanRound, if_neg (by omega)]
    · rwa [List.append_nil] at ends
  | succ fuel ih =>
    by_cases inside : i + blockHeaderSize ≤ ((file.drop pos).take n).length; swap
    · -- The window has no whole header left.
      refine ⟨i, s, [], ?_, writes, Nat.le_refl i, by omega, fun good tests => ⟨fun r ends => ?_,
        fun r ends => ?_⟩⟩
      · rw [scanWindowLoop, if_neg inside]
      · rw [List.append_nil] at ends
        refine .again ?_ ends
        rw [scanRound, if_neg inside]
      · rwa [List.append_nil] at ends
    have candidate := @scanCandidate_window file pos n i (inside.trans (List.length_take_le _ _))
    have whole : pos + i + blockHeaderSize ≤ file.length := by
      rw [List.length_take, List.length_drop] at inside
      omega
    cases found : scanCandidate file (pos + i) with
    -- No header here: both loops go on by one byte.
    | none =>
      obtain ⟨i', s', more, loop, kept, forward, leaves, runs⟩ := ih (i + 1) (by omega) writes
      refine ⟨i', s', (pos + i, .nonHeader) :: more, ?_, kept, by omega, leaves,
        fun good tests => ⟨fun r ends => ?_, fun r ends => ?_⟩⟩
      · rw [scanWindowLoop, if_pos inside, candidate, found]
        exact loop
      · have round : scanRound zstd window o file
            (.test pos ((file.drop pos).take n) i, good, s, tests) =
              .again (.test pos ((file.drop pos).take n) (i + 1), good, s,
                tests ++ [(pos + i, .nonHeader)]) := by
          rw [scanRound, if_pos inside, candidate, found]
        refine .again round ((runs good _).1 r ?_)
        rwa [List.append_assoc]
      · have round : wholeRound zstd o file (pos + i, s, tests) =
            .again (pos + i + 1, s, tests ++ [(pos + i, .nonHeader)]) := by
          rw [wholeRound, if_pos whole, found]
        refine .again round ((runs good _).2 r ?_)
        rwa [List.append_assoc]
    | some b =>
      -- A header: both make the same step, and record the same verdict.
      obtain ⟨accepted, writes', advance⟩ :=
        Scan.block_advance zstd o writes (pos + i) b
      have header := wholeRound_header zstd o whole found writes
      -- Every header takes the scan on, so the fuel lasts.
      have progress : 0 < (Scan.block zstd o s (pos + i) b).2.1 := by
        rw [advance]
        split <;> omega
      rcases block : Scan.block zstd o s (pos + i) b with ⟨good, adv, next⟩
      rw [block] at accepted writes' header progress
      dsimp only at accepted writes' header progress
      subst accepted
      obtain ⟨i', s', more, loop, kept, forward, leaves, runs⟩ :=
        ih (i + adv) (by omega) writes'
      refine ⟨i', s', (pos + i, s.verdict zstd (pos + i) b) :: more, ?_, kept, by omega, leaves,
        fun good tests => ⟨fun r ends => ?_, fun r ends => ?_⟩⟩
      · rw [scanWindowLoop, if_pos inside, candidate, found]
        dsimp only
        rw [block]
        exact loop
      · have round : scanRound zstd window o file
            (.test pos ((file.drop pos).take n) i, good, s, tests) =
              .again (.test pos ((file.drop pos).take n) (i + adv), good, next,
                tests ++ [(pos + i, s.verdict zstd (pos + i) b)]) := by
          rw [scanRound, if_pos inside, candidate, found]
          dsimp only
          rw [block]
        refine .again round ((runs good _).1 r ?_)
        rwa [List.append_assoc]
      · refine .again (header tests) ?_
        rw [Nat.add_assoc]
        refine (runs good _).2 r ?_
        rwa [List.append_assoc]

/-- The inner loop leaves a window behind its last whole header, and the scan goes on there. -/
theorem scan_step {got i : Nat} (full : blockHeaderSize ≤ got) (leaves : got < i + blockHeaderSize) :
    (if (if i > got - (blockHeaderSize - 1) then i else got - (blockHeaderSize - 1)) = 0 then 1
      else if i > got - (blockHeaderSize - 1) then i else got - (blockHeaderSize - 1)) = i := by
  have size : blockHeaderSize = 24 := rfl
  -- At most 23 bytes are left behind the last whole header, which is the overlap kept.
  have reached : (if i > got - (blockHeaderSize - 1) then i else got - (blockHeaderSize - 1)) =
      i := by
    split <;> omega
  rw [reached, if_neg (by omega)]

/-- The windows of the outer loop, one after another, test what the scan over the whole file
tests. -/
theorem scanLoopBy_tests (exact : ReadsExact file) (room : blockHeaderSize ≤ window)
    (fuel pos : Nat) (good : Bool) {s : Scan} (enough : file.length < pos + fuel)
    (writes : WritesSucceed s.out) :
    ∃ s' more, scanLoopBy zstd window o file fuel pos good s = (good, s') ∧ ∀ tests,
      Ends (scanRound zstd window o file) (.window pos, good, s, tests)
        (good, s', tests ++ more) ∧
      Ends (wholeRound zstd o file) (pos, s, tests) (s', tests ++ more) := by
  have size : blockHeaderSize = 24 := rfl
  -- Induction on the windows; each one begins where the inner loop left the last.
  induction fuel generalizing pos s with
  | zero =>
    refine ⟨s, [], rfl, fun tests => ⟨.done ?_, .done ?_⟩⟩
    · rw [scanRound, if_neg (by omega), List.append_nil]
    · rw [wholeRound, if_neg (by omega), List.append_nil]
  | succ fuel ih =>
    by_cases inside : pos + blockHeaderSize ≤ file.length; swap
    · -- No header fits any more, in the window or in the file.
      refine ⟨s, [], ?_, fun tests => ⟨.done ?_, .done ?_⟩⟩
      · rw [scanLoopBy, if_neg inside]
      · rw [scanRound, if_neg inside, List.append_nil]
      · rw [wholeRound, if_neg inside, List.append_nil]
    rw [scanLoopBy, if_pos inside]
    have opening (tests : Tests) (win : Bytes)
        (read : (filePread file
          (if pos + window > file.length then file.length - pos else window) pos).2 = win)
        (full : ¬ win.length < blockHeaderSize) :
        scanRound zstd window o file (.window pos, good, s, tests) =
          .again (.test pos win 0, good, s, tests) := by
      rw [scanRound, if_pos inside]
      dsimp only
      rw [read, if_neg full]
    dsimp only
    generalize wanted : (if pos + window > file.length then file.length - pos else window) = want
      at opening ⊢
    -- The window asked for lies inside the file, so the read is exact and full.
    have within : pos + want ≤ file.length := by
      rw [← wanted]
      split <;> omega
    have read : (filePread file want pos).2 = (file.drop pos).take want := by
      rw [exact want pos within]
    have length : ((file.drop pos).take want).length = want := by
      rw [List.length_take, List.length_drop]
      omega
    have full : ¬ ((file.drop pos).take want).length < blockHeaderSize := by
      rw [length, ← wanted]
      split <;> omega
    rw [read, if_neg full]
    obtain ⟨i, s', more, loop, kept, _, leaves, runs⟩ :=
      @scanWindowLoop_tests zstd window o file pos want
        (((file.drop pos).take want).length + 1) 0 s (by omega) writes
    rw [loop]
    dsimp only
    rw [Bool.and_true]
    -- The position behind the inner loop is the next window's.
    have step := scan_step (Nat.not_lt.mp full) leaves
    rw [step]
    have stepping (tests : Tests) :
        scanRound zstd window o file (.step pos ((file.drop pos).take want) i, good, s', tests) =
          if ((file.drop pos).take want).length < window ∧
            pos + i + blockHeaderSize > file.length then .done (good, s', tests)
          else .again (.window (pos + i), good, s', tests) := by
      rw [scanRound, step]
    by_cases last : ((file.drop pos).take want).length < window ∧
        pos + i + blockHeaderSize > file.length
    · -- The last window has been reached: nothing behind it holds a whole header.
      rw [if_pos last]
      refine ⟨s', more, rfl, fun tests => ⟨.again (opening tests _ read full)
        ((runs good tests).1 _ (.done ?_)), ?_⟩⟩
      · rw [stepping, if_pos last]
      · refine (runs good tests).2 _ (.done ?_)
        rw [wholeRound, if_neg (by omega)]
    · rw [if_neg last]
      -- More windows follow, and the tests of the rest come behind this one's.
      obtain ⟨final, others, rest, ends⟩ := ih (pos + i) (by omega) kept
      refine ⟨final, more ++ others, rest, fun tests => ⟨.again (opening tests _ read full)
        ((runs good tests).1 _ ?_), (runs good tests).2 _ ?_⟩⟩
      · have round := stepping (tests ++ more)
        rw [if_neg last] at round
        rw [← List.append_assoc]
        exact .again round (ends (tests ++ more)).1
      · rw [← List.append_assoc]
        exact (ends (tests ++ more)).2

end Windows

section Files

variable {zstd : Option CodecVt} {file : Bytes} {out : Option OutFile} {s : Scan}

/-- Where the scan of `xq_repair_file` starts from: behind a valid header, with the dictionary
loaded when there is one. -/
def repairStart (zstd : Option CodecVt) (file : Bytes) (out : Option OutFile) :
    Except XqStatus Scan :=
  match repairReadHeader zstd file with
  | .error st => .error st
  | .ok c =>
    let (ds, c) := RepairCtx.loadDict zstd c c.hdr.headerSize.toNat file.length
    let rep := { repairReportBlank with
      dictOk := if c.hdr.flags &&& flagDictPresent ≠ 0 then ds = .ok else true }
    .ok { ctx := c, rep := rep, out := out, expectRaw := 0 }

/-- A repair is its scan, from where that starts. -/
theorem repairFile_scan (start : repairStart zstd file out = .ok s) (opts : Option RepairOpts)
    {good : Bool} {s' : Scan}
    (scanned : scanLoop zstd (opts.getD { fillGaps := false, fillByte := 0 }) file
      (file.length + 1) s.ctx.hdr.headerSize.toNat true s = (good, s')) :
    repairFile zstd file out opts =
      (if ¬ good then .io else if s'.rep.blocksBad ≠ 0 then .corruptBlock else .ok,
        { s'.rep with rawSizeExpected :=
            if s.ctx.hdr.rawSize = sizeUnknown then 0 else s.ctx.hdr.rawSize.toNat },
        s'.out) := by
  -- The header and the dictionary are the start; everything behind them is the scan.
  rw [repairStart] at start
  rw [repairFile]
  cases header : repairReadHeader zstd file with
  | error st =>
    rw [header] at start
    cases start
  | ok c =>
    rw [header] at start
    dsimp only at start ⊢
    obtain rfl := Except.ok.inj start
    dsimp only at scanned ⊢
    rw [scanned]

theorem repairStart_out (start : repairStart zstd file out = .ok s) : s.out = out := by
  -- The output is handed over as it is.
  rw [repairStart] at start
  split at start
  · cases start
  · cases start
    rfl

/--
The windowed scan of repair is one scan over the whole file.

With exact reads and no write failing, both end; they test the same offsets in the same order,
with the same verdicts, and come to the same report and output, which are those of the repair.
-/
theorem repair_scan_whole (start : repairStart zstd file out = .ok s) (exact : ReadsExact file)
    (writes : WritesSucceed out) (opts : Option RepairOpts) :
    let o := opts.getD { fillGaps := false, fillByte := 0 }
    let first := s.ctx.hdr.headerSize.toNat
    ∃ s' tests,
      Ends (scanRound zstd scanWindow o file) (.window first, true, s, []) (true, s', tests) ∧
      Ends (wholeRound zstd o file) (first, s, []) (s', tests) ∧
      scanLoop zstd o file (file.length + 1) first true s = (true, s') ∧
      repairFile zstd file out opts =
        (if s'.rep.blocksBad ≠ 0 then .corruptBlock else .ok,
          { s'.rep with rawSizeExpected :=
              if s.ctx.hdr.rawSize = sizeUnknown then 0 else s.ctx.hdr.rawSize.toNat },
          s'.out) := by
  -- The windows overlap by a header, so the scan over them tests every offset once.
  dsimp only
  have room : blockHeaderSize ≤ scanWindow := by decide +kernel
  have writes' : WritesSucceed s.out := by
    rw [repairStart_out start]
    exact writes
  obtain ⟨s', tests, scanned, ends⟩ := scanLoopBy_tests zstd
    (opts.getD { fillGaps := false, fillByte := 0 }) exact room (file.length + 1)
    s.ctx.hdr.headerSize.toNat true (by omega) writes'
  rw [← scanLoop_eq] at scanned
  have result := repairFile_scan start opts scanned
  rw [if_neg (by simp)] at result
  exact ⟨s', tests, (ends []).1, (ends []).2, scanned, result⟩

/-- A file that the kernel's offsets reach is read exactly. -/
theorem readsExact_of_length (short : file.length < 2 ^ 63) : ReadsExact file := by
  -- Offsets within the file are not too large.
  intro len off inside
  rw [filePread, if_neg (by omega)]

end Files

/-- The scan of a file with one block, into an output that takes every write. -/
theorem repair_scan_whole_gap : ∃ s, repairStart none gapFile (some (freshOutput fun _ => none)) =
    .ok s ∧ ∃ s' tests,
      Ends (scanRound none scanWindow { fillGaps := true, fillByte := 0 } gapFile)
        (.window s.ctx.hdr.headerSize.toNat, true, s, []) (true, s', tests) ∧
      Ends (wholeRound none { fillGaps := true, fillByte := 0 } gapFile)
        (s.ctx.hdr.headerSize.toNat, s, []) (s', tests) := by
  have starts : (repairStart none gapFile (some (freshOutput fun _ => none))).toOption.isSome =
      true := by decide +kernel
  have length : gapFile.length < 2 ^ 63 := by decide +kernel
  cases start : repairStart none gapFile (some (freshOutput fun _ => none)) with
  | error st =>
    rw [start] at starts
    cases starts
  | ok s =>
    -- The output takes every write.
    have writes : WritesSucceed (some (freshOutput fun _ => none)) := by
      intro f member call
      obtain rfl := Option.some.inj member
      rfl
    obtain ⟨s', tests, windows, whole, _⟩ := repair_scan_whole start (readsExact_of_length length)
      writes (some { fillGaps := true, fillByte := 0 })
    exact ⟨s, rfl, s', tests, windows, whole⟩

end Xq
