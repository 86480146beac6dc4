import Xq.Core.Repair
import Xq.Proofs.Format.Parsers

/-! Where repair puts what it recovers: with gap filling, the output is laid out by raw offsets
exactly when every gap's fill bytes reach it. -/

namespace Xq

section Filling

/-- How many bytes of a gap do not reach the output, going by its answers from a call on. -/
def fillMissing (fails : Nat → Option Nat) : Nat → Nat → Nat → Nat
  | 0, _, remain => remain
  | fuel + 1, call, remain =>
    if remain = 0 then 0
    else
      let chunk := if remain < fillChunk then remain else fillChunk
      match fails call with
      | none => fillMissing fails fuel (call + 1) (remain - chunk)
      | some n => remain - min n chunk

/-- Filling a gap appends its fill bytes, all but the missing ones. -/
theorem fillGap_written (fillByte : UInt8) (fuel remain : Nat) (f : OutFile) :
    ∃ filled, filled + fillMissing f.fails fuel f.calls remain = remain ∧
      (fillGap fillByte fuel remain f).written = f.written ++ List.replicate filled fillByte := by
  -- The induction is on the chunks.
  induction fuel generalizing remain f with
  | zero => exact ⟨0, Nat.zero_add remain, (List.append_nil _).symm⟩
  | succ fuel ih =>
    rw [fillMissing, fillGap]
    by_cases done : remain = 0
    · rw [if_pos done, if_pos done]
      exact ⟨0, done.symm, (List.append_nil _).symm⟩
    rw [if_neg done, if_neg done]
    dsimp only
    generalize sized : (if remain < fillChunk then remain else fillChunk) = chunk
    have within : chunk ≤ remain := by
      subst sized
      split <;> omega
    cases answer : f.fails f.calls with
    | none =>
      -- The chunk is written whole, and the rest of the gap follows it.
      have wrote : f.write (List.replicate chunk fillByte) =
          (.ok, { f with
            written := f.written ++ List.replicate chunk fillByte, calls := f.calls + 1 }) := by
        rw [OutFile.write, answer]
      rw [wrote]
      obtain ⟨filled, all, written⟩ := ih (remain - chunk)
        { f with written := f.written ++ List.replicate chunk fillByte, calls := f.calls + 1 }
      refine ⟨chunk + filled, ?_, ?_⟩
      · dsimp only at all ⊢
        omega
      · dsimp only at written ⊢
        rw [written, List.append_assoc, List.replicate_append_replicate]
    | some n =>
      -- The write fails in the middle of the chunk, and filling stops there.
      have wrote : f.write (List.replicate chunk fillByte) =
          (.io, { f with
            written := f.written ++ (List.replicate chunk fillByte).take n
            calls := f.calls + 1 }) := by
        rw [OutFile.write, answer]
      rw [wrote]
      refine ⟨min n chunk, by dsimp only; omega, ?_⟩
      dsimp only
      rw [List.take_replicate]

end Filling

section Steps

/-- What the scan does with one header it has found. A block that is placed, or whose write fails,
may have a gap in front of it, of which some bytes may be missing from the output. -/
inductive RepairStep
  | damaged
  | skipped
  | recovered (missing : Nat) (b : BlockHeader) (data : Bytes)
  | refused (missing : Nat)
  deriving DecidableEq, Repr

def RepairStep.missing : RepairStep → Nat
  | damaged => 0
  | skipped => 0
  | recovered missing _ _ => missing
  | refused missing => missing

def RepairStep.isRefused : RepairStep → Bool
  | refused _ => true
  | _ => false

variable (zstd : Option CodecVt)

/-- The bytes that a gap in front of a block leaves missing. -/
def Scan.gapMissing (o : RepairOpts) (s : Scan) (b : BlockHeader) : Nat :=
  if o.fillGaps then
    let remain := b.rawOffset.toNat - s.expectRaw
    (s.out.map fun f => fillMissing f.fails (remain + 1) f.calls remain).getD 0
  else 0

/-- What becomes of the header the scan has found at `boff`. -/
def Scan.step (o : RepairOpts) (s : Scan) (boff : Nat) (b : BlockHeader) : RepairStep :=
  let (ds, ctx) := RepairCtx.decodeAt zstd s.ctx boff b
  if ds ≠ .ok then .damaged
  else if b.rawOffset.toNat < s.expectRaw then .skipped
  else if (Scan.block zstd o s boff b).1 then .recovered (s.gapMissing o b) b ctx.raw
  else .refused (s.gapMissing o b)

/-- The steps of the inner loop. -/
def scanWindowSteps (o : RepairOpts) (win : Bytes) (pos : Nat) :
    Nat → Nat → Scan → List RepairStep
  | 0, _, _ => []
  | fuel + 1, i, s =>
    if i + blockHeaderSize ≤ win.length then
      match scanCandidate win i with
      | none => scanWindowSteps o win pos fuel (i + 1) s
      | some b =>
        s.step zstd o (pos + i) b ::
          match Scan.block zstd o s (pos + i) b with
          | (true, adv, s) => scanWindowSteps o win pos fuel (i + adv) s
          | (false, _, _) => []
    else []

/-- The outer loop with windows of any size. -/
def scanLoopBy (window : Nat) (o : RepairOpts) (file : Bytes) :
    Nat → Nat → Bool → Scan → Bool × Scan
  | 0, _, good, s => (good, s)
  | fuel + 1, pos, good, s =>
    if pos + blockHeaderSize ≤ file.length then
      let want := if pos + window > file.length then file.length - pos else window
      let win := (filePread file want pos).2
      if win.length < blockHeaderSize then (good, s)
      else
        let (wrote, i, s) := scanWindowLoop zstd o win pos (win.length + 1) 0 s
        let good := good && wrote
        let keep := blockHeaderSize - 1
        let step := if i > win.length - keep then i else win.length - keep
        let step := if step = 0 then 1 else step
        let pos := pos + step
        if win.length < window ∧ pos + blockHeaderSize > file.length then (good, s)
        else scanLoopBy window o file fuel pos good s
    else (good, s)

/-- The scan is the outer loop with windows of a mebibyte. -/
theorem scanLoop_eq (o : RepairOpts) (file : Bytes) :
    scanLoop zstd o file = scanLoopBy zstd scanWindow o file := by
  -- The two recursions have the same body; unfolding a round would evaluate the size in unary.
  delta scanLoop scanLoopBy
  rfl

/-- The steps of the outer loop. -/
def scanSteps (window : Nat) (o : RepairOpts) (file : Bytes) :
    Nat → Nat → Scan → List RepairStep
  | 0, _, _ => []
  | fuel + 1, pos, s =>
    if pos + blockHeaderSize ≤ file.length then
      let want := if pos + window > file.length then file.length - pos else window
      let win := (filePread file want pos).2
      if win.length < blockHeaderSize then []
      else
        let (_, i, s') := scanWindowLoop zstd o win pos (win.length + 1) 0 s
        let keep := blockHeaderSize - 1
        let step := if i > win.length - keep then i else win.length - keep
        let step := if step = 0 then 1 else step
        let pos' := pos + step
        scanWindowSteps zstd o win pos (win.length + 1) 0 s ++
          if win.length < window ∧ pos' + blockHeaderSize > file.length then []
          else scanSteps window o file fuel pos' s'
    else []

/-- The steps of a whole repair with gap filling. -/
def repairSteps (file : Bytes) (f : OutFile) (fillByte : UInt8) : List RepairStep :=
  let o : RepairOpts := { fillGaps := true, fillByte := fillByte }
  match repairReadHeader zstd file with
  | .error _ => []
  | .ok c =>
    let (ds, c) := RepairCtx.loadDict zstd c c.hdr.headerSize.toNat file.length
    let rep := { repairReportBlank with
      dictOk := if c.hdr.flags &&& flagDictPresent ≠ 0 then ds = .ok else true }
    scanSteps zstd scanWindow o file (file.length + 1) c.hdr.headerSize.toNat
      { ctx := c, rep := rep, out := some f, expectRaw := 0 }

end Steps

section Layouts

variable {zstd : Option CodecVt} {o : RepairOpts}

/-- The fill bytes that a list of steps leaves missing. -/
def missingBytes (steps : List RepairStep) : Nat := (steps.map RepairStep.missing).sum

/-- A block lies in the output at its own offset and with its own size. -/
def InPlace (written : Bytes) (b : BlockHeader) (data : Bytes) : Prop :=
  data.length = b.rawSize.toNat ∧ b.rawOffset.toNat + b.rawSize.toNat ≤ written.length ∧
    slice written b.rawOffset.toNat b.rawSize.toNat = data

/-- What is written behind a block does not move it. -/
theorem InPlace.append {written data : Bytes} {b : BlockHeader} (placed : InPlace written b data)
    (more : Bytes) : InPlace (written ++ more) b data := by
  -- The block ends within what was written before.
  obtain ⟨length, within, here⟩ := placed
  refine ⟨length, by rw [List.length_append]; omega, ?_⟩
  rw [slice, List.drop_append_of_le_length (by omega),
    List.take_append_of_le_length (by rw [List.length_drop]; omega)]
  exact here

/-- A block written at the end of an output of the right length is in place. -/
theorem InPlace.last {written data : Bytes} {b : BlockHeader}
    (length : data.length = b.rawSize.toNat) (here : written.length = b.rawOffset.toNat) :
    InPlace (written ++ data) b data := by
  -- The block begins where the output ended.
  refine ⟨length, by rw [List.length_append]; omega, ?_⟩
  rw [slice, List.drop_left' here, List.take_of_length_le (le_of_eq length)]

/-- The scan's account of an output, after steps of which none was refused. -/
structure Scan.Layout (s : Scan) (f : OutFile) (steps : List RepairStep) : Prop where
  out : s.out = some f
  found : s.rep.blocksFound = s.rep.blocksOk + s.rep.blocksBad
  offset : s.rep.bytesRecovered + s.rep.gapBytes = s.expectRaw
  length : f.written.length + missingBytes steps = s.expectRaw
  placed : missingBytes steps = 0 → ∀ missing b data, .recovered missing b data ∈ steps →
    InPlace f.written b data

/-- As long as no step has been refused, the output is laid out as the scan accounts for it. -/
def Scan.Explained (s : Scan) (steps : List RepairStep) : Prop :=
  (∀ step ∈ steps, step.isRefused = false) → ∃ f, s.Layout f steps

theorem missingBytes_append (steps more : List RepairStep) :
    missingBytes (steps ++ more) = missingBytes steps + missingBytes more := by
  -- The sum over the steps splits.
  rw [missingBytes, List.map_append, List.sum_append]
  rfl

/-- A block that decodes has the size its header says. -/
theorem decodeAt_length {c c' : RepairCtx} {off : Nat} {b : BlockHeader}
    (decoded : RepairCtx.decodeAt zstd c off b = (.ok, c')) : c'.raw.length = b.rawSize.toNat := by
  -- The last test of a decode is that of its length.
  unfold RepairCtx.decodeAt at decoded
  rcases result : RepairCtx.decodeBlockAt zstd c off b with ⟨st, p⟩
  rw [result] at decoded
  cases decoded
  unfold RepairCtx.decodeBlockAt at result
  dsimp only at result
  split at result; · cases result
  split at result; · cases result
  rcases read : filePread c.file (blockHeaderSize + b.storedSize.toNat + c.checksumLen) off with
    ⟨answer, staging⟩
  rw [read] at result
  cases answer with
  | ok =>
    dsimp only at result
    split at result; · cases result
    split at result; · cases result
    obtain ⟨finish, rfl⟩ := Prod.mk.inj result
    rw [blockFinish] at finish
    split at finish
    · rename_i failed
      exact (failed finish).elim
    split at finish; · cases finish
    rename_i whole
    exact not_not.mp whole
  | _ => cases result

/-- The scan at a header, when its block does not decode. -/
theorem Scan.block_damaged {s : Scan} {boff : Nat} {b : BlockHeader} {ds : XqStatus}
    {ctx : RepairCtx} (decoded : RepairCtx.decodeAt zstd s.ctx boff b = (ds, ctx)) (bad : ds ≠ .ok) :
    Scan.block zstd o s boff b = (true, blockHeaderSize, { s with
      ctx := ctx
      rep := { s.rep with
        blocksFound := s.rep.blocksFound + 1, blocksBad := s.rep.blocksBad + 1 } }) := by
  -- A block that does not decode is counted, and neither filled nor placed.
  unfold Scan.block
  dsimp only
  rw [decoded]
  dsimp only
  rw [if_pos bad]

/-- The scan at a header, when its block decodes but lies before what has been written. -/
theorem Scan.block_skipped {s : Scan} {boff : Nat} {b : BlockHeader} {ctx : RepairCtx}
    (decoded : RepairCtx.decodeAt zstd s.ctx boff b = (.ok, ctx))
    (behind : b.rawOffset.toNat < s.expectRaw) :
    Scan.block zstd o s boff b =
      (true, blockHeaderSize + b.storedSize.toNat + ctx.checksumLen, { s with
        ctx := ctx
        rep := { s.rep with
          blocksFound := s.rep.blocksFound + 1, blocksOk := s.rep.blocksOk + 1
          blocksSkipped := s.rep.blocksSkipped + 1 } }) := by
  -- There is no gap in front of it, and it is not placed.
  unfold Scan.block
  dsimp only
  rw [decoded]
  dsimp only
  rw [if_neg (by simp), Scan.gap, if_neg (by dsimp only; omega), Scan.place,
    if_neg (by dsimp only; omega)]

/-- The scan at a header, when its block decodes and the output accepts it behind its gap. -/
theorem Scan.block_placed {s : Scan} {f : OutFile} {boff : Nat} {b : BlockHeader} {ctx : RepairCtx}
    (decoded : RepairCtx.decodeAt zstd s.ctx boff b = (.ok, ctx)) (out : s.out = some f)
    (ahead : s.expectRaw ≤ b.rawOffset.toNat)
    (gaps : o.fillGaps = true) : ∃ g : OutFile, ∃ filled : Nat,
      filled + s.gapMissing o b = b.rawOffset.toNat - s.expectRaw ∧
      g.written = f.written ++ List.replicate filled o.fillByte ∧
      Scan.block zstd o s boff b =
        if (g.write ctx.raw).1 = .ok then
          (true, blockHeaderSize + b.storedSize.toNat + ctx.checksumLen,
            { ctx := ctx, out := some (g.write ctx.raw).2
              expectRaw := b.rawOffset.toNat + ctx.raw.length
              rep := { s.rep with
                blocksFound := s.rep.blocksFound + 1, blocksOk := s.rep.blocksOk + 1
                gapBytes := s.rep.gapBytes + (b.rawOffset.toNat - s.expectRaw)
                gaps := s.rep.gaps + if b.rawOffset.toNat > s.expectRaw then 1 else 0
                bytesRecovered := s.rep.bytesRecovered + ctx.raw.length } })
        else
          (false, 0,
            { ctx := ctx, out := some (g.write ctx.raw).2, expectRaw := s.expectRaw
              rep := { s.rep with
                blocksFound := s.rep.blocksFound + 1
                gapBytes := s.rep.gapBytes + (b.rawOffset.toNat - s.expectRaw)
                gaps := s.rep.gaps + if b.rawOffset.toNat > s.expectRaw then 1 else 0 } }) := by
  unfold Scan.block
  dsimp only
  rw [decoded]
  dsimp only
  rw [if_neg (by simp), Scan.gap, Scan.gapMissing, if_pos gaps, out]
  dsimp only
  by_cases gap : b.rawOffset.toNat > s.expectRaw
  · -- The gap is filled as far as the output goes.
    obtain ⟨filled, all, written⟩ := fillGap_written o.fillByte (b.rawOffset.toNat - s.expectRaw + 1)
      (b.rawOffset.toNat - s.expectRaw) f
    refine ⟨fillGap o.fillByte (b.rawOffset.toNat - s.expectRaw + 1)
      (b.rawOffset.toNat - s.expectRaw) f, filled, all, written, ?_⟩
    rw [if_pos gap, if_pos gap, if_pos gaps, Scan.place, if_pos (by dsimp only; omega)]
    dsimp only
    rw [Option.map_some]
    generalize fillGap o.fillByte _ _ f = g
    dsimp only
    by_cases wrote : (g.write ctx.raw).1 = .ok
    · rw [if_neg (not_not.mpr wrote), if_pos wrote]
    · rw [if_pos wrote, if_neg wrote]
  · -- There is no gap.
    refine ⟨f, 0, ?_, (List.append_nil _).symm, ?_⟩
    · have level : b.rawOffset.toNat - s.expectRaw = 0 := by omega
      rw [level]
      rfl
    have level : b.rawOffset.toNat - s.expectRaw = 0 := by omega
    rw [if_neg gap, if_neg gap, Scan.place, if_pos ahead, level]
    dsimp only
    by_cases wrote : (f.write ctx.raw).1 = .ok
    · rw [if_neg (not_not.mpr wrote), if_pos wrote]
      rfl
    · rw [if_pos wrote, if_neg wrote]
      rfl

/-- The scan's answer says whether the step was refused. -/
theorem Scan.block_refused (zstd : Option CodecVt) (o : RepairOpts) (s : Scan) (boff : Nat)
    (b : BlockHeader) :
    (Scan.block zstd o s boff b).1 = !(s.step zstd o boff b).isRefused := by
  -- A step is refused only where the block itself cannot be written.
  rw [Scan.step]
  rcases decoded : RepairCtx.decodeAt zstd s.ctx boff b with ⟨ds, ctx⟩
  dsimp only
  by_cases fine : ds = .ok
  · subst fine
    rw [if_neg (by simp)]
    by_cases behind : b.rawOffset.toNat < s.expectRaw
    · rw [if_pos behind, Scan.block_skipped decoded behind]
      rfl
    · rw [if_neg behind]
      cases (Scan.block zstd o s boff b).1 <;> rfl
  · rw [if_pos fine, Scan.block_damaged decoded fine]
    rfl

/-- One header: whatever becomes of it, the account stays right. -/
theorem Scan.Explained.block {s : Scan} {steps : List RepairStep} (explained : s.Explained steps)
    (zstd : Option CodecVt) (gaps : o.fillGaps = true) (boff : Nat) (b : BlockHeader) :
    (Scan.block zstd o s boff b).2.2.Explained (steps ++ [s.step zstd o boff b]) := by
  intro fine
  obtain ⟨f, layout⟩ := explained fun step member => fine step (List.mem_append_left _ member)
  have unrefused := fine _ (List.mem_append_right _ (List.mem_singleton_self _))
  have answer := Scan.block_refused zstd o s boff b
  rw [unrefused] at answer
  rcases decoded : RepairCtx.decodeAt zstd s.ctx boff b with ⟨ds, ctx⟩
  by_cases good : ds = .ok
  swap
  · -- A damaged block only changes the counts.
    have step : s.step zstd o boff b = .damaged := by
      rw [Scan.step, decoded]
      exact if_pos good
    have nothing : missingBytes (steps ++ [.damaged]) = missingBytes steps :=
      missingBytes_append steps [.damaged]
    rw [step, Scan.block_damaged decoded good]
    refine ⟨f, layout.out, ?_, layout.offset, nothing ▸ layout.length, fun none m b' data member => ?_⟩
    · have found := layout.found
      dsimp only
      omega
    · rcases List.mem_append.mp member with before | here
      · exact layout.placed (nothing ▸ none) m b' data before
      · cases List.mem_singleton.mp here
  subst good
  by_cases behind : b.rawOffset.toNat < s.expectRaw
  · -- So does a block that is skipped.
    have step : s.step zstd o boff b = .skipped := by
      rw [Scan.step, decoded]
      dsimp only
      rw [if_neg (by simp), if_pos behind]
    have nothing : missingBytes (steps ++ [.skipped]) = missingBytes steps :=
      missingBytes_append steps [.skipped]
    rw [step, Scan.block_skipped decoded behind]
    refine ⟨f, layout.out, ?_, layout.offset, nothing ▸ layout.length, fun none m b' data member => ?_⟩
    · have found := layout.found
      dsimp only
      omega
    · rcases List.mem_append.mp member with before | here
      · exact layout.placed (nothing ▸ none) m b' data before
      · cases List.mem_singleton.mp here
  · -- The block is written behind its gap.
    have step : s.step zstd o boff b = .recovered (s.gapMissing o b) b ctx.raw := by
      rw [Scan.step, decoded]
      dsimp only
      rw [if_neg (by simp), if_neg behind, answer]
      rfl
    obtain ⟨g, filled, all, written, block⟩ :=
      Scan.block_placed decoded layout.out (Nat.not_lt.mp behind) gaps
    have wrote : (g.write ctx.raw).1 = .ok := by
      by_contra failed
      rw [block, if_neg failed] at answer
      cases answer
    have appended : (g.write ctx.raw).2.written = g.written ++ ctx.raw := by
      rw [OutFile.write] at wrote ⊢
      split at wrote
      · rfl
      · cases wrote
    have size := decodeAt_length decoded
    have missing : missingBytes (steps ++ [.recovered (s.gapMissing o b) b ctx.raw]) =
        missingBytes steps + s.gapMissing o b := by
      rw [missingBytes_append]
      simp [missingBytes, RepairStep.missing]
    have length := layout.length
    have offset := layout.offset
    have found := layout.found
    rw [step, block, if_pos wrote]
    refine ⟨(g.write ctx.raw).2, rfl, ?_, ?_, ?_, fun none m b' data member => ?_⟩
    · -- The blocks found are counted.
      dsimp only
      omega
    · -- The scan goes on behind the block.
      dsimp only
      omega
    · -- The output lacks what the fill has lacked.
      rw [missing, appended, written, List.length_append, List.length_append, List.length_replicate]
      dsimp only
      omega
    · -- With nothing missing, the output ends where the block belongs.
      rw [missing] at none
      rw [appended]
      rcases List.mem_append.mp member with before | here
      · rw [written]
        exact ((layout.placed (by omega) m b' data before).append _).append _
      · cases List.mem_singleton.mp here
        refine InPlace.last size ?_
        rw [written, List.length_append, List.length_replicate]
        omega

/-- None of a list of steps was refused. -/
def unrefused (steps : List RepairStep) : Bool := steps.all fun step => !step.isRefused

theorem unrefused_iff {steps : List RepairStep} :
    unrefused steps = true ↔ ∀ step ∈ steps, step.isRefused = false := by
  -- The flag is a conjunction over the steps.
  simp [unrefused]

/-- The inner loop keeps the account, and its flag says whether a step was refused. -/
theorem scanWindowLoop_explained {win : Bytes} {pos fuel i : Nat} {s : Scan}
    {steps : List RepairStep} (gaps : o.fillGaps = true) (explained : s.Explained steps) :
    (scanWindowLoop zstd o win pos fuel i s).2.2.Explained
        (steps ++ scanWindowSteps zstd o win pos fuel i s) ∧
      (scanWindowLoop zstd o win pos fuel i s).1 =
        unrefused (scanWindowSteps zstd o win pos fuel i s) := by
  induction fuel generalizing i s steps with
  | zero =>
    rw [scanWindowLoop, scanWindowSteps, List.append_nil]
    exact ⟨explained, rfl⟩
  | succ fuel ih =>
    rw [scanWindowLoop, scanWindowSteps]
    split; swap
    · rw [List.append_nil]
      exact ⟨explained, rfl⟩
    cases scanCandidate win i with
    -- No header stands here.
    | none => exact ih explained
    | some b =>
      -- A header does, and its step is accounted for.
      have next := explained.block zstd gaps (pos + i) b
      have answer := Scan.block_refused zstd o s (pos + i) b
      dsimp only
      rcases block : Scan.block zstd o s (pos + i) b with ⟨good, adv, s'⟩
      rw [block] at next answer
      cases good with
      | true =>
        obtain ⟨rest, flag⟩ := ih (i := i + adv) next
        refine ⟨by rwa [List.append_assoc] at rest, ?_⟩
        dsimp only
        rw [flag, unrefused, unrefused, List.all_cons, ← answer, Bool.true_and]
      | false =>
        refine ⟨next, ?_⟩
        dsimp only
        rw [unrefused, List.all_cons, ← answer, Bool.false_and]

/-- So does the outer loop, over all windows. -/
theorem scanLoopBy_explained {s : Scan} {steps : List RepairStep} (zstd : Option CodecVt)
    (gaps : o.fillGaps = true) (window : Nat) (file : Bytes) (fuel pos : Nat) (good : Bool)
    (explained : s.Explained steps) :
    (scanLoopBy zstd window o file fuel pos good s).2.Explained
        (steps ++ scanSteps zstd window o file fuel pos s) ∧
      (scanLoopBy zstd window o file fuel pos good s).1 =
        (good && unrefused (scanSteps zstd window o file fuel pos s)) := by
  -- The induction is on the windows.
  induction fuel generalizing pos good s steps with
  | zero =>
    rw [scanLoopBy, scanSteps, List.append_nil, unrefused, List.all_nil, Bool.and_true]
    exact ⟨explained, rfl⟩
  | succ fuel ih =>
    have nothing : s.Explained (steps ++ []) ∧ good = (good && unrefused []) := by
      rw [List.append_nil, unrefused, List.all_nil, Bool.and_true]
      exact ⟨explained, rfl⟩
    rw [scanLoopBy, scanSteps]
    split; swap
    · exact nothing
    dsimp only
    generalize (filePread file _ pos).2 = win
    split
    · exact nothing
    obtain ⟨within, flag⟩ :=
      scanWindowLoop_explained gaps explained
    rcases inner : scanWindowLoop zstd o win pos (win.length + 1) 0 s with ⟨wrote, i, s'⟩
    rw [inner] at within flag
    dsimp only at within flag ⊢
    rw [flag]
    generalize pos + _ = pos'
    split
    · rw [List.append_nil]
      exact ⟨within, rfl⟩
    · obtain ⟨rest, flags⟩ := ih pos'
        (good && unrefused (scanWindowSteps zstd o win pos (win.length + 1) 0 s)) within
      rw [flags, ← List.append_assoc]
      refine ⟨rest, ?_⟩
      rw [Bool.and_assoc, unrefused, unrefused, unrefused, List.all_append]

end Layouts

section Files

variable (zstd : Option CodecVt)

/-- A new output, whose writes will fail as `fails` tells. -/
def freshOutput (fails : Nat → Option Nat) : OutFile := { written := [], fails := fails, calls := 0 }

/-- A repair with gap filling misplaces nothing silently: unless it reports another error, every
block it has recovered is in place, the output is as long as the report says, and every header it
has found is accounted for. -/
def RepairInPlace (file : Bytes) (fails : Nat → Option Nat) (fillByte : UInt8) : Prop :=
  let (st, rep, out) := repairFile zstd file (some (freshOutput fails))
    (some { fillGaps := true, fillByte := fillByte })
  st = .ok ∨ st = .corruptBlock → ∃ g, out = some g ∧
    (∀ missing b data, .recovered missing b data ∈
      repairSteps zstd file (freshOutput fails) fillByte → InPlace g.written b data) ∧
    g.written.length = rep.bytesRecovered + rep.gapBytes ∧
    rep.blocksFound = rep.blocksOk + rep.blocksBad

variable {zstd} {file : Bytes} {fails : Nat → Option Nat} {fillByte : UInt8}

/-- A repair reports an error of its output exactly when a block's write was refused, and otherwise
it leaves an output laid out as it accounts for it. -/
theorem repairFile_layout {c : RepairCtx} (header : repairReadHeader zstd file = .ok c) :
    ∃ st rep out, repairFile zstd file (some (freshOutput fails))
        (some { fillGaps := true, fillByte := fillByte }) = (st, rep, out) ∧
      (unrefused (repairSteps zstd file (freshOutput fails) fillByte) = false → st = .io) ∧
      (unrefused (repairSteps zstd file (freshOutput fails) fillByte) = true →
        (st = .ok ∨ st = .corruptBlock) ∧ ∃ s : Scan, ∃ g, s.Layout g
          (repairSteps zstd file (freshOutput fails) fillByte) ∧ out = some g ∧
          rep.bytesRecovered = s.rep.bytesRecovered ∧ rep.gapBytes = s.rep.gapBytes ∧
          rep.blocksFound = s.rep.blocksFound ∧ rep.blocksOk = s.rep.blocksOk ∧
          rep.blocksBad = s.rep.blocksBad) := by
  unfold repairFile repairSteps
  simp only [scanLoop_eq]
  generalize scanWindow = window
  rw [header]
  dsimp only [Option.getD_some]
  rcases loaded : RepairCtx.loadDict zstd c c.hdr.headerSize.toNat file.length with ⟨ds, c'⟩
  dsimp only
  generalize (if c'.hdr.flags &&& flagDictPresent ≠ 0 then decide (ds = .ok) else true) = dictOk
  -- The scan starts with an empty output and an account of nothing.
  have start : Scan.Explained
      { ctx := c', rep := { repairReportBlank with dictOk := dictOk }
        out := some (freshOutput fails), expectRaw := 0 } [] := fun _ =>
    ⟨freshOutput fails, rfl, rfl, rfl, rfl, fun _ _ _ _ member => by cases member⟩
  obtain ⟨explained, flag⟩ := scanLoopBy_explained zstd
    (o := { fillGaps := true, fillByte := fillByte }) rfl window file (file.length + 1)
    c'.hdr.headerSize.toNat true start
  rw [List.nil_append] at explained
  rw [Bool.true_and] at flag
  dsimp only at explained flag
  generalize scanSteps zstd window _ file (file.length + 1) _ _ = steps at explained flag ⊢
  refine ⟨_, _, _, rfl, fun refused => if_pos ?_, fun fine => ⟨?_, ?_⟩⟩
  · rw [flag, refused]
    simp
  · rw [if_neg (by rw [flag, fine]; simp)]
    split
    · exact .inr rfl
    · exact .inl rfl
  · obtain ⟨g, layout⟩ := explained (unrefused_iff.mp fine)
    exact ⟨_, g, layout, layout.out, rfl, rfl, rfl, rfl, rfl⟩

/-- Repair with gap filling misplaces nothing silently exactly when every gap's fill bytes reach the
output, or the write of a block fails as well and is reported. -/
theorem repair_inPlace_iff (zstd : Option CodecVt) (file : Bytes) (fails : Nat → Option Nat)
    (fillByte : UInt8) :
    RepairInPlace zstd file fails fillByte ↔
      (∃ step ∈ repairSteps zstd file (freshOutput fails) fillByte, step.isRefused = true) ∨
        ∀ step ∈ repairSteps zstd file (freshOutput fails) fillByte, step.missing = 0 := by
  unfold RepairInPlace
  cases header : repairReadHeader zstd file with
  | error st =>
    -- Without a header there are no steps, and the output stays empty.
    have nothing : repairSteps zstd file (freshOutput fails) fillByte = [] := by
      rw [repairSteps, header]
    have result : repairFile zstd file (some (freshOutput fails))
        (some { fillGaps := true, fillByte := fillByte }) =
          (st, repairReportBlank, some (freshOutput fails)) := by
      rw [repairFile, header]
    rw [nothing, result]
    simp [freshOutput, repairReportBlank]
  | ok c =>
    obtain ⟨st, rep, out, result, broken, good⟩ := @repairFile_layout zstd file fails
      fillByte c header
    rw [result]
    dsimp only
    generalize repairSteps zstd file (freshOutput fails) fillByte = steps at broken good ⊢
    cases fine : unrefused steps with
    | false =>
      -- The write of a block has failed, and that is reported.
      have reported := broken fine
      constructor
      · intro _
        by_contra neither
        rw [not_or] at neither
        have all : unrefused steps = true := unrefused_iff.mpr fun step member => by
          cases answer : step.isRefused with
          | false => rfl
          | true => exact (neither.1 ⟨step, member, answer⟩).elim
        rw [fine] at all
        cases all
      · intro _ other
        rw [reported] at other
        rcases other with absurd | absurd <;> cases absurd
    | true =>
      obtain ⟨status, s, g, layout, rfl, recovered, gap, found, okay, bad⟩ := good fine
      have length := layout.length
      have offset := layout.offset
      rw [recovered, gap, found, okay, bad]
      constructor
      · intro inPlace
        obtain ⟨g', same, _, whole, _⟩ := inPlace status
        obtain rfl := Option.some.inj same
        -- The output is short by what is missing, so nothing is.
        have none : missingBytes steps = 0 := by omega
        exact .inr fun step member =>
          Nat.le_zero.mp (none ▸ List.single_le_sum (fun _ _ => Nat.zero_le _) _
            (List.mem_map_of_mem member))
      · intro filled _
        have none : missingBytes steps = 0 := by
          rcases filled with ⟨step, member, refused⟩ | all
          · rw [unrefused_iff.mp fine step member] at refused
            cases refused
          · rw [missingBytes, List.sum_eq_zero_iff]
            intro n member
            obtain ⟨step, here, rfl⟩ := List.mem_map.mp member
            exact all step here
        exact ⟨g, rfl, layout.placed none, by omega, layout.found⟩

end Files

/-- A file whose only block, of one byte, belongs five bytes into the output. -/
def gapFile : Bytes :=
  fmtHeaderStore
      { formatMajor := 1, formatMinor := 0, headerSize := 32, flags := 0, codecId := 0, level := 1
        checksumId := 0, blockSizeLog := 12, rawSize := sizeUnknown } ++
    fmtBlockStore { bflags := 1, codecId := 0, storedSize := 1, rawSize := 1, rawOffset := 5 } ++ [65]

/-- When the write of the gap in front of it fails, the block is written where the gap should be,
and the repair reports success. -/
theorem repair_misplaced :
    ¬ RepairInPlace none gapFile (fun call => if call = 0 then some 0 else none) 0 := by
  unfold RepairInPlace
  rcases result : repairFile none gapFile
    (some (freshOutput fun call => if call = 0 then some 0 else none))
    (some { fillGaps := true, fillByte := 0 }) with ⟨st, rep, out⟩
  have run : (repairFile none gapFile
      (some (freshOutput fun call => if call = 0 then some 0 else none))
      (some { fillGaps := true, fillByte := 0 })).1 = .ok ∧
    ((repairFile none gapFile
      (some (freshOutput fun call => if call = 0 then some 0 else none))
      (some { fillGaps := true, fillByte := 0 })).2.1.bytesRecovered = 1 ∧
    (repairFile none gapFile
      (some (freshOutput fun call => if call = 0 then some 0 else none))
      (some { fillGaps := true, fillByte := 0 })).2.1.gapBytes = 5) ∧
    (repairFile none gapFile
      (some (freshOutput fun call => if call = 0 then some 0 else none))
      (some { fillGaps := true, fillByte := 0 })).2.2.map OutFile.written = some [65] := by
    decide +kernel
  rw [result] at run
  obtain ⟨status, ⟨recovered, gap⟩, written⟩ := run
  intro inPlace
  obtain ⟨g, rfl, _, length, _⟩ := inPlace (.inl status)
  -- One byte has been written where the report speaks of six.
  obtain here : g.written = [65] := Option.some.inj written
  dsimp only at recovered gap
  rw [here, recovered, gap] at length
  cases length

end Xq
