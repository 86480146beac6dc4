import Xq.Proofs.Core.RepairScan

/-! What a repair's report accounts for: the blocks found, the ranges counted, and the output's
length, after any run of the scan. -/

namespace Xq

section Findings

/-- A header that the scan has found, with the state it was found in. -/
structure Finding where
  scan : Scan
  boff : Nat
  header : BlockHeader

variable (zstd : Option CodecVt) (o : RepairOpts)

/-- What the scan does with the header. -/
def Finding.block (h : Finding) : Bool × Nat × Scan :=
  Scan.block zstd o h.scan h.boff h.header

def Finding.decodes (h : Finding) : Bool :=
  (RepairCtx.decodeAt zstd h.scan.ctx h.boff h.header).1 = .ok

/-- The block decodes and does not lie before what has been written, so the scan counts the gap in
front of it and goes on to write it. -/
def Finding.attempted (h : Finding) : Bool :=
  h.decodes zstd && decide (h.scan.expectRaw ≤ h.header.rawOffset.toNat)

/-- The output does not take the block. -/
def Finding.refused (h : Finding) : Bool := !(h.block zstd o).1

def Finding.placed (h : Finding) : Bool := h.attempted zstd && !h.refused zstd o

/-- Where the block ends in the stream, going by its header. -/
def BlockHeader.stop (b : BlockHeader) : Nat := b.rawOffset.toNat + b.rawSize.toNat

/-- The length of an output, when there is one. -/
def outLength (out : Option OutFile) : Nat := (out.map fun f => f.written.length).getD 0

/-- The bytes of the gap in front of a block that are meant for the output. -/
def Scan.fillLength (s : Scan) (b : BlockHeader) : Nat :=
  if o.fillGaps then b.rawOffset.toNat - s.expectRaw else 0

/-- The length that the output comes to when it takes the gap and the block whole. -/
def Finding.room (h : Finding) : Nat :=
  outLength h.scan.out + h.scan.fillLength o h.header + h.header.rawSize.toNat

/-- The headers that the inner loop finds. -/
def scanWindowFindings (win : Bytes) (pos : Nat) : Nat → Nat → Scan → List Finding
  | 0, _, _ => []
  | fuel + 1, i, s =>
    if i + blockHeaderSize ≤ win.length then
      match scanCandidate win i with
      | none => scanWindowFindings win pos fuel (i + 1) s
      | some b =>
        { scan := s, boff := pos + i, header := b } ::
          match Scan.block zstd o s (pos + i) b with
          | (true, adv, s) => scanWindowFindings win pos fuel (i + adv) s
          | (false, _, _) => []
    else []

/-- The headers that the outer loop finds. -/
def scanFindings (window : Nat) (file : Bytes) : Nat → Nat → Scan → List Finding
  | 0, _, _ => []
  | fuel + 1, pos, s =>
    if pos + blockHeaderSize ≤ file.length then
      let want := if pos + window > file.length then file.length - pos else window
      let win := (filePread file want pos).2
      if win.length < blockHeaderSize then []
      else
        let (_, i, s') := scanWindowLoop zstd o win pos (win.length + 1) 0 s
        let keep := blockHeaderSize - 1
        let step := if i > win.length - keep then i else win.length - keep
        let step := if step = 0 then 1 else step
        let pos' := pos + step
        scanWindowFindings zstd o win pos (win.length + 1) 0 s ++
          if win.length < window ∧ pos' + blockHeaderSize > file.length then []
          else scanFindings window file fuel pos' s'
    else []

/-- The headers that a repair finds, from where its scan starts. -/
def Scan.findings (s : Scan) (file : Bytes) : List Finding :=
  scanFindings zstd o scanWindow file (file.length + 1) s.ctx.hdr.headerSize.toNat s

variable {zstd o}

/-- None of the blocks found was refused. -/
def Unrefused (zstd : Option CodecVt) (o : RepairOpts) (fs : List Finding) : Prop :=
  ∀ h ∈ fs, h.refused zstd o = false

/-- What every header keeps, the inner loop keeps; its flag says whether a block was refused. -/
theorem scanWindowLoop_findings {P : Scan → List Finding → Prop} {win : Bytes} {pos : Nat}
    (keeps : ∀ s fs boff b, P s fs →
      P (Scan.block zstd o s boff b).2.2 (fs ++ [{ scan := s, boff := boff, header := b }]))
    {fuel i : Nat} {s : Scan} {fs : List Finding} (holds : P s fs) :
    P (scanWindowLoop zstd o win pos fuel i s).2.2 (fs ++ scanWindowFindings zstd o win pos fuel i s) ∧
      (scanWindowLoop zstd o win pos fuel i s).1 =
        (scanWindowFindings zstd o win pos fuel i s).all fun h => !h.refused zstd o := by
  induction fuel generalizing i s fs with
  | zero =>
    rw [scanWindowLoop, scanWindowFindings, List.append_nil]
    exact ⟨holds, rfl⟩
  | succ fuel ih =>
    rw [scanWindowLoop, scanWindowFindings]
    split; swap
    · rw [List.append_nil]
      exact ⟨holds, rfl⟩
    cases scanCandidate win i with
    | none => exact ih holds
    | some b =>
      have next := keeps s fs (pos + i) b holds
      have answer : Finding.refused zstd o { scan := s, boff := pos + i, header := b } =
          !(Scan.block zstd o s (pos + i) b).1 := rfl
      dsimp only
      rcases block : Scan.block zstd o s (pos + i) b with ⟨good, adv, s'⟩
      rw [block] at next answer
      rw [List.all_cons, answer]
      cases good with
      | true =>
        -- The scan goes on behind the block.
        obtain ⟨rest, flag⟩ := ih (i := i + adv) next
        rw [List.append_assoc] at rest
        exact ⟨rest, by rw [flag]; rfl⟩
      | false => exact ⟨next, rfl⟩

/-- So does the outer loop, over all windows. -/
theorem scanLoopBy_findings {P : Scan → List Finding → Prop}
    (keeps : ∀ s fs boff b, P s fs →
      P (Scan.block zstd o s boff b).2.2 (fs ++ [{ scan := s, boff := boff, header := b }]))
    (window : Nat) (file : Bytes) (fuel pos : Nat) (good : Bool) {s : Scan} {fs : List Finding}
    (holds : P s fs) :
    P (scanLoopBy zstd window o file fuel pos good s).2
        (fs ++ scanFindings zstd o window file fuel pos s) ∧
      (scanLoopBy zstd window o file fuel pos good s).1 =
        (good && (scanFindings zstd o window file fuel pos s).all fun h => !h.refused zstd o) := by
  -- The induction is on the windows.
  induction fuel generalizing pos good s fs with
  | zero =>
    rw [scanLoopBy, scanFindings, List.append_nil, List.all_nil, Bool.and_true]
    exact ⟨holds, rfl⟩
  | succ fuel ih =>
    have nothing : P s (fs ++ []) ∧ good = (good && [].all fun h => !Finding.refused zstd o h) := by
      rw [List.append_nil, List.all_nil, Bool.and_true]
      exact ⟨holds, rfl⟩
    rw [scanLoopBy, scanFindings]
    split; swap
    · exact nothing
    dsimp only
    generalize (filePread file _ pos).2 = win
    split
    · exact nothing
    -- One window first, and then the windows behind it.
    obtain ⟨within, flag⟩ := @scanWindowLoop_findings zstd o P win pos keeps (win.length + 1) 0 s fs
      holds
    rcases inner : scanWindowLoop zstd o win pos (win.length + 1) 0 s with ⟨wrote, i, s'⟩
    rw [inner] at within flag
    dsimp only at within flag ⊢
    rw [flag]
    generalize pos + _ = pos'
    split
    · rw [List.append_nil]
      exact ⟨within, rfl⟩
    · obtain ⟨rest, flags⟩ := ih pos'
        (good && (scanWindowFindings zstd o win pos (win.length + 1) 0 s).all
          fun h => !h.refused zstd o) within
      rw [flags, ← List.append_assoc]
      refine ⟨rest, ?_⟩
      rw [Bool.and_assoc, List.all_append]

end Findings

section Effects

variable {zstd : Option CodecVt} {o : RepairOpts}

/-- A write puts out at most its bytes. -/
theorem OutFile.write_length (f : OutFile) (buf : Bytes) :
    (f.write buf).2.written.length ≤ f.written.length + buf.length := by
  rw [OutFile.write]
  split
  · dsimp only
    rw [List.length_append]
  · -- A write that fails may have taken some of the bytes.
    dsimp only
    rw [List.length_append, List.length_take]
    omega

theorem Scan.fillLength_le (o : RepairOpts) (s : Scan) (b : BlockHeader) :
    s.fillLength o b ≤ b.rawOffset.toNat - s.expectRaw := by
  rw [Scan.fillLength]
  split
  · exact Nat.le_refl _
  · exact Nat.zero_le _

/-- The gap in front of a block: it is counted whole, and written at most where gaps are filled. -/
theorem Scan.gap_account (o : RepairOpts) (s : Scan) (b : BlockHeader) :
    ∃ out, s.gap o b = { s with
        out := out
        rep := { s.rep with
          gapBytes := s.rep.gapBytes + (b.rawOffset.toNat - s.expectRaw)
          gaps := s.rep.gaps + if s.expectRaw < b.rawOffset.toNat then 1 else 0 } } ∧
      outLength out ≤ outLength s.out + s.fillLength o b := by
  rw [Scan.gap, Scan.fillLength]
  by_cases gap : s.expectRaw < b.rawOffset.toNat
  · rw [if_pos gap, if_pos gap]
    refine ⟨_, rfl, ?_⟩
    split; swap
    · exact Nat.le_refl _
    cases s.out with
    | none => exact Nat.le_add_right _ _
    | some f =>
      -- What is missing of the fill bytes only makes the output shorter.
      obtain ⟨filled, all, written⟩ := fillGap_written o.fillByte
        (b.rawOffset.toNat - s.expectRaw + 1) (b.rawOffset.toNat - s.expectRaw) f
      dsimp only [Option.map_some, outLength, Option.getD_some]
      rw [written, List.length_append, List.length_replicate]
      omega
  · -- With no gap there is nothing to count and nothing to fill.
    have level : b.rawOffset.toNat - s.expectRaw = 0 := by omega
    rw [if_neg gap, if_neg gap, level]
    exact ⟨s.out, rfl, Nat.le_add_right _ _⟩

/-- Placing a block that lies ahead: it is counted when its write succeeds. -/
theorem Scan.place_account {s : Scan} {b : BlockHeader} (ahead : s.expectRaw ≤ b.rawOffset.toNat) :
    ∃ good out, s.place b = (good, { s with
        out := out
        expectRaw := if good then b.rawOffset.toNat + s.ctx.raw.length else s.expectRaw
        rep := { s.rep with
          bytesRecovered := s.rep.bytesRecovered + if good then s.ctx.raw.length else 0 } }) ∧
      outLength out ≤ outLength s.out + s.ctx.raw.length := by
  rw [Scan.place, if_pos ahead]
  cases out : s.out with
  | none =>
    refine ⟨true, none, ?_, Nat.le_add_right _ _⟩
    dsimp only
    rw [if_neg (by simp), if_pos rfl, if_pos rfl]
  | some f =>
    have within := f.write_length s.ctx.raw
    dsimp only
    by_cases wrote : (f.write s.ctx.raw).1 = .ok
    · refine ⟨true, some (f.write s.ctx.raw).2, ?_, within⟩
      rw [if_neg (not_not.mpr wrote), if_pos rfl, if_pos rfl]
    · -- A refused block leaves the expected offset and the count as they are.
      refine ⟨false, some (f.write s.ctx.raw).2, ?_, within⟩
      rw [if_pos wrote]
      rfl

/-- The scan at a header whose block decodes and lies ahead: its gap is counted in any case, and
the block when the output takes it. -/
theorem Scan.block_attempted {s : Scan} {boff : Nat} {b : BlockHeader} {ctx : RepairCtx}
    (decoded : RepairCtx.decodeAt zstd s.ctx boff b = (.ok, ctx))
    (ahead : s.expectRaw ≤ b.rawOffset.toNat) :
    ∃ good adv out, Scan.block zstd o s boff b = (good, adv, {
        ctx := ctx
        out := out
        expectRaw := if good then b.stop else s.expectRaw
        rep := { s.rep with
          blocksFound := s.rep.blocksFound + 1
          blocksOk := s.rep.blocksOk + if good then 1 else 0
          gapBytes := s.rep.gapBytes + (b.rawOffset.toNat - s.expectRaw)
          gaps := s.rep.gaps + if s.expectRaw < b.rawOffset.toNat then 1 else 0
          bytesRecovered := s.rep.bytesRecovered + if good then b.rawSize.toNat else 0 } }) ∧
      outLength out ≤ outLength s.out + s.fillLength o b + b.rawSize.toNat := by
  have size := decodeAt_length decoded
  unfold Scan.block
  dsimp only
  rw [decoded]
  dsimp only
  rw [if_neg (by simp)]
  -- The gap first, from the state with the header counted, and then the block behind it.
  obtain ⟨filled, gap, within⟩ := Scan.gap_account o { s with
    ctx := ctx, rep := { s.rep with blocksFound := s.rep.blocksFound + 1 } } b
  rw [gap]
  obtain ⟨good, out, place, most⟩ := Scan.place_account (s := { s with
    ctx := ctx
    out := filled
    rep := { s.rep with
      blocksFound := s.rep.blocksFound + 1
      gapBytes := s.rep.gapBytes + (b.rawOffset.toNat - s.expectRaw)
      gaps := s.rep.gaps + if s.expectRaw < b.rawOffset.toNat then 1 else 0 } }) ahead
  dsimp only [Scan.fillLength] at within most place ⊢
  rw [place]
  rw [size] at most ⊢
  cases good with
  | true => exact ⟨true, _, out, rfl, by omega⟩
  | false => exact ⟨false, _, out, rfl, by omega⟩

end Effects

section Placements

/-- The blocks follow each other without a gap, from one position to another. -/
def Follows : Nat → List BlockHeader → Nat → Prop
  | start, [], stop => start = stop
  | start, b :: blocks, stop => b.rawOffset.toNat = start ∧ Follows b.stop blocks stop

/-- Where the last of the blocks ends. -/
def reachedBy (start : Nat) (blocks : List BlockHeader) : Nat :=
  (blocks.getLast?.map BlockHeader.stop).getD start

theorem reachedBy_append (start : Nat) (blocks : List BlockHeader) (b : BlockHeader) :
    reachedBy start (blocks ++ [b]) = b.stop := by
  rw [reachedBy, List.getLast?_append]
  rfl

theorem Follows.append_iff {start stop : Nat} {blocks : List BlockHeader} {b : BlockHeader} :
    Follows start (blocks ++ [b]) stop ↔
      Follows start blocks b.rawOffset.toNat ∧ b.stop = stop := by
  -- The induction is on the blocks in front.
  induction blocks generalizing start with
  | nil =>
    rw [List.nil_append, Follows, Follows, Follows]
    exact and_congr_left fun _ => eq_comm
  | cons first blocks ih => rw [List.cons_append, Follows, Follows, ih, and_assoc]

/-- Blocks that follow each other end where the last one does. -/
theorem Follows.reached {start stop : Nat} {blocks : List BlockHeader}
    (follows : Follows start blocks stop) : reachedBy start blocks = stop := by
  -- The induction is from the end, since only the last block counts.
  induction blocks using List.reverseRecOn with
  | nil => exact follows
  | append_singleton blocks b _ =>
    rw [reachedBy_append]
    exact (Follows.append_iff.mp follows).2

/-- The sums of a report, when every block attempted has been placed. -/
structure Scan.Settled (s : Scan) (blocks : List BlockHeader) : Prop where
  reached : s.expectRaw = reachedBy 0 blocks
  ordered : ∀ b ∈ blocks, b.stop ≤ s.expectRaw
  offset : s.rep.bytesRecovered + s.rep.gapBytes = s.expectRaw
  within : outLength s.out ≤ s.expectRaw
  gapless : s.rep.gaps = 0 ↔ Follows 0 blocks s.expectRaw
  gapBytes : s.rep.gaps = 0 → s.rep.gapBytes = 0

/-- One more block in its place, with the gap in front of it counted. -/
theorem Scan.Settled.place {s s' : Scan} {blocks : List BlockHeader} {b : BlockHeader}
    (settled : s.Settled blocks) (ahead : s.expectRaw ≤ b.rawOffset.toNat)
    (expect : s'.expectRaw = b.stop)
    (recovered : s'.rep.bytesRecovered = s.rep.bytesRecovered + b.rawSize.toNat)
    (gapBytes : s'.rep.gapBytes = s.rep.gapBytes + (b.rawOffset.toNat - s.expectRaw))
    (gaps : s'.rep.gaps = s.rep.gaps + if s.expectRaw < b.rawOffset.toNat then 1 else 0)
    (longer : outLength s'.out ≤
      outLength s.out + (b.rawOffset.toNat - s.expectRaw) + b.rawSize.toNat) :
    s'.Settled (blocks ++ [b]) := by
  have stop : b.stop = b.rawOffset.toNat + b.rawSize.toNat := rfl
  have offset := settled.offset
  have within := settled.within
  refine ⟨?_, ?_, by omega, by omega, ?_, ?_⟩
  · rw [expect, reachedBy_append]
  · intro other member
    rcases List.mem_append.mp member with before | here
    · have := settled.ordered other before
      omega
    · rw [List.mem_singleton.mp here, expect]
  · -- No gap is counted exactly when there was none and this block begins where the last ended.
    rw [gaps, expect, Follows.append_iff, and_iff_left rfl]
    constructor
    · intro none
      have level : s.expectRaw = b.rawOffset.toNat := by
        by_contra apart
        rw [if_pos (by omega)] at none
        omega
      rw [← level]
      exact settled.gapless.mp (by omega)
    · intro follows
      have level : s.expectRaw = b.rawOffset.toNat := by
        rw [settled.reached, follows.reached]
      rw [if_neg (by omega), settled.gapless.mpr (level ▸ follows)]
  · intro none
    have level : ¬ s.expectRaw < b.rawOffset.toNat := by
      intro gap
      rw [gaps, if_pos gap] at none
      omega
    rw [gapBytes, settled.gapBytes (by omega)]
    omega

end Placements

section Accounts

variable {zstd : Option CodecVt} {o : RepairOpts}

/-- The headers of the blocks placed. -/
def placedBlocks (zstd : Option CodecVt) (o : RepairOpts) (fs : List Finding) : List BlockHeader :=
  (fs.filter fun h => h.placed zstd o).map Finding.header

/-- The account of a run of the scan that has found these headers. -/
structure Scan.Account (zstd : Option CodecVt) (o : RepairOpts) (s : Scan) (fs : List Finding) :
    Prop where
  found : s.rep.blocksFound = fs.length
  okay : s.rep.blocksOk = fs.countP fun h => h.decodes zstd && !h.refused zstd o
  bad : s.rep.blocksBad = fs.countP fun h => !h.decodes zstd
  output : ∀ size, (∀ h ∈ fs, h.attempted zstd = true → h.room o ≤ size) → outLength s.out ≤ size
  settled : Unrefused zstd o fs → s.Settled (placedBlocks zstd o fs)

theorem placedBlocks_append (fs : List Finding) (h : Finding) :
    placedBlocks zstd o (fs ++ [h]) =
      placedBlocks zstd o fs ++ if h.placed zstd o then [h.header] else [] := by
  -- Whether the last finding has been placed decides if its header is counted.
  rw [placedBlocks, placedBlocks, List.filter_append, List.map_append]
  congr 1
  cases placed : h.placed zstd o with
  | true => rw [List.filter_cons_of_pos placed]; rfl
  | false => rw [List.filter_cons_of_neg (by simp [placed])]; rfl

/-- One more header whose block is not placed: the counts, the sums and the output stay, but for
the count the header itself goes into. -/
theorem Scan.Account.unplaced {s s' : Scan} {fs : List Finding} {h : Finding}
    (account : s.Account zstd o fs) (taken : h.refused zstd o = false)
    (unplaced : h.placed zstd o = false)
    (found : s'.rep.blocksFound = s.rep.blocksFound + 1)
    (okay : s'.rep.blocksOk = s.rep.blocksOk + if h.decodes zstd then 1 else 0)
    (bad : s'.rep.blocksBad = s.rep.blocksBad + if h.decodes zstd then 0 else 1)
    (kept : s'.out = s.out ∧ s'.expectRaw = s.expectRaw ∧
      s'.rep.bytesRecovered = s.rep.bytesRecovered ∧ s'.rep.gapBytes = s.rep.gapBytes ∧
      s'.rep.gaps = s.rep.gaps) : s'.Account zstd o (fs ++ [h]) := by
  obtain ⟨out, expect, recovered, gapBytes, gaps⟩ := kept
  refine ⟨?_, ?_, ?_, fun size check => ?_, fun fine => ?_⟩
  · rw [found, account.found, List.length_append, List.length_singleton]
  · rw [okay, account.okay, List.countP_append, List.countP_singleton, taken]
    simp
  · rw [bad, account.bad, List.countP_append, List.countP_singleton]
    cases h.decodes zstd <;> rfl
  · -- The header writes nothing.
    rw [out]
    exact account.output size fun g member => check g (List.mem_append_left _ member)
  · obtain ⟨reached, ordered, offset, within, gapless, none⟩ :=
      account.settled fun g member => fine g (List.mem_append_left _ member)
    rw [placedBlocks_append, unplaced, if_neg (by simp), List.append_nil]
    exact ⟨by rw [expect, reached], by rwa [expect], by rw [recovered, gapBytes, offset, expect],
      by rwa [out, expect], by rwa [gaps, expect], by rwa [gaps, gapBytes]⟩

/-- One header: whatever becomes of it, the account stays right. -/
theorem Scan.Account.block {s : Scan} {fs : List Finding} (account : s.Account zstd o fs)
    (boff : Nat) (b : BlockHeader) :
    (Scan.block zstd o s boff b).2.2.Account zstd o
      (fs ++ [{ scan := s, boff := boff, header := b }]) := by
  generalize finding : ({ scan := s, boff := boff, header := b } : Finding) = h
  have block : h.block zstd o = Scan.block zstd o s boff b := by rw [← finding]; rfl
  have decodes : h.decodes zstd = decide ((RepairCtx.decodeAt zstd s.ctx boff b).1 = .ok) := by
    rw [← finding]
    rfl
  have here : h.scan = s := by rw [← finding]
  have header : h.header = b := by rw [← finding]
  rcases decoded : RepairCtx.decodeAt zstd s.ctx boff b with ⟨ds, ctx⟩
  rw [decoded] at decodes
  by_cases good : ds = .ok
  swap
  · -- A block that does not decode is counted as bad.
    have answer := Scan.block_damaged (o := o) decoded good
    have broken : h.decodes zstd = false := by rw [decodes]; exact decide_eq_false good
    refine account.unplaced ?_ ?_ ?_ ?_ ?_ ?_
    · rw [Finding.refused, block, answer]; rfl
    · rw [Finding.placed, Finding.attempted, broken]; rfl
    all_goals rw [answer]
    · rw [broken]; rfl
    · rw [broken]; rfl
    · exact ⟨rfl, rfl, rfl, rfl, rfl⟩
  subst good
  have fine : h.decodes zstd = true := by rw [decodes]; rfl
  by_cases ahead : s.expectRaw ≤ b.rawOffset.toNat
  swap
  · -- A block that lies before what has been written is counted, but not placed.
    have answer := Scan.block_skipped (o := o) decoded (Nat.not_le.mp ahead)
    refine account.unplaced ?_ ?_ ?_ ?_ ?_ ?_
    · rw [Finding.refused, block, answer]; rfl
    · rw [Finding.placed, Finding.attempted, here, header, decide_eq_false ahead, Bool.and_false]
      rfl
    all_goals rw [answer]
    · rw [fine]; rfl
    · rw [fine]; rfl
    · exact ⟨rfl, rfl, rfl, rfl, rfl⟩
  obtain ⟨accepted, adv, out, answer, within⟩ := Scan.block_attempted (o := o) decoded ahead
  have refused : h.refused zstd o = !accepted := by rw [Finding.refused, block, answer]
  have attempted : h.attempted zstd = true := by
    rw [Finding.attempted, fine, here, header, decide_eq_true ahead]
    rfl
  have placed : h.placed zstd o = accepted := by
    rw [Finding.placed, attempted, refused, Bool.not_not, Bool.true_and]
  rw [answer]
  refine ⟨?_, ?_, ?_, fun size check => ?_, fun unrefused => ?_⟩
  · dsimp only
    rw [account.found, List.length_append, List.length_singleton]
  · dsimp only
    rw [account.okay, List.countP_append, List.countP_singleton, fine, refused, Bool.not_not]
    rfl
  · dsimp only
    rw [account.bad, List.countP_append, List.countP_singleton, fine]
    rfl
  · -- What the output has taken is no more than the room that was asked for.
    have room := check h (List.mem_append_right _ (List.mem_singleton_self h)) attempted
    rw [Finding.room, here, header] at room
    exact Nat.le_trans within room
  · -- With no block refused, this one has been placed.
    have taken := unrefused h (List.mem_append_right _ (List.mem_singleton_self h))
    rw [refused, Bool.not_eq_false'] at taken
    subst taken
    rw [placedBlocks_append, placed, if_pos rfl, header]
    exact (account.settled fun g member => unrefused g (List.mem_append_left _ member)).place ahead
      rfl rfl rfl rfl (Nat.le_trans within (by have := s.fillLength_le o b; omega))

end Accounts

section Files

variable {zstd : Option CodecVt} {file : Bytes} {fails : Option (Nat → Option Nat)} {s : Scan}

/-- The scan starts with nothing found and nothing written. -/
theorem Scan.Account.start (start : repairStart zstd file (fails.map freshOutput) = .ok s)
    (o : RepairOpts) : s.Account zstd o [] := by
  -- The output is fresh, so it is as long as what has been written.
  have empty : outLength (fails.map freshOutput) = 0 := by
    cases fails with
    | none => rfl
    | some fails => rfl
  rw [repairStart] at start
  split at start
  · cases start
  obtain rfl := Except.ok.inj start
  exact ⟨rfl, rfl, rfl, fun size _ => empty ▸ Nat.zero_le size,
    fun _ => ⟨rfl, fun _ member => (by cases member), rfl, le_of_eq empty,
      ⟨fun _ => rfl, fun _ => rfl⟩, fun _ => rfl⟩⟩

/-- A repair ends with a report of what its scan has found. -/
theorem repairFile_account (start : repairStart zstd file (fails.map freshOutput) = .ok s)
    (opts : Option RepairOpts) :
    let o := opts.getD { fillGaps := false, fillByte := 0 }
    ∃ (good : Bool) (s' : Scan), s'.Account zstd o (s.findings zstd o file) ∧
      (good = true ↔ Unrefused zstd o (s.findings zstd o file)) ∧
      repairFile zstd file (fails.map freshOutput) opts =
        (if ¬ good then .io else if s'.rep.blocksBad ≠ 0 then .corruptBlock else .ok,
          { s'.rep with rawSizeExpected :=
              if s.ctx.hdr.rawSize = sizeUnknown then 0 else s.ctx.hdr.rawSize.toNat },
          s'.out) := by
  dsimp only
  generalize options : opts.getD { fillGaps := false, fillByte := 0 } = o
  have run := @scanLoopBy_findings zstd o (Scan.Account zstd o)
    (fun _ _ boff b account => account.block boff b) scanWindow file (file.length + 1)
    s.ctx.hdr.headerSize.toNat true s [] (.start start o)
  rw [← scanLoop_eq, List.nil_append, Bool.true_and] at run
  rw [Scan.findings]
  rcases scanned : scanLoop zstd o file (file.length + 1) s.ctx.hdr.headerSize.toNat true s with
    ⟨good, s'⟩
  rw [scanned] at run
  obtain ⟨account, flag⟩ := run
  dsimp only at account flag
  refine ⟨good, s', account, ?_, repairFile_scan start opts (options ▸ scanned)⟩
  -- The loop's flag stands exactly when no block was refused.
  rw [flag, List.all_eq_true, Unrefused]
  simp only [Bool.not_eq_true']

/-- A repair that succeeds has recovered everything: for a file of known size, it has put out as
many bytes as the header says, and met no gap. -/
def RepairComplete (zstd : Option CodecVt) (file : Bytes) (fails : Option (Nat → Option Nat))
    (opts : Option RepairOpts) : Prop :=
  ∀ s, repairStart zstd file (fails.map freshOutput) = .ok s → s.ctx.hdr.rawSize ≠ sizeUnknown →
    (repairFile zstd file (fails.map freshOutput) opts).1 = .ok →
    (repairFile zstd file (fails.map freshOutput) opts).2.1.bytesRecovered =
        s.ctx.hdr.rawSize.toNat ∧
      (repairFile zstd file (fails.map freshOutput) opts).2.1.gaps = 0

/-- A file of a declared size whose only block, of one byte, belongs five bytes into the output. -/
def sizedGapFile (rawSize : UInt64) : Bytes :=
  fmtHeaderStore
      { formatMajor := 1, formatMinor := 0, headerSize := 32, flags := 0, codecId := 0, level := 1
        checksumId := 0, blockSizeLog := 12, rawSize := rawSize } ++
    fmtBlockStore { bflags := 1, codecId := 0, storedSize := 1, rawSize := 1, rawOffset := 5 } ++ [65]

theorem repairStart_sizedGap (rawSize : UInt64) (small : rawSize = 6 ∨ rawSize = 3) :
    ∃ s, repairStart none (sizedGapFile rawSize) none = .ok s ∧ s.ctx.hdr.rawSize = rawSize := by
  -- Either header is evaluated.
  have run : (repairStart none (sizedGapFile rawSize) none).toOption.map
      (fun s => s.ctx.hdr.rawSize) = some rawSize := by
    rcases small with rfl | rfl
    · decide +kernel
    · decide +kernel
  cases start : repairStart none (sizedGapFile rawSize) none with
  | error st =>
    rw [start] at run
    cases run
  | ok s =>
    rw [start] at run
    exact ⟨s, rfl, Option.some.inj run⟩

theorem repairFile_sizedGap : (repairFile none (sizedGapFile 6) none none).1 = .ok ∧
    (repairFile none (sizedGapFile 6) none none).2.1.gaps = 1 := by decide +kernel

/-- Where the block in front is lost, what is left of the file still repairs with success. -/
theorem repair_incomplete : ¬ RepairComplete none (sizedGapFile 6) none none := by
  -- Six bytes are declared, a block of one is left, and the report counts a gap.
  intro complete
  obtain ⟨status, gaps⟩ := repairFile_sizedGap
  obtain ⟨s, start, declared⟩ := repairStart_sizedGap 6 (.inl rfl)
  have none := (complete s start (by rw [declared]; decide) status).2
  rw [Option.map_none] at none
  rw [none] at gaps
  cases gaps

/--
What the success of a repair says of a file of known size.

Every block whose header was found has decoded.
What is lost shows in the report: the bytes recovered and those of gaps end where the last block
placed does, and they are the whole stream, with no gap, exactly when the blocks placed follow each
other from its beginning to its end.
-/
theorem repair_ok_account (start : repairStart zstd file (fails.map freshOutput) = .ok s)
    (known : s.ctx.hdr.rawSize ≠ sizeUnknown) (opts : Option RepairOpts)
    (good : (repairFile zstd file (fails.map freshOutput) opts).1 = .ok) :
    let o := opts.getD { fillGaps := false, fillByte := 0 }
    let rep := (repairFile zstd file (fails.map freshOutput) opts).2.1
    let blocks := placedBlocks zstd o (s.findings zstd o file)
    (∀ h ∈ s.findings zstd o file, h.decodes zstd = true) ∧
      rep.blocksBad = 0 ∧ rep.blocksFound = rep.blocksOk ∧
      rep.rawSizeExpected = s.ctx.hdr.rawSize.toNat ∧
      rep.bytesRecovered + rep.gapBytes = reachedBy 0 blocks ∧
      (rep.bytesRecovered = s.ctx.hdr.rawSize.toNat ∧ rep.gaps = 0 ↔
        Follows 0 blocks s.ctx.hdr.rawSize.toNat) := by
  dsimp only
  obtain ⟨flag, s', account, unrefused, result⟩ := repairFile_account start opts
  generalize opts.getD { fillGaps := false, fillByte := 0 } = o at account unrefused ⊢
  generalize s.findings zstd o file = fs at account unrefused ⊢
  rw [result] at good ⊢
  rw [if_neg known]
  dsimp only at good ⊢
  -- Success rules out both a refused block and a bad one.
  have stands : flag = true := by
    by_contra fallen
    rw [if_pos fallen] at good
    cases good
  rw [if_neg (not_not.mpr stands)] at good
  have none : s'.rep.blocksBad = 0 := by
    by_contra some
    rw [if_pos some] at good
    cases good
  have fine := unrefused.mp stands
  have decoded : ∀ h ∈ fs, h.decodes zstd = true := by
    have bad := account.bad
    rw [none, eq_comm, List.countP_eq_zero] at bad
    intro h member
    simpa using bad h member
  obtain ⟨reached, ordered, offset, within, gapless, gapBytes⟩ := account.settled fine
  refine ⟨decoded, none, ?_, rfl, by rw [offset, reached], ?_, ?_⟩
  · rw [account.found, account.okay, eq_comm, List.countP_eq_length]
    intro h member
    rw [decoded h member, fine h member]
    rfl
  · -- Where all bytes are there and no gap is, the blocks follow each other.
    rintro ⟨all, nothing⟩
    have level : s'.expectRaw = s.ctx.hdr.rawSize.toNat := by
      rw [← offset, gapBytes nothing, all]
      rfl
    rw [← level]
    exact gapless.mp nothing
  · intro follows
    -- Blocks that follow each other to the end of the stream have taken the scan there.
    have level : s'.expectRaw = s.ctx.hdr.rawSize.toNat := by rw [reached, follows.reached]
    have nothing := gapless.mpr (level ▸ follows)
    exact ⟨by rw [← level, ← offset, gapBytes nothing]; rfl, nothing⟩

/-- A file that has lost its front repairs with success, and its report tells of the loss. -/
theorem repair_ok_account_gap : ∃ s, repairStart none (sizedGapFile 6) none = .ok s ∧
    ¬ Follows 0 (placedBlocks none { fillGaps := false, fillByte := 0 }
      (s.findings none { fillGaps := false, fillByte := 0 } (sizedGapFile 6)))
      s.ctx.hdr.rawSize.toNat := by
  obtain ⟨status, gaps⟩ := repairFile_sizedGap
  obtain ⟨s, start, declared⟩ := repairStart_sizedGap 6 (.inl rfl)
  obtain ⟨_, _, _, _, _, whole⟩ := @repair_ok_account none (sizedGapFile 6) none s start
    (by rw [declared]; decide) none status
  refine ⟨s, start, fun follows => ?_⟩
  -- Were nothing lost, there would be no gap.
  have nothing := (whole.mpr follows).2
  rw [Option.map_none] at nothing
  rw [nothing] at gaps
  cases gaps

end Files

end Xq
