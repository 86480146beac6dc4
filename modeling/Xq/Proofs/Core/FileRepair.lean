import Xq.Proofs.Core.BlockBuffers
import Xq.Proofs.Core.FileDamage
import Xq.Proofs.Core.RepairScan

/-! Repair of a finished file, as it is or damaged: the scan comes to every block, puts out the sound
ones, and accounts for the others. -/

namespace Xq

open Lib

section Walking

variable {zstd : Option CodecVt} {o : RepairOpts} {file : Bytes}

/-- One scan over the whole file goes on from one offset and state to another. -/
def ScanGoes (zstd : Option CodecVt) (o : RepairOpts) (file : Bytes) (off : Nat) (s : Scan)
    (off' : Nat) (s' : Scan) : Prop :=
  ∀ tests, ∃ tests', ∀ r, Ends (wholeRound zstd o file) (off', s', tests') r →
    Ends (wholeRound zstd o file) (off, s, tests) r

theorem ScanGoes.refl (off : Nat) (s : Scan) : ScanGoes zstd o file off s off s :=
  fun tests => ⟨tests, fun _ ends => ends⟩

theorem ScanGoes.trans {off off' off'' : Nat} {s s' s'' : Scan}
    (goes : ScanGoes zstd o file off s off' s') (on : ScanGoes zstd o file off' s' off'' s'') :
    ScanGoes zstd o file off s off'' s'' := by
  -- The tests of the second part come behind those of the first.
  intro tests
  obtain ⟨tests', first⟩ := goes tests
  obtain ⟨tests'', second⟩ := on tests'
  exact ⟨tests'', fun r ends => first r (second r ends)⟩

/-- Where no header stands, the scan goes on byte by byte. -/
theorem scanGoes_clear (s : Scan) {off off' : Nat} (le : off ≤ off')
    (clear : ∀ k, off ≤ k → k < off' →
      k + blockHeaderSize ≤ file.length ∧ scanCandidate file k = none) :
    ScanGoes zstd o file off s off' s := by
  -- The induction is on the bytes to go.
  induction off', le using Nat.le_induction with
  | base => exact .refl off s
  | succ k from_ ih =>
    refine (ih fun k from_ below => clear k from_ (by omega)).trans fun tests => ?_
    obtain ⟨inside, none⟩ := clear k from_ (by omega)
    refine ⟨tests ++ [(k, .nonHeader)], fun r ends => .again ?_ ends⟩
    rw [wholeRound, if_pos inside, none]

/-- A header takes the scan on as far as its block says. -/
theorem scanGoes_header {off adv : Nat} {s s' : Scan} {b : BlockHeader}
    (inside : off + blockHeaderSize ≤ file.length) (found : scanCandidate file off = some b)
    (writes : WritesSucceed s.out) (block : Scan.block zstd o s off b = (true, adv, s')) :
    ScanGoes zstd o file off s (off + adv) s' := by
  -- One round of the scan comes to the header and makes its step.
  intro tests
  have round := wholeRound_header zstd o inside found writes tests
  rw [block] at round
  exact ⟨_, fun r ends => .again round ends⟩

/-- Behind the last header that would be whole, the scan is over. -/
theorem ScanGoes.ends {off off' : Nat} {s s' : Scan} (goes : ScanGoes zstd o file off s off' s')
    (past : file.length < off' + blockHeaderSize) (tests : Tests) :
    ∃ tests', Ends (wholeRound zstd o file) (off, s, tests) (s', tests') := by
  -- The test of the loop fails there.
  obtain ⟨tests', on⟩ := goes tests
  refine ⟨tests', on _ (.done ?_)⟩
  rw [wholeRound, if_neg (by omega)]

end Walking

section Writing

variable {zstd : Option CodecVt} {o : RepairOpts}

/-- An output takes some more bytes, and goes on taking them. -/
structure Puts (out out' : Option OutFile) (bytes : Bytes) : Prop where
  writes : WritesSucceed out'
  written : out'.map OutFile.written = out.map fun f => f.written ++ bytes

theorem Puts.nothing {out : Option OutFile} (writes : WritesSucceed out) : Puts out out [] := by
  -- The empty list changes no output.
  refine ⟨writes, ?_⟩
  cases out with
  | none => rfl
  | some f => rw [Option.map_some, Option.map_some, List.append_nil]

theorem Puts.trans {out out' out'' : Option OutFile} {a b : Bytes} (first : Puts out out' a)
    (second : Puts out' out'' b) : Puts out out'' (a ++ b) := by
  -- Without an output there is nothing to compare.
  refine ⟨second.writes, ?_⟩
  have contents := first.written
  rw [second.written]
  cases out with
  | none =>
    cases out' with
    | none => rfl
    | some f => cases contents
  | some f =>
    cases out' with
    | none => cases contents
    | some g =>
      have same : g.written = f.written ++ a := Option.some.inj contents
      rw [Option.map_some, Option.map_some, same, List.append_assoc]

/-- A write that does not fail. -/
theorem Puts.write {f : OutFile} (writes : WritesSucceed (some f)) (bytes : Bytes) :
    (f.write bytes).1 = .ok ∧ Puts (some f) (some (f.write bytes).2) bytes := by
  -- The write before has not changed which writes fail.
  rw [OutFile.write, writes f rfl]
  refine ⟨rfl, fun g here call => ?_, rfl⟩
  obtain rfl := Option.some.inj here
  exact writes f rfl call

/-- A gap is filled when no write fails. -/
theorem Puts.fillGap (fillByte : UInt8) {fuel remain : Nat} {f : OutFile}
    (writes : WritesSucceed (some f)) (enough : remain < fuel) :
    Puts (some f) (some (fillGap fillByte fuel remain f)) (List.replicate remain fillByte) := by
  -- The induction is on the chunks.
  induction fuel generalizing remain f with
  | zero => omega
  | succ fuel ih =>
    rw [Xq.fillGap]
    by_cases none : remain = 0
    · rw [if_pos none, none]
      exact .nothing writes
    rw [if_neg none]
    dsimp only
    have positive : 0 < fillChunk := by decide
    generalize sized : (if remain < fillChunk then remain else fillChunk) = chunk
    have within : 0 < chunk ∧ chunk ≤ remain := by
      subst sized
      split <;> omega
    obtain ⟨wrote, puts⟩ := Puts.write writes (List.replicate chunk fillByte)
    generalize f.write (List.replicate chunk fillByte) = answer at wrote puts
    obtain ⟨st, g⟩ := answer
    obtain rfl : st = .ok := wrote
    have rest := puts.trans (ih puts.writes (show remain - chunk < fuel by omega))
    rwa [List.replicate_append_replicate, Nat.add_sub_cancel' within.2] at rest

/-- The gap in front of a block is counted, and filled where that is asked for. -/
theorem Scan.gap_puts (o : RepairOpts) (s : Scan) (writes : WritesSucceed s.out) (b : BlockHeader) :
    ∃ out, Puts s.out out
        (if o.fillGaps then List.replicate (b.rawOffset.toNat - s.expectRaw) o.fillByte else []) ∧
      s.gap o b = { s with
        out := out
        rep := { s.rep with
          gapBytes := s.rep.gapBytes + (b.rawOffset.toNat - s.expectRaw)
          gaps := s.rep.gaps + if b.rawOffset.toNat > s.expectRaw then 1 else 0 } } := by
  rw [Scan.gap]
  by_cases gap : b.rawOffset.toNat > s.expectRaw
  · -- The block lies behind what is expected.
    rw [if_pos gap, if_pos gap]
    dsimp only
    refine ⟨_, ?_, rfl⟩
    by_cases fills : o.fillGaps
    · rw [if_pos fills, if_pos fills]
      cases out : s.out with
      | none => exact ⟨fun f wrong => (by cases wrong), rfl⟩
      | some f => exact Puts.fillGap o.fillByte (out ▸ writes) (Nat.lt_succ_self _)
    · rw [if_neg fills, if_neg fills]
      exact .nothing writes
  · -- There is no gap.
    have level : b.rawOffset.toNat - s.expectRaw = 0 := by omega
    rw [if_neg gap, if_neg gap, level, List.replicate_zero, ite_self]
    exact ⟨s.out, .nothing writes, rfl⟩

/-- A block that does not lie before what has been written is put in its place. -/
theorem Scan.place_puts (s : Scan) (writes : WritesSucceed s.out) {b : BlockHeader}
    (ahead : s.expectRaw ≤ b.rawOffset.toNat) :
    ∃ out, Puts s.out out s.ctx.raw ∧ s.place b = (true, { s with
      out := out
      rep := { s.rep with bytesRecovered := s.rep.bytesRecovered + s.ctx.raw.length }
      expectRaw := b.rawOffset.toNat + s.ctx.raw.length }) := by
  -- A write that succeeds puts out the whole block.
  rw [Scan.place, if_pos ahead]
  cases out : s.out with
  | none =>
    dsimp only
    rw [if_neg (by simp)]
    exact ⟨none, ⟨fun f wrong => (by cases wrong), rfl⟩, rfl⟩
  | some f =>
    obtain ⟨wrote, puts⟩ := Puts.write (out ▸ writes) s.ctx.raw
    dsimp only
    rw [if_neg (not_not.mpr wrote)]
    exact ⟨_, puts, rfl⟩

/-- The scan at a header whose block decodes. -/
theorem Scan.block_sound (o : RepairOpts) {s : Scan} {boff : Nat} {b : BlockHeader} {ctx : RepairCtx}
    (decoded : RepairCtx.decodeAt zstd s.ctx boff b = (.ok, ctx)) (writes : WritesSucceed s.out)
    (ahead : s.expectRaw ≤ b.rawOffset.toNat) :
    ∃ out, Puts s.out out ((if o.fillGaps then
        List.replicate (b.rawOffset.toNat - s.expectRaw) o.fillByte else []) ++ ctx.raw) ∧
      Scan.block zstd o s boff b =
        (true, blockHeaderSize + b.storedSize.toNat + ctx.checksumLen,
          { ctx := ctx, out := out, expectRaw := b.rawOffset.toNat + ctx.raw.length
            rep := { s.rep with
              blocksFound := s.rep.blocksFound + 1, blocksOk := s.rep.blocksOk + 1
              gapBytes := s.rep.gapBytes + (b.rawOffset.toNat - s.expectRaw)
              gaps := s.rep.gaps + if b.rawOffset.toNat > s.expectRaw then 1 else 0
              bytesRecovered := s.rep.bytesRecovered + ctx.raw.length } }) := by
  -- First the gap is dealt with, and then the block goes out.
  obtain ⟨out, gapped, gap⟩ := Scan.gap_puts o
    { s with ctx := ctx, rep := { s.rep with blocksFound := s.rep.blocksFound + 1 } } writes b
  obtain ⟨out', placed, place⟩ := Scan.place_puts
    { s with
      ctx := ctx, out := out
      rep := { s.rep with
        blocksFound := s.rep.blocksFound + 1
        gapBytes := s.rep.gapBytes + (b.rawOffset.toNat - s.expectRaw)
        gaps := s.rep.gaps + if b.rawOffset.toNat > s.expectRaw then 1 else 0 } }
    gapped.writes ahead
  refine ⟨out', gapped.trans placed, ?_⟩
  unfold Scan.block
  dsimp only
  rw [decoded]
  dsimp only
  rw [if_neg (by simp), gap]
  dsimp only
  rw [place]

end Writing

section Blocks

variable {zstd : Option CodecVt} {c : Container} {codec : CodecVt} {GoodD : Dctx → Prop}
  {size : Nat} {xs : Bytes} {dict : Option XqDict} {ddict : Option Ddict}

/-- A repair context that stands ready for the blocks of a file. -/
structure RepairCtx.Ready (c : Container) (codec : CodecVt) (GoodD : Dctx → Prop) (size : Nat)
    (ddict : Option Ddict) (ctx : RepairCtx) : Prop where
  file : ctx.file = c.bytes
  hdr : ctx.hdr = c.header
  checksumLen : ctx.checksumLen = fmtChecksumSize c.header.checksumId
  maxRaw : ctx.maxRaw = size
  dctx : GoodD ctx.dctx
  ddict : ctx.ddict = ddict
  stagingCap : ctx.stagingCap = blockHeaderSize + codec.bound size + 8

/-- The scan sees the header of a block. -/
theorem FileBlock.Stands.candidate {b : FileBlock} {i : Nat} (stands : b.Stands c i) :
    c.position i + blockHeaderSize ≤ c.bytes.length ∧
      scanCandidate c.bytes (c.position i) = some b.header := by
  have length := stands.length
  have within := stands.within
  have header : blockHeaderSize ≤ b.bytes.length := by omega
  -- The bytes at the position begin with those of the block.
  have front : (c.bytes.drop (c.position i)).take blockHeaderSize =
      b.bytes.take blockHeaderSize := by
    rw [← stands.bytes, List.take_take, Nat.min_eq_left header]
  have magic : ld16le c.bytes (c.position i) = blockMagic := by
    have sealed := (fmtBlockStore_sealed b.header (b.payload ++ b.ck)).1
    rw [← List.append_assoc] at sealed
    have size : blockHeaderSize = 24 := rfl
    have byte (k : Nat) (less : k < blockHeaderSize) :
        ld8 c.bytes (c.position i + k) = ld8 b.bytes k := by
      rw [← ld8_drop, ← ld8_take less, front, ld8_take less]
    have second := byte 1 (by omega)
    have first := byte 0 (by omega)
    rw [Nat.add_zero] at first
    rw [ld16le, first, second]
    exact sealed
  refine ⟨by omega, ?_⟩
  rw [scanCandidate, if_neg (not_not.mpr magic), front, stands.parsed]

/-- A block decodes to its piece of what the file is over, unless its checksum gives it away. -/
theorem RepairCtx.Ready.decodeAt {ctx : RepairCtx} (ready : ctx.Ready c codec GoodD size ddict)
    (keeps : c.Keeps zstd codec GoodD size xs dict ddict) (small : c.bytes.length < 2 ^ 63)
    {i : Nat} {b : FileBlock} {raw : Bytes} (here : (allBlocks size xs)[i]? = some raw)
    (block : c.blocks[i]? = some b) :
    ∃ ctx' : RepairCtx, ctx'.Ready c codec GoodD size ddict ∧
      RepairCtx.decodeAt zstd ctx (c.position i) b.header =
        (if blockChecksumOk c.header b.payload b.ck then .ok else .corruptBlock, ctx') ∧
      (blockChecksumOk c.header b.payload b.ck → ctx'.raw = raw) := by
  have kept : b.Keeps zstd c.header GoodD ddict raw := by
    obtain ⟨inside, rfl⟩ := List.getElem?_eq_some_iff.mp here
    obtain ⟨inside', rfl⟩ := List.getElem?_eq_some_iff.mp block
    exact (List.forall₂_iff_get.mp keeps.kept).2 i inside inside'
  have stands := kept.stands block
  have within := stands.within
  have fits : raw.length ≤ size := (mem_allBlocks xs (List.mem_of_getElem? here) keeps.positive).2
  have bound := keeps.bound
  have shrinks := kept.shrinks
  have checksum := fmtChecksumSize_le c.header.checksumId
  have ck := kept.ck
  have length := stands.length
  have total : blockHeaderSize + b.payload.length + fmtChecksumSize c.header.checksumId =
      b.bytes.length := by omega
  -- Every test in front of the checksum passes.
  have decode : RepairCtx.decodeBlockAt zstd ctx (c.position i) b.header =
      if ¬ blockChecksumOk c.header b.payload b.ck then blockRefused .corruptBlock ctx.dctx
      else
        (blockFinish b.header (blockPayload zstd ctx.dctx ddict size b.header b.payload),
          blockPayload zstd ctx.dctx ddict size b.header b.payload) := by
    have inside : rangeOk (UInt64.ofNat (c.position i)) (UInt64.ofNat b.bytes.length)
        (UInt64.ofNat c.bytes.length) :=
      (rangeOk_iff (by omega) (by omega) (by omega)).mpr within.le
    rw [RepairCtx.decodeBlockAt]
    dsimp only
    rw [kept.storedSize, ready.checksumLen, total, ready.stagingCap, ready.file,
      if_neg (by omega), if_neg (not_not.mpr inside), filePread,
      if_neg (by rintro ⟨_, far⟩; omega), stands.bytes]
    dsimp only
    rw [if_neg (not_not.mpr rfl), stands.payload, stands.ck, ready.hdr, ready.ddict, ready.maxRaw]
  by_cases sealed : blockChecksumOk c.header b.payload b.ck
  · -- The checksum holds, so the payload decodes to its block.
    obtain ⟨status, written, good⟩ := kept.decodes sealed ctx.dctx size ready.dctx fits
    have finish : blockFinish b.header (blockPayload zstd ctx.dctx ddict size b.header b.payload) =
        .ok := by
      rw [blockFinish, if_neg (not_not.mpr status), written, kept.rawSize,
        if_neg (not_not.mpr rfl)]
    rw [if_neg (not_not.mpr sealed), finish] at decode
    rw [RepairCtx.decodeAt, decode, if_pos sealed]
    refine ⟨_, ?_, rfl, fun _ => written⟩
    exact { ready with dctx := good }
  · -- It does not, and the context is as it was.
    rw [if_pos sealed, blockRefused] at decode
    rw [RepairCtx.decodeAt, decode, if_neg sealed]
    refine ⟨_, ?_, rfl, fun wrong => (sealed wrong).elim⟩
    exact { ready with }

end Blocks

section Recovery

/-- How far the sound ones of the first blocks of a file over `xs` reach. -/
def Container.reached (c : Container) (size : Nat) (xs : Bytes) : Nat → Nat
  | 0 => 0
  | i + 1 =>
    if c.soundAt size (i * size) then min ((i + 1) * size) xs.length else c.reached size xs i

/-- The first blocks of a file over `xs`, with the bad ones blanked out or left out. -/
def Container.blanked (c : Container) (size : Nat) (xs : Bytes) (o : RepairOpts) (i : Nat) : Bytes :=
  (List.range i).flatMap fun k =>
    if c.soundAt size (k * size) then (xs.drop (k * size)).take size
    else if o.fillGaps then List.replicate (min size (xs.length - k * size)) o.fillByte
    else []

/-- What a repair is to put out of the first blocks: nothing behind the last sound one. -/
def Container.recovered (c : Container) (size : Nat) (xs : Bytes) (o : RepairOpts) (i : Nat) :
    Bytes :=
  if o.fillGaps then (c.blanked size xs o i).take (c.reached size xs i) else c.blanked size xs o i

/-- The sound blocks that follow a bad one. -/
def Container.gapped (c : Container) (size : Nat) (i : Nat) : Bool :=
  c.soundAt size (i * size) && decide (0 < i) && !c.soundAt size ((i - 1) * size)

variable {c : Container} {size : Nat} {xs : Bytes} {o : RepairOpts}

theorem Container.blanked_succ (i : Nat) : c.blanked size xs o (i + 1) = c.blanked size xs o i ++
    if c.soundAt size (i * size) then (xs.drop (i * size)).take size
    else if o.fillGaps then List.replicate (min size (xs.length - i * size)) o.fillByte
    else [] := by
  -- The last block is added behind the others.
  rw [Container.blanked, List.range_succ, List.flatMap_append, List.flatMap_singleton]
  rfl

/-- The sound blocks reach no further than the blocks do. -/
theorem Container.reached_le (i : Nat) : c.reached size xs i ≤ min (i * size) xs.length := by
  -- The induction is on the blocks.
  induction i with
  | zero => exact Nat.zero_le _
  | succ i ih =>
    rw [Container.reached]
    split
    · exact le_rfl
    · rw [Nat.succ_mul]
      omega

/-- Blanked out, the blocks have the bytes they had, and nothing but blanks behind the last sound
one. -/
theorem Container.blanked_fills (fills : o.fillGaps) (i : Nat) :
    (c.blanked size xs o i).length = min (i * size) xs.length ∧
      (c.blanked size xs o i).drop (c.reached size xs i) =
        List.replicate (min (i * size) xs.length - c.reached size xs i) o.fillByte := by
  induction i with
  | zero => exact ⟨by simp [Container.blanked], by simp [Container.blanked, Container.reached]⟩
  | succ i ih =>
    obtain ⟨length, blank⟩ := ih
    have most := @Container.reached_le c size xs i
    rw [Container.blanked_succ, Container.reached]
    by_cases sound : c.soundAt size (i * size)
    · -- A sound block ends with its own bytes.
      have whole : (c.blanked size xs o i ++ (xs.drop (i * size)).take size).length =
          min ((i + 1) * size) xs.length := by
        rw [List.length_append, length, List.length_take, List.length_drop, Nat.succ_mul]
        omega
      rw [if_pos sound, if_pos sound]
      refine ⟨whole, ?_⟩
      rw [← whole, List.drop_length, Nat.sub_self, List.replicate_zero]
    · -- A bad one adds its length in blanks.
      rw [if_neg sound, if_neg sound, if_pos fills, List.length_append, List.length_replicate,
        length, List.drop_append_of_le_length (by rw [length]; exact most), blank,
        List.replicate_append_replicate, Nat.succ_mul]
      refine ⟨by omega, ?_⟩
      congr 1
      omega

/-- A sound block is put out behind its gap. -/
theorem Container.recovered_sound {i : Nat} (inside : i * size < xs.length)
    (sound : c.soundAt size (i * size)) :
    c.recovered size xs o (i + 1) = c.recovered size xs o i ++
      ((if o.fillGaps then List.replicate (i * size - c.reached size xs i) o.fillByte else []) ++
        (xs.drop (i * size)).take size) := by
  have next := @Container.blanked_succ c size xs o i
  rw [if_pos sound] at next
  rw [Container.recovered, Container.recovered]
  by_cases fills : o.fillGaps
  · -- Everything in front of the block is there, sound or blank.
    obtain ⟨_, blank⟩ := @Container.blanked_fills c size xs o fills i
    obtain ⟨whole, _⟩ := @Container.blanked_fills c size xs o fills (i + 1)
    rw [Nat.min_eq_left inside.le] at blank
    rw [if_pos fills, if_pos fills, if_pos fills, Container.reached, if_pos sound, ← whole,
      List.take_length, next, ← blank, ← List.append_assoc, List.take_append_drop]
  · rw [if_neg fills, if_neg fills, if_neg fills, next, List.nil_append]

/-- A bad block is not put out, at least not yet. -/
theorem Container.recovered_bad {i : Nat} (bad : ¬ c.soundAt size (i * size)) :
    c.recovered size xs o (i + 1) = c.recovered size xs o i := by
  have next := @Container.blanked_succ c size xs o i
  rw [if_neg bad] at next
  rw [Container.recovered, Container.recovered, Container.reached, if_neg bad, next]
  -- With the gaps filled, the blanks of the block lie behind what is put out.
  by_cases fills : o.fillGaps
  · obtain ⟨length, _⟩ := @Container.blanked_fills c size xs o fills i
    have most := @Container.reached_le c size xs i
    rw [if_pos fills, if_pos fills, if_pos fills, List.take_append_of_le_length (by omega)]
  · rw [if_neg fills, if_neg fills, if_neg fills, List.append_nil]

/-- What is sound does not reach further than its bytes. -/
theorem Container.soundBytes_le (i : Nat) :
    c.soundBytes size xs (List.range i) ≤ c.reached size xs i := by
  -- The induction is on the blocks.
  induction i with
  | zero => exact Nat.zero_le _
  | succ i ih =>
    have most := @Container.reached_le c size xs i
    rw [c.soundBytes_succ, Container.reached]
    split
    · rw [Nat.succ_mul]
      omega
    · exact ih

/-- A sound block has a gap in front of it exactly when it follows a bad one. -/
theorem Container.reached_lt_iff {i : Nat} (positive : 0 < size) (inside : i * size < xs.length)
    (sound : c.soundAt size (i * size)) :
    i * size > c.reached size xs i ↔ c.gapped size i := by
  rw [Container.gapped, sound, Bool.true_and]
  cases i with
  -- The first block has nothing in front of it.
  | zero => simp [Container.reached]
  | succ i =>
    have most := @Container.reached_le c size xs i
    rw [Nat.succ_mul] at inside
    rw [Container.reached, Nat.add_sub_cancel]
    by_cases before : c.soundAt size (i * size)
    · -- Behind a sound block there is no gap.
      rw [if_pos before, before, Nat.succ_mul]
      simp
      omega
    · rw [if_neg before, Nat.succ_mul]
      simp [before]
      omega

/-- Blanked out, the first blocks have the bytes of the sound ones in their places. -/
theorem Container.blanked_getElem? (positive : 0 < size) (fills : o.fillGaps) {i p : Nat}
    (inside : p < min (i * size) xs.length) :
    (c.blanked size xs o i)[p]? = if c.soundAt size p then xs[p]? else some o.fillByte := by
  -- The induction is on the blocks, and the last one is the only new one.
  induction i with
  | zero => omega
  | succ i ih =>
    obtain ⟨length, _⟩ := @Container.blanked_fills c size xs o fills i
    rw [Nat.succ_mul] at inside
    rw [Container.blanked_succ]
    rcases Nat.lt_or_ge p (min (i * size) xs.length) with before | within
    · rw [List.getElem?_append_left (by omega), ih before]
    · have block : p / size = i :=
        Nat.div_eq_of_lt_le (by omega) (by rw [Nat.succ_mul]; omega)
      have same : c.soundAt size p = c.soundAt size (i * size) :=
        c.soundAt_block (by rw [Nat.mul_div_cancel _ positive, block])
      rw [List.getElem?_append_right (by omega), length, same]
      by_cases sound : c.soundAt size (i * size)
      · rw [if_pos sound, if_pos sound, List.getElem?_take, if_pos (by omega), List.getElem?_drop]
        congr 1
        omega
      · rw [if_neg sound, if_neg sound, if_pos fills, List.getElem?_replicate, if_pos (by omega)]

/-- With its gaps filled, an output has every byte of a sound block in its place. -/
theorem Container.recovered_getElem? (positive : 0 < size) (fills : o.fillGaps) {i p : Nat}
    (inside : p < c.reached size xs i) :
    (c.recovered size xs o i)[p]? = if c.soundAt size p then xs[p]? else some o.fillByte := by
  -- What is put out is the front of the blanked blocks.
  have most := @Container.reached_le c size xs i
  rw [Container.recovered, if_pos fills, List.getElem?_take, if_pos inside,
    c.blanked_getElem? positive fills (by omega)]

/-- Sound blocks are put out whole. -/
theorem Container.recovered_all (sound : ∀ p, c.soundAt size p) (i : Nat) :
    c.recovered size xs o i = xs.take (i * size) := by
  -- Nothing is blanked out, and nothing is missing at the end.
  have blanked : c.blanked size xs o i = xs.take (i * size) := by
    induction i with
    | zero => rw [Nat.zero_mul]; rfl
    | succ i ih => rw [Container.blanked_succ, if_pos (sound _), ih, Nat.succ_mul, List.take_add]
  have reached : c.reached size xs i = min (i * size) xs.length := by
    cases i with
    | zero => rw [Nat.zero_mul, Nat.zero_min]; rfl
    | succ i => rw [Container.reached, if_pos (sound _)]
  rw [Container.recovered, blanked, reached, ← List.length_take, List.take_length, ite_self]

end Recovery

section Scanning

variable {zstd : Option CodecVt} {o : RepairOpts} {c : Container} {codec : CodecVt}
  {GoodD : Dctx → Prop} {size : Nat} {xs : Bytes} {dict : Option XqDict} {ddict : Option Ddict}

/-- The report on the first blocks of a file over `xs`. -/
def Container.repairReport (c : Container) (size : Nat) (xs : Bytes) (i : Nat) : RepairReport :=
  { blocksFound := i
    blocksOk := (List.range i).countP fun k => c.soundAt size (k * size)
    blocksBad := (List.range i).countP fun k => !c.soundAt size (k * size)
    blocksSkipped := 0
    bytesRecovered := c.soundBytes size xs (List.range i)
    rawSizeExpected := 0
    gaps := (List.range i).countP (c.gapped size)
    gapBytes := c.reached size xs i - c.soundBytes size xs (List.range i)
    dictOk := true }

/-- The report on one more block, a sound one. -/
theorem Container.repairReport_sound {i : Nat} (positive : 0 < size) (inside : i * size < xs.length)
    (sound : c.soundAt size (i * size)) :
    c.repairReport size xs (i + 1) =
      { c.repairReport size xs i with
        blocksFound := (c.repairReport size xs i).blocksFound + 1
        blocksOk := (c.repairReport size xs i).blocksOk + 1
        gapBytes := (c.repairReport size xs i).gapBytes + (i * size - c.reached size xs i)
        gaps := (c.repairReport size xs i).gaps + if i * size > c.reached size xs i then 1 else 0
        bytesRecovered :=
          (c.repairReport size xs i).bytesRecovered + min size (xs.length - i * size) } := by
  -- What has not been recovered in front of the block is now a gap.
  have most := @Container.reached_le c size xs i
  have fewer := @Container.soundBytes_le c size xs i
  have bytes := c.soundBytes_succ size xs i
  rw [if_pos sound] at bytes
  have gap : c.reached size xs (i + 1) -
      (c.soundBytes size xs (List.range i) + min size (xs.length - i * size)) =
        c.reached size xs i - c.soundBytes size xs (List.range i) +
          (i * size - c.reached size xs i) := by
    rw [Container.reached, if_pos sound, Nat.succ_mul]
    omega
  have gapped : (if i * size > c.reached size xs i then 1 else 0) =
      if c.gapped size i then 1 else 0 :=
    if_congr (c.reached_lt_iff positive inside sound) rfl rfl
  rw [gapped]
  simp only [Container.repairReport, bytes, gap]
  simp [List.range_succ, sound, List.countP_singleton]

/-- The report on one more block, a bad one. -/
theorem Container.repairReport_bad {i : Nat} (bad : ¬ c.soundAt size (i * size)) :
    c.repairReport size xs (i + 1) =
      { c.repairReport size xs i with
        blocksFound := (c.repairReport size xs i).blocksFound + 1
        blocksBad := (c.repairReport size xs i).blocksBad + 1 } := by
  -- The block is neither put out nor a gap until a sound one follows.
  have gapped : c.gapped size i = false := by rw [Container.gapped, Bool.of_not_eq_true bad]; rfl
  have bytes := c.soundBytes_succ size xs i
  rw [if_neg bad, Nat.add_zero] at bytes
  simp only [Container.repairReport, bytes, Container.reached, if_neg bad]
  simp [List.range_succ, bad, gapped]

/-- Where a scan stands in front of block `i`. -/
structure Scan.At (c : Container) (codec : CodecVt) (GoodD : Dctx → Prop) (size : Nat) (xs : Bytes)
    (ddict : Option Ddict) (o : RepairOpts) (out : Option OutFile) (i : Nat) (s : Scan) : Prop where
  ready : s.ctx.Ready c codec GoodD size ddict
  puts : Puts out s.out (c.recovered size xs o i)
  reached : s.expectRaw = c.reached size xs i
  rep : s.rep = c.repairReport size xs i

/-- Nothing behind the header of a file looks like the header of a block, but those of its blocks and
what lies inside of sound ones. -/
def Container.ScanClear (c : Container) (size : Nat) : Prop :=
  ∀ k, fileHeaderSize ≤ k → (scanCandidate c.bytes k).isSome →
    ∃ i < c.blocks.length, k = c.position i ∨
      c.soundAt size (i * size) ∧ c.position i < k ∧ k < c.position (i + 1)

theorem Container.position_mono (c : Container) {i j : Nat} (le : i ≤ j) :
    c.position i ≤ c.position j := by
  -- The first blocks are among the first of more blocks.
  have front : (c.blocks.take i).Sublist (c.blocks.take j) := List.take_sublist_take_left le
  have length := (front.flatMap FileBlock.bytes).length_le
  rw [Container.position, Container.position]
  omega

/-- The scan meets nothing in the rest of a damaged block. -/
theorem Container.ScanClear.damaged (clear : c.ScanClear size) {i : Nat}
    (bad : ¬ c.soundAt size (i * size)) {k : Nat} (header : fileHeaderSize ≤ k)
    (from_ : c.position i < k) (below : k < c.position (i + 1)) :
    scanCandidate c.bytes k = none := by
  rw [← Option.not_isSome_iff_eq_none]
  intro found
  obtain ⟨j, _, here⟩ := clear k header found
  -- The block that is met would have to be this one.
  rcases Nat.lt_trichotomy j i with before | same | behind
  · have := c.position_mono (show j + 1 ≤ i from before)
    have := c.position_mono before.le
    omega
  · subst same
    rcases here with start | ⟨sound, _⟩
    · omega
    · exact bad sound
  · have := c.position_mono (show i + 1 ≤ j from behind)
    omega

/-- The scan meets nothing around the blocks. -/
theorem Container.ScanClear.around (clear : c.ScanClear size) {k : Nat}
    (header : fileHeaderSize ≤ k)
    (outside : k < c.position 0 ∨ c.position c.blocks.length ≤ k) :
    scanCandidate c.bytes k = none := by
  -- A header that the scan meets stands inside some block.
  rw [← Option.not_isSome_iff_eq_none]
  intro found
  obtain ⟨i, inside, here⟩ := clear k header found
  have := c.position_mono (Nat.zero_le i)
  have := c.position_mono (show i + 1 ≤ c.blocks.length from inside)
  have length := Container.position_succ (List.getElem?_eq_getElem inside)
  have some_byte : blockHeaderSize ≤ (c.blocks[i]).bytes.length := by
    rw [FileBlock.bytes, List.append_assoc, List.length_append]
    exact Nat.le_add_right _ _
  have size : blockHeaderSize = 24 := rfl
  omega

/-- The scan at one block. -/
theorem Scan.At.next {out : Option OutFile} {s : Scan} {i : Nat}
    (at_ : s.At c codec GoodD size xs ddict o out i)
    (keeps : c.Keeps zstd codec GoodD size xs dict ddict) (small : c.bytes.length < 2 ^ 63)
    (clear : c.ScanClear size) (inside : i < c.blocks.length) :
    ∃ s' : Scan, s'.At c codec GoodD size xs ddict o out (i + 1) ∧
      ScanGoes zstd o c.bytes (c.position i) s (c.position (i + 1)) s' := by
  obtain ⟨ready, puts, reached, rep⟩ := at_
  have within : i < (allBlocks size xs).length := by rwa [← keeps.cuts.count]
  have block : c.blocks[i]? = some c.blocks[i] := List.getElem?_eq_getElem inside
  have here : (allBlocks size xs)[i]? = some (allBlocks size xs)[i] := List.getElem?_eq_getElem within
  have kept := (List.forall₂_iff_get.mp keeps.kept).2 i within inside
  rw [List.get_eq_getElem, List.get_eq_getElem] at kept
  generalize c.blocks[i] = b at block kept
  generalize (allBlocks size xs)[i] = raw at here kept
  have stands := kept.stands block
  have piece := allBlocks_piece xs keeps.positive here
  have some_byte := (mem_allBlocks xs (List.mem_of_getElem? here) keeps.positive).1
  obtain ⟨place, _⟩ := keeps.cuts.raw i b block
  have extent := keeps.cuts.stored i b block
  have position := Container.position_succ block
  have front := c.position_mono (Nat.zero_le i)
  have first := c.length_front
  have behind := c.position_le_end (i + 1)
  have whole := c.length_bytes
  have sizes : blockHeaderSize = 24 ∧ recordHeaderSize = 14 ∧ footerSize = 32 := ⟨rfl, rfl, rfl⟩
  rw [c.position_zero] at front
  have length : raw.length = min size (xs.length - i * size) := by
    rw [piece, List.length_take, List.length_drop]
  have most := @Container.reached_le c size xs i
  have fewer := @Container.soundBytes_le c size xs i
  -- The scan meets the header of the block and decodes it.
  obtain ⟨header, found⟩ := stands.candidate
  obtain ⟨ctx, ready', decoded, written⟩ := ready.decodeAt keeps small here block
  have own : c.soundAt size (i * size) = blockChecksumOk c.header b.payload b.ck := by
    rw [Container.soundAt, Nat.mul_div_cancel _ keeps.positive, block]
    rfl
  by_cases sound : c.soundAt size (i * size)
  · -- A sound block is put out behind its gap, and passed over.
    rw [← own, if_pos sound] at decoded
    have same : ctx.raw = raw := written (own ▸ sound)
    obtain ⟨out', put, run⟩ := Scan.block_sound o decoded puts.writes (by omega)
    have goes := scanGoes_header header found puts.writes run
    have advance : c.position i + (blockHeaderSize + b.header.storedSize.toNat + ctx.checksumLen) =
        c.position (i + 1) := by
      rw [ready'.checksumLen, ← extent, ← position]
    rw [advance] at goes
    refine ⟨_, ?_, goes⟩
    refine ⟨ready', ?_, ?_, ?_⟩
    · rw [c.recovered_sound (by omega) sound]
      rw [place, reached, same, piece] at put
      exact puts.trans put
    · show b.header.rawOffset.toNat + ctx.raw.length = _
      rw [Container.reached, if_pos sound, place, same, length, Nat.succ_mul]
      omega
    · have inside : i * size < xs.length := by omega
      rw [c.repairReport_sound keeps.positive inside sound, ← rep, ← reached, ← length, ← same,
        ← place]
  · -- A damaged one is searched for headers, and has none.
    rw [← own, if_neg sound] at decoded
    have run : Scan.block zstd o s (c.position i) b.header = _ :=
      Scan.block_damaged decoded (by decide)
    have goes := scanGoes_header header found puts.writes run
    have rest (s : Scan) : ScanGoes zstd o c.bytes (c.position i + blockHeaderSize) s
        (c.position (i + 1)) s :=
      scanGoes_clear s (by omega) fun k from_ below =>
        ⟨by omega, clear.damaged sound (by omega) (by omega) (by omega)⟩
    refine ⟨_, ?_, goes.trans (rest _)⟩
    refine ⟨ready', ?_, ?_, ?_⟩
    · rw [c.recovered_bad sound]
      exact puts
    · show s.expectRaw = _
      rw [Container.reached, if_neg sound, reached]
    · rw [c.repairReport_bad sound, ← rep]

end Scanning

section Starting

variable {zstd : Option CodecVt} {o : RepairOpts} {c : Container} {codec : CodecVt}
  {GoodD : Dctx → Prop} {size : Nat} {xs : Bytes} {dict : Option XqDict} {ddict : Option Ddict}

/-- The record loop of a repair loads the dictionary that stands behind the header. -/
theorem RepairCtx.loadDictLoop_dict {x : XqDict} {digest : Ddict} {record : FileDict}
    {ctx : RepairCtx} (holds : record.Holds zstd codec GoodD x digest) (coder : ctx.codec = codec)
    (good : GoodD ctx.dctx) (scanTo fuel : Nat) {off : Nat} {behind : Bytes}
    (there : ctx.file.drop off = record.bytes ++ behind)
    (within : off + recordHeaderSize ≤ scanTo) (small : ctx.file.length < 2 ^ 63) :
    ∃ dctx raw calls, GoodD dctx ∧ RepairCtx.loadDictLoop zstd scanTo (fuel + 1) off ctx =
      (.ok, { ctx with dctx := dctx, raw := raw, calls := calls, ddict := some digest }) := by
  obtain ⟨rh, parsed, tag, _, verified⟩ := holds.record
  obtain ⟨info, understood, rawSize, digested, decoded⟩ := holds.parses
  obtain ⟨raw, good'⟩ := decoded ctx.dctx good
  have sized := parsed.header
  have announced := parsed.sized
  have shrinks := holds.shrinks
  have bounded := holds.bounded
  have head := holds.head
  have most : dictSizeMax = 2 ^ 28 := rfl
  rw [FileDict.bytes, List.append_assoc, List.append_assoc] at there
  have payload : (ctx.file.drop (off + recordHeaderSize)).take rh.size.toNat =
      record.head ++ record.stored := by
    rw [← List.drop_drop, there, List.drop_left' sized, ← List.append_assoc, ← announced,
      List.take_left]
  generalize decode : dictDecode zstd ctx.dctx info record.stored = made at raw good'
  obtain ⟨⟨answer, dctx'⟩, call⟩ := made
  obtain rfl : answer = .ok x.bytes := raw
  rw [← coder] at digested
  -- The record decodes to the dictionary, and its digest is kept.
  have load : RepairCtx.loadDictRecord zstd ctx (dictRecordHeader record.head record.stored)
      (record.head ++ record.stored) = (.ok, { ctx with
        dctx := dctx', calls := ctx.calls ++ call.toList, ddict := some digest }) := by
    rw [RepairCtx.loadDictRecord]
    dsimp only
    rw [verified, if_neg (not_not.mpr rfl), understood]
    dsimp only
    rw [List.drop_left' head, decode]
    dsimp only
    rw [digested]
  have extent : rh.size.toNat = dictPayloadHeader + record.stored.length := by
    rw [← announced, List.length_append, head]
  -- All of the record lies inside the file.
  have inside : off + recordHeaderSize + rh.size.toNat ≤ ctx.file.length := by
    have length := congrArg List.length there
    rw [List.length_drop, List.length_append, List.length_append, List.length_append, sized,
      head] at length
    have some_byte : dictPayloadHeader = 30 := rfl
    omega
  have exact := readsExact_of_length small
  have front := exact recordHeaderSize off (by omega)
  rw [there, List.take_left' sized] at front
  have behind := exact rh.size.toNat (off + recordHeaderSize) inside
  rw [payload] at behind
  refine ⟨dctx', ctx.raw, ctx.calls ++ call.toList, good', ?_⟩
  rw [RepairCtx.loadDictLoop, if_pos within, front]
  dsimp only
  rw [if_neg (not_not.mpr sized), parsed.parsed]
  dsimp only
  rw [if_neg (by omega), if_pos tag, behind, if_neg (not_not.mpr announced), load]

/-- The dictionary of a file is loaded where the file says it has one. -/
theorem RepairCtx.Ready.loadDict {ctx : RepairCtx} (ready : ctx.Ready c codec GoodD size none)
    (coder : ctx.codec = codec) (keeps : c.Keeps zstd codec GoodD size xs dict ddict)
    (small : c.bytes.length < 2 ^ 63) :
    ∃ ctx' : RepairCtx,
      RepairCtx.loadDict zstd ctx fileHeaderSize c.bytes.length = (.ok, ctx') ∧
        ctx'.Ready c codec GoodD size ddict := by
  have length := c.length_bytes
  have front := c.length_front
  have least := c.position_le_end 0
  have sections := c.drop_header
  have recorded := keeps.dict
  have flagged := keeps.flagged
  have size : recordHeaderSize = 14 ∧ footerSize = 32 := ⟨rfl, rfl⟩
  rw [c.position_zero] at least
  rw [RepairCtx.loadDict, ready.hdr]
  generalize c.dict = record at recorded sections
  cases recorded with
  | none =>
    -- The header does not announce a dictionary, and none is looked for.
    have absent : c.header.flags &&& flagDictPresent = 0 := by
      by_contra present
      exact Bool.false_ne_true (flagged.mp present)
    rw [if_pos absent]
    exact ⟨ctx, rfl, ready⟩
  | @some x digest record given =>
    have present : ¬ c.header.flags &&& flagDictPresent = 0 := flagged.mpr rfl
    obtain ⟨dctx, raw, calls, good, loop⟩ := RepairCtx.loadDictLoop_dict given coder ready.dctx
      c.bytes.length c.bytes.length (by rw [ready.file]; exact sections) (by omega)
      (by rw [ready.file]; exact small)
    rw [if_neg present, loop]
    exact ⟨_, rfl, { ready with dctx := good, ddict := rfl }⟩

/-- A repair finds what it needs in front of the blocks. -/
theorem Container.Keeps.repairStart (keeps : c.Keeps zstd codec GoodD size xs dict ddict)
    (small : c.bytes.length < 2 ^ 63) (o : RepairOpts) {out : Option OutFile}
    (writes : WritesSucceed out) : ∃ s : Scan, Xq.repairStart zstd c.bytes out = .ok s ∧
      s.At c codec GoodD size xs ddict o out 0 := by
  have length := c.length_bytes
  have front := c.length_front
  have least := c.position_le_end 0
  rw [c.position_zero] at least
  have header : ¬ (c.bytes.take fileHeaderSize).length ≠ fileHeaderSize := by
    rw [List.length_take]
    omega
  have begun : Puts out out (c.recovered size xs o 0) := by
    have none : c.recovered size xs o 0 = [] := by
      rw [Container.recovered, Container.blanked, List.range_zero, List.flatMap_nil, List.take_nil,
        ite_self]
    rw [none]
    exact .nothing writes
  -- The context is made from the header, and then the dictionary is loaded.
  let fresh : RepairCtx :=
    { file := c.bytes, hdr := c.header, codec := codec
      checksumLen := fmtChecksumSize c.header.checksumId, maxRaw := size
      dctx := codec.dctxNew.getD .null, ddict := none
      stagingCap := blockHeaderSize + codec.bound size + 8, raw := [], calls := [] }
  have ready : fresh.Ready c codec GoodD size none :=
    { file := rfl, hdr := rfl, checksumLen := rfl, maxRaw := rfl, dctx := keeps.dctx, ddict := rfl
      stagingCap := rfl }
  obtain ⟨ctx, loaded, ready⟩ := ready.loadDict rfl keeps small
  rw [Xq.repairStart, repairReadHeader]
  dsimp only
  rw [if_neg header, keeps.header_read]
  dsimp only
  rw [keeps.found]
  dsimp only
  rw [keeps.headerSize, keeps.blockSize, loaded]
  dsimp only
  refine ⟨_, rfl, ready, begun, rfl, ?_⟩
  rw [decide_eq_true rfl, ite_self]
  rfl

/-- The scan over the first blocks. -/
theorem Scan.At.blocks {out : Option OutFile} {s : Scan}
    (at_ : s.At c codec GoodD size xs ddict o out 0)
    (keeps : c.Keeps zstd codec GoodD size xs dict ddict) (small : c.bytes.length < 2 ^ 63)
    (clear : c.ScanClear size) {n : Nat} (within : n ≤ c.blocks.length) :
    ∃ s' : Scan, s'.At c codec GoodD size xs ddict o out n ∧
      ScanGoes zstd o c.bytes (c.position 0) s (c.position n) s' := by
  -- The induction is on the blocks.
  induction n with
  | zero => exact ⟨s, at_, .refl _ s⟩
  | succ n ih =>
    obtain ⟨s', there, goes⟩ := ih (by omega)
    obtain ⟨s'', next, on⟩ := there.next keeps small clear within
    exact ⟨s'', next, goes.trans on⟩

/-- A repair of a file over `xs`, with the blocks that are sound. -/
theorem Container.Keeps.repairFile (keeps : c.Keeps zstd codec GoodD size xs dict ddict)
    (small : c.bytes.length < 2 ^ 63) (clear : c.ScanClear size) {out : Option OutFile}
    (writes : WritesSucceed out) (opts : Option RepairOpts) :
    ∃ out', Xq.repairFile zstd c.bytes out opts =
        (if (c.firstBad size (List.range c.blocks.length)).isSome then .corruptBlock else .ok,
          { c.repairReport size xs c.blocks.length with
            rawSizeExpected :=
              if c.header.rawSize = sizeUnknown then 0 else c.header.rawSize.toNat },
          out') ∧
      out'.map OutFile.written = out.map fun f => f.written ++
        c.recovered size xs (opts.getD { fillGaps := false, fillByte := 0 }) c.blocks.length := by
  have length := c.length_bytes
  have front := c.length_front
  have least := c.position_le_end 0
  have sizes : blockHeaderSize = 24 ∧ recordHeaderSize = 14 ∧ footerSize = 32 := ⟨rfl, rfl, rfl⟩
  have ended : c.endPosition = c.position c.blocks.length + recordHeaderSize := rfl
  have first := c.position_zero
  have last := c.position_mono (Nat.zero_le c.blocks.length)
  generalize chosen : opts.getD { fillGaps := false, fillByte := 0 } = o
  obtain ⟨s, start, at_⟩ := keeps.repairStart small o writes
  have hdr := at_.ready.hdr
  have header : s.ctx.hdr.headerSize.toNat = fileHeaderSize := by rw [hdr, keeps.headerSize]
  -- The scan goes over the metadata, over the blocks, and over what lies behind them.
  have metadata : ScanGoes zstd o c.bytes fileHeaderSize s (c.position 0) s :=
    scanGoes_clear s (by omega) fun k from_ below =>
      ⟨by omega, clear.around from_ (.inl below)⟩
  obtain ⟨s', there, blocks⟩ := at_.blocks keeps small clear le_rfl
  have sections : ScanGoes zstd o c.bytes (c.position c.blocks.length) s' (c.bytes.length - 23) s' :=
    scanGoes_clear s' (by omega) fun k from_ below =>
      ⟨by omega, clear.around (by omega) (.inr from_)⟩
  obtain ⟨tests, ends⟩ := ((metadata.trans blocks).trans sections).ends (by omega) []
  -- That is the scan of the repair.
  have room : blockHeaderSize ≤ scanWindow := by decide +kernel
  obtain ⟨s'', more, scanned, both⟩ := scanLoopBy_tests zstd o (readsExact_of_length small) room
    (c.bytes.length + 1) fileHeaderSize true (by omega) (repairStart_out start ▸ writes)
  obtain ⟨rfl, _⟩ := Prod.mk.inj (ends.unique (both []).2)
  rw [← scanLoop_eq, ← header, ← chosen] at scanned
  have bad_iff : s'.rep.blocksBad ≠ 0 ↔
      (c.firstBad size (List.range c.blocks.length)).isSome := by
    rw [there.rep, Container.firstBad, List.find?_isSome, ← Nat.pos_iff_ne_zero]
    exact List.countP_pos_iff
  rw [repairFile_scan start opts scanned, hdr, if_neg (not_not.mpr rfl), if_congr bad_iff rfl rfl,
    there.rep]
  exact ⟨_, rfl, there.puts.written⟩

end Starting

section Finished

variable {zstd : Option CodecVt} {sink : Nat → Bytes → Bytes → XqStatus} {p : XqParams}
  {rawSizeHint : UInt64} {m : Machine} {dict : Option XqDict} {e e' : Encoder}

theorem FileBlock.Damaged.refl (h : FileHeader) (b : FileBlock) : b.Damaged h b :=
  ⟨rfl, rfl, rfl, .inl rfl⟩

theorem Container.Damaged.refl (c : Container) : c.Damaged c :=
  ⟨rfl, List.forall₂_same.mpr fun b _ => .refl c.header b⟩

/-- What a repair of a file over `xs` with an announced size is to come to. -/
def Container.repairs (c : Container) (size : Nat) (xs : Bytes) (rawSizeHint : UInt64) :
    XqStatus × RepairReport :=
  (if (c.firstBad size (List.range c.blocks.length)).isSome then .corruptBlock else .ok,
    { c.repairReport size xs c.blocks.length with
      rawSizeExpected := if rawSizeHint = sizeUnknown then 0 else rawSizeHint.toNat })

/-- A file has a dictionary record exactly when its encoder has a dictionary. -/
theorem Container.Keeps.recorded {c : Container} {codec : CodecVt} {GoodD : Dctx → Prop}
    {size : Nat} {xs : Bytes} {ddict : Option Ddict}
    (keeps : c.Keeps zstd codec GoodD size xs dict ddict) : c.dict.isSome = dict.isSome := by
  -- The file holds a dictionary exactly where there is one.
  have record := keeps.dict
  generalize c.dict = stored at record
  cases record with
  | none => rfl
  | some _ => rfl

/-- A repair of a file without damage finds every block and every byte. -/
theorem Container.Holds.repairs {c : Container} {codec : CodecVt} {GoodD : Dctx → Prop}
    {size : Nat} {xs : Bytes} {ddict : Option Ddict}
    (holds : c.Holds zstd codec GoodD size xs dict ddict) :
    c.repairs size xs rawSizeHint =
      (.ok,
        { blocksFound := c.blocks.length, blocksOk := c.blocks.length, blocksBad := 0
          blocksSkipped := 0, bytesRecovered := xs.length
          rawSizeExpected := if rawSizeHint = sizeUnknown then 0 else rawSizeHint.toNat
          gaps := 0, gapBytes := 0, dictOk := true }) := by
  -- With every block sound there is no gap and nothing is lost.
  have sound (p : Nat) : c.soundAt size p := holds.soundAt p
  have none_bad : (c.firstBad size (List.range c.blocks.length)).isSome = false := by
    rw [holds.firstBad]
    rfl
  have most := @Container.reached_le c size xs c.blocks.length
  have gapped (i : Nat) : c.gapped size i = false := by simp [Container.gapped, sound]
  simp only [Container.repairs, Container.repairReport, none_bad, holds.soundBytes]
  simp [sound, gapped]
  omega

/--
A repair of a damaged file in which the scan meets no other headers: it puts out the sound blocks, each
at its place if the gaps are to be filled, and reports the blocks that are bad, the bytes of those that
are not, and the gaps between them.

Out of a file without damage it puts out all that was written, and finds nothing bad.
Under CRC-32C, up to four changed bytes in a row in any payload are such damage.
-/
theorem damaged_repair (created : encoderCreate zstd m sink p rawSizeHint dict = .ok e)
    (external : ∀ v ∈ zstd, ∃ GoodC GoodD, v.TakesBack GoodC GoodD)
    (readable : ∀ d ∈ e.dict, d.Readable) {issued : List EncCall} (no_free : .free ∉ issued)
    (finishes : .finish ∈ issued) {results : List XqStatus} {broken : Prop}
    (run : e.Run e.codec.Fresh issued results e' broken)
    (fine : results = List.replicate issued.length .ok)
    (short : (writtenBy issued).length < 2 ^ 64) (small : e'.out.length < 2 ^ 63) :
    ∃ c : Container, e'.out = c.bytes ∧ c.header = e.fileHeader rawSizeHint ∧
      c.dict.isSome = e.dict.isSome ∧ c.Cuts e.blockSize (writtenBy issued) ∧
      (∀ b ∈ c.blocks, b.header.storedSize.toNat = b.payload.length ∧
        b.ck.length = fmtChecksumSize c.header.checksumId ∧
        blockChecksumOk c.header b.payload b.ck) ∧
      (c.header.checksumId = 1 → ∀ i b payload, c.blocks[i]? = some b →
        Burst 4 b.payload payload →
          c.Damaged { c with blocks := c.blocks.set i { b with payload := payload } }) ∧
      (∀ o, c.recovered e.blockSize (writtenBy issued) o c.blocks.length = writtenBy issued) ∧
      c.repairs e.blockSize (writtenBy issued) rawSizeHint =
        (.ok,
          { blocksFound := c.blocks.length, blocksOk := c.blocks.length, blocksBad := 0
            blocksSkipped := 0, bytesRecovered := (writtenBy issued).length
            rawSizeExpected := if rawSizeHint = sizeUnknown then 0 else rawSizeHint.toNat
            gaps := 0, gapBytes := 0, dictOk := true }) ∧
      ∀ c', c.Damaged c' →
        (∀ i b, c'.blocks[i]? = some b →
          scanCandidate c'.bytes (c'.position i) = some b.header) ∧
        (∀ o p, o.fillGaps → p < c'.reached e.blockSize (writtenBy issued) c'.blocks.length →
          (c'.recovered e.blockSize (writtenBy issued) o c'.blocks.length)[p]? =
            if c'.soundAt e.blockSize p then (writtenBy issued)[p]? else some o.fillByte) ∧
        (c'.ScanClear e.blockSize → ∀ out opts, WritesSucceed out → ∃ out',
          repairFile zstd c'.bytes out opts =
            ((c'.repairs e.blockSize (writtenBy issued) rawSizeHint).1,
              (c'.repairs e.blockSize (writtenBy issued) rawSizeHint).2, out') ∧
          out'.map OutFile.written = out.map fun f => f.written ++
            c'.recovered e.blockSize (writtenBy issued)
              (opts.getD { fillGaps := false, fillByte := 0 }) c'.blocks.length) := by
  obtain ⟨c, GoodD, file, header, holds⟩ := Encoder.Run.holds created external readable no_free
    finishes run fine short
  refine ⟨c, file, header, holds.recorded, holds.cuts, fun b member => ?_,
    fun crc i b payload here burst => ?_, fun o => ?_, holds.repairs, fun c' damaged => ⟨?_, ?_, ?_⟩⟩
  · -- What the encoder emitted is sealed.
    obtain ⟨i, inside, rfl⟩ := List.getElem_of_mem member
    have within : i < (allBlocks e.blockSize (writtenBy issued)).length := by
      rwa [← holds.cuts.count]
    have kept := (List.forall₂_iff_get.mp holds.kept).2 i within inside
    exact ⟨kept.storedSize, kept.ck, holds.sealed _ member⟩
  · exact Container.damaged_of_burst crc holds.sealed here burst
  · rw [c.recovered_all holds.soundAt, holds.cuts.count]
    exact List.take_of_length_le (length_le_allBlocks _ holds.positive)
  · -- Each header still stands where it was.
    intro i b block
    have keeps := damaged.keeps holds
    obtain ⟨inside, rfl⟩ := List.getElem?_eq_some_iff.mp block
    have within : i < (allBlocks e.blockSize (writtenBy issued)).length := by
      rwa [← keeps.cuts.count]
    have kept := (List.forall₂_iff_get.mp keeps.kept).2 i within inside
    exact (kept.stands block).candidate.2
  · intro o p fills inside
    exact c'.recovered_getElem? holds.positive fills inside
  · -- The scan of the damaged file.
    intro clear out opts writes
    obtain ⟨same, _, _, length⟩ := damaged.same
    have announced : c'.header.rawSize = rawSizeHint := by
      rw [same, header]
      rfl
    have repaired := (damaged.keeps holds).repairFile (by rw [length, ← file]; exact small) clear
      writes opts
    rw [announced] at repaired
    exact repaired

/-- The positions at which a block header parses, the first byte's being `pos`: in windows of sixteen
bytes, so that it can be evaluated. -/
def headerPositions : Nat → Nat → Bytes → List Nat
  | 0, _, _ => []
  | fuel + 1, pos, file =>
    ((List.range 16).filter fun i => (scanCandidate (file.take (16 + blockHeaderSize)) i).isSome).map
      (pos + ·) ++ headerPositions fuel (pos + 16) (file.drop 16)

theorem mem_headerPositions {file : Bytes} {fuel pos k : Nat} (enough : k < 16 * fuel)
    (found : (scanCandidate file k).isSome) : pos + k ∈ headerPositions fuel pos file := by
  induction fuel generalizing file pos k with
  | zero => omega
  | succ fuel ih =>
    rw [headerPositions, List.mem_append]
    by_cases here : k < 16
    · -- A window from the front of a file has what the file has there.
      have window := @scanCandidate_window file 0 (16 + blockHeaderSize) k (by omega)
      rw [List.drop_zero, Nat.zero_add] at window
      refine .inl (List.mem_map.mpr ⟨k, List.mem_filter.mpr ⟨List.mem_range.mpr here, ?_⟩, rfl⟩)
      rwa [window]
    · have behind : scanCandidate (file.drop 16) (k - 16) = scanCandidate file k := by
        rw [scanCandidate_drop, Nat.add_sub_of_le (by omega)]
      have later := @ih (file.drop 16) (pos + 16) (k - 16) (by omega) (by rwa [behind])
      rw [show pos + 16 + (k - 16) = pos + k by omega] at later
      exact .inr later

/-- No header stands behind the end of a file. -/
theorem scanCandidate_inside {file : Bytes} {k : Nat} (found : (scanCandidate file k).isSome) :
    k < file.length := by
  -- Beyond the end all bytes read as zero, which is no magic.
  by_contra outside
  have zero (i : Nat) : ld8 file (k + i) = 0 := by
    rw [ld8, List.getD_eq_default _ _ (by omega)]
  have nothing : ld16le file k = 0 := by
    rw [ld16le, zero 1, show ld8 file k = 0 from zero 0]
    decide
  rw [scanCandidate, nothing, if_pos (by decide)] at found
  exact Bool.false_ne_true found

/-- A scan meets nothing but blocks where only blocks have headers. -/
theorem Container.scanClear_of_positions {c : Container} {size fuel : Nat}
    (enough : c.bytes.length ≤ 16 * fuel)
    (blocks : ∀ k ∈ headerPositions fuel 0 c.bytes, ∃ i < c.blocks.length, k = c.position i) :
    c.ScanClear size := by
  -- Every header that the scan meets is among the positions that are listed.
  intro k _ found
  have inside := scanCandidate_inside found
  have member := @mem_headerPositions c.bytes fuel 0 k (by omega) found
  rw [Nat.zero_add] at member
  obtain ⟨i, within, here⟩ := blocks k member
  exact ⟨i, within, .inl here⟩

/-- What becomes of the two blocks when the first is bad and the second sound. -/
theorem Container.repairs_second {c : Container} (count : c.blocks.length = 2)
    (bad : c.soundAt 4096 0 = false) (sound : c.soundAt 4096 4096 = true) :
    c.repairs 4096 twoBlocks 4099 =
        (.corruptBlock,
          { blocksFound := 2, blocksOk := 1, blocksBad := 1, blocksSkipped := 0, bytesRecovered := 3
            rawSizeExpected := 4099, gaps := 1, gapBytes := 4096, dictOk := true }) ∧
      c.recovered 4096 twoBlocks { fillGaps := true, fillByte := 0 } 2 =
        List.replicate 4096 0 ++ [1, 2, 3] := by
  have length := twoBlocks_length
  have blocks : List.range 2 = [0, 1] := rfl
  have tail : (twoBlocks.drop 4096).take 4096 = [1, 2, 3] := by
    rw [twoBlocks, List.drop_left' List.length_replicate]
    rfl
  -- The sound block reaches to the end, three bytes behind the bad one.
  have reached : c.reached 4096 twoBlocks 2 = 4099 := by
    rw [Container.reached, Nat.one_mul, if_pos sound, length]
    rfl
  have recovered : c.soundBytes 4096 twoBlocks [0, 1] = 3 := by
    rw [Container.soundBytes]
    simp [bad, sound, length]
  have gapped : [0, 1].countP (c.gapped 4096) = 1 := by
    simp [Container.gapped, bad, sound]
  refine ⟨?_, ?_⟩
  · rw [Container.repairs, Container.repairReport, count, blocks, gapped, recovered, reached]
    simp [Container.firstBad, bad, sound, sizeUnknown]
  · have blanked : c.blanked 4096 twoBlocks { fillGaps := true, fillByte := 0 } 2 =
        List.replicate 4096 0 ++ [1, 2, 3] := by
      rw [Container.blanked, blocks, List.flatMap_cons, List.flatMap_cons, List.flatMap_nil,
        Nat.zero_mul, Nat.one_mul, if_neg (by rw [bad]; decide), if_pos rfl, if_pos sound, tail,
        length, List.append_nil]
      rfl
    rw [Container.recovered, if_pos rfl, blanked, reached]
    exact List.take_of_length_le (by rw [List.length_append, List.length_replicate]; decide)

/-- A block's payload and checksum overwritten: bytes whose CRC-32C is known, and zeros. -/
def overwritten (b : FileBlock) : FileBlock :=
  { b with payload := [255, 255, 255, 255] ++ List.replicate 4092 0, ck := [0, 0, 0, 0] }

/-- The file of two blocks with the first one overwritten. -/
def overwrittenFile (file : Bytes) : Bytes :=
  file.take 56 ++ ([255, 255, 255, 255] ++ List.replicate 4092 0 ++ [0, 0, 0, 0] ++ file.drop 4156)

theorem overwrittenFile_positions {e : Encoder}
    (created : encoderCreate none openMachine (fun _ _ _ => .ok) smallParams 4099 none = .ok e) :
    (e.fileHeader 4099).checksumId = 1 ∧
      ((scanCandidate (e.answers [.write twoBlocks, .finish]).2.out 32).map fun b =>
        b.storedSize.toNat) = some 4096 ∧
      headerPositions 270 0 (overwrittenFile (e.answers [.write twoBlocks, .finish]).2.out) =
        [32, 4156] := by
  -- The run and the scan of its file are evaluated.
  have ran : (encoderCreate none openMachine (fun _ _ _ => .ok) smallParams 4099 none).toOption.map
      (fun e => (fun file : Bytes => ((e.fileHeader 4099).checksumId,
          (scanCandidate file 32).map fun b => b.storedSize.toNat,
          headerPositions 270 0 (overwrittenFile file)))
        (e.answers [.write twoBlocks, .finish]).2.out) = some (1, some 4096, [32, 4156]) := by
    decide +kernel
  rw [created] at ran
  obtain ⟨crc, ran⟩ := Prod.mk.inj (Option.some.inj ran)
  obtain ⟨stored, positions⟩ := Prod.mk.inj ran
  exact ⟨crc, stored, positions⟩

/-- A file of two blocks whose first block is overwritten: the gap is filled, and the second block put
out behind it. -/
theorem damaged_repair_two : ∃ e,
    encoderCreate none openMachine (fun _ _ _ => .ok) smallParams 4099 none = .ok e ∧
      ∃ report out',
        repairFile none (overwrittenFile (e.answers [.write twoBlocks, .finish]).2.out)
          (some (freshOutput fun _ => none)) (some { fillGaps := true, fillByte := 0 }) =
            (.corruptBlock, report, out') ∧
        report.blocksBad = 1 ∧ report.bytesRecovered = 3 ∧ report.gaps = 1 ∧
        report.gapBytes = 4096 ∧
        out'.map OutFile.written = some (List.replicate 4096 0 ++ [1, 2, 3]) := by
  obtain ⟨e, created, no_dict, size, results, length⟩ := twoBlocks_run
  obtain ⟨no_free, finishes⟩ := twoBlocks_calls
  obtain ⟨c, file, header, record, cuts, whole, _, _, _, each⟩ := damaged_repair created
    (by simp) (by simp [no_dict]) no_free finishes (.single 2) results
    (by rw [twoBlocks_written, twoBlocks_length]; decide) (length ▸ by decide)
  obtain ⟨crc, stored, positions⟩ := overwrittenFile_positions created
  refine ⟨e, created, ?_⟩
  have file : (e.answers [.write twoBlocks, .finish]).2.out = c.bytes := file
  rw [file] at stored positions ⊢
  rw [twoBlocks_written, size] at each cuts
  have count : c.blocks.length = 2 := by
    rw [cuts.count]
    decide +kernel
  have crc : c.header.checksumId = 1 := by rw [header, crc]
  -- The first block stands behind the header, since there is no dictionary.
  have start : c.position 0 = 32 := by
    have none : c.dict = none := by
      rw [← Option.not_isSome_iff_eq_none, record, no_dict]
      decide
    rw [c.position_zero, c.length_front, none]
    rfl
  obtain ⟨b, first⟩ : ∃ b, c.blocks[0]? = some b := ⟨_, List.getElem?_eq_getElem (by omega)⟩
  obtain ⟨payload, ck, sealed⟩ := whole b (List.mem_of_getElem? first)
  have payload : b.payload.length = 4096 := by
    have heads := (each c (.refl c)).1 0 b first
    rw [start] at heads
    rw [heads] at stored
    rw [← payload]
    exact Option.some.inj stored
  have ck : b.ck.length = 4 := by rw [ck, crc]; rfl
  -- The checksum that is written over it is not that of the bytes.
  have shows : ¬ blockChecksumOk c.header (overwritten b).payload (overwritten b).ck := by
    rw [blockChecksumOk, payloadChecksumOk, crc, if_pos rfl]
    simp only [overwritten, crc32c_cleared]
    decide
  have damaged : c.Damaged { c with blocks := c.blocks.set 0 (overwritten b) } := by
    refine c.damaged_of_block first ⟨rfl, ?_, by rw [ck]; rfl, .inr shows⟩
    rw [payload, overwritten, List.length_append, List.length_replicate]
    rfl
  -- So the file with that block is the one given, and the scan meets nothing but its blocks.
  obtain ⟨before, after, front, around, damage⟩ := Container.bytes_around first
  have front : before.length = 56 := by rw [front, start]; rfl
  have bytes : overwrittenFile c.bytes =
      ({ c with blocks := c.blocks.set 0 (overwritten b) } : Container).bytes := by
    have extent : (before ++ (b.payload ++ b.ck)).length = 4156 := by
      rw [List.length_append, List.length_append, front, payload, ck]
    have rest : c.bytes.drop 4156 = after := by
      rw [around, ← List.append_assoc before, List.drop_left' extent]
    rw [damage (overwritten b) rfl damaged, overwrittenFile, rest, around, List.take_left' front]
    rfl
  rw [bytes] at positions ⊢
  generalize made : ({ c with blocks := c.blocks.set 0 (overwritten b) } : Container) = c' at *
  have start' : c'.position 0 = 32 := by rw [← made]; exact start
  have blocks' : c'.blocks = c.blocks.set 0 (overwritten b) := by rw [← made]
  have count' : c'.blocks.length = 2 := by rw [blocks', List.length_set, count]
  obtain ⟨b₁, second⟩ : ∃ b₁, c.blocks[1]? = some b₁ := ⟨_, List.getElem?_eq_getElem (by omega)⟩
  have first' : c'.blocks[0]? = some (overwritten b) := by
    rw [blocks', List.getElem?_set_self (by omega)]
  have second' : c'.blocks[1]? = some b₁ := by
    rw [blocks', List.getElem?_set_ne (by omega), second]
  obtain ⟨heads, _, repair⟩ := each c' damaged
  have extent' : c'.bytes.length = 4319 := by
    rw [damaged.same.2.2.2]
    exact file ▸ length
  -- Its second block has a header, behind the first one's, so it stands at the other position.
  have next' : c'.position 1 = 4156 := by
    have found : (scanCandidate c'.bytes (c'.position 1)).isSome := by
      rw [heads 1 b₁ second']
      rfl
    have inside := scanCandidate_inside found
    have member := @mem_headerPositions c'.bytes 270 0 _ (by omega) found
    have behind : c'.position 1 = c'.position 0 + _ := Container.position_succ first'
    have some_byte : 0 < (overwritten b).bytes.length := by
      rw [FileBlock.bytes, List.append_assoc, List.length_append, length_fmtBlockStore]
      exact Nat.lt_of_lt_of_le (by decide) (Nat.le_add_right _ _)
    rw [positions, Nat.zero_add] at member
    simp only [List.mem_cons, List.not_mem_nil, or_false] at member
    omega
  have clear : c'.ScanClear 4096 := by
    refine @Container.scanClear_of_positions c' 4096 270 (by omega) fun k member => ?_
    rw [positions] at member
    rcases List.mem_cons.mp member with rfl | member
    · exact ⟨0, by omega, start'.symm⟩
    · exact ⟨1, by omega, (List.mem_singleton.mp member).trans next'.symm⟩
  -- The first block is bad and the second sound, and the repair does what it does then.
  have sealed (b : FileBlock) (member : b ∈ c.blocks) : blockChecksumOk c.header b.payload b.ck :=
    (whole b member).2.2
  have sound := (damaged.soundAt 4096 4096 sealed second second').mpr rfl
  have bad := mt (damaged.soundAt 4096 0 sealed first first').mp fun same =>
    shows (by rw [same]; exact sealed b (List.mem_of_getElem? first))
  obtain ⟨reported, recovered⟩ := Container.repairs_second count' (by simpa using bad) sound
  obtain ⟨out', repaired, written⟩ := repair clear (some (freshOutput fun _ => none))
    (some { fillGaps := true, fillByte := 0 }) (by rintro f ⟨⟩ call; rfl)
  rw [reported] at repaired
  rw [count', Option.getD_some, recovered] at written
  exact ⟨_, out', repaired, rfl, rfl, rfl, rfl, written⟩

end Finished

end Xq
