import Xq.Lib.Loop
import Xq.Proofs.Core.ReadConsistency

/-! Every read of an opened file ends, and never comes short. -/

namespace Xq

open Lib

/-- Two readers over one index. -/
def Reader.SameIndex (base r : Reader) : Prop :=
  r.entries = base.entries ∧ r.nentries = base.nentries ∧ r.blockCount = base.blockCount ∧
    r.rawSize = base.rawSize

theorem Reader.sameIndex_kept (zstd : Option CodecVt) (base : Reader) :
    Reader.Kept zstd base.SameIndex where
  loadDict {r} memLimit payload holds := by
    -- None of the steps writes to the index.
    unfold Reader.loadDict
    split; · exact holds
    split; · exact holds
    split
    dsimp only
    split; · exact holds
    split
    · exact holds
    · exact holds
  buffers {r} opts cpus holds := by
    unfold Reader.setupBuffers
    dsimp only
    split
    · exact holds
    · exact holds
  blockCopy {r} bi within take holds := by
    unfold Reader.blockCopy
    split; · exact holds
    split; · exact holds
    dsimp only
    split
    · exact holds
    · exact holds
  blockOwn _ holds := holds

/-- What a block copy hands out: the end of the block, cut to what was asked for. A failure is
an error. -/
theorem Reader.blockCopy_result (zstd : Option CodecVt) (r : Reader) (bi within take : Nat) :
    (∀ st, (Reader.blockCopy zstd r bi within take).1 = .error st → st ≠ .ok) ∧
      ∀ blen got, (Reader.blockCopy zstd r bi within take).1 = .ok (blen, got) →
        got.length = min take (blen - within) := by
  have length (data : Bytes) : (blockBytes data within take).length =
      min take (data.length - within) := by
    rw [blockBytes, List.length_take, List.length_drop]
  rw [Reader.blockCopy]
  split
  · -- A hit.
    refine ⟨fun _ wrong => (by cases wrong), fun blen got copied => ?_⟩
    obtain ⟨rfl, rfl⟩ := Prod.mk.inj (Except.ok.inj copied)
    exact length _
  split
  · -- No slot is free.
    refine ⟨fun st failed => ?_, fun _ _ wrong => by cases wrong⟩
    obtain rfl := Except.error.inj failed
    decide
  dsimp only
  split
  · -- The decode failed.
    rename_i bad
    refine ⟨fun st failed => ?_, fun _ _ wrong => by cases wrong⟩
    obtain rfl := Except.error.inj failed
    exact bad
  · -- A miss that was decoded.
    refine ⟨fun _ wrong => (by cases wrong), fun blen got copied => ?_⟩
    obtain ⟨rfl, rfl⟩ := Prod.mk.inj (Except.ok.inj copied)
    exact length _

/-- One round of `xq_reader_pread`, with `out` already delivered. -/
def Reader.preadRound (zstd : Option CodecVt) (off n : Nat) :
    Bytes × Reader → Round (Bytes × Reader) (Except XqStatus Bytes × Reader)
  | (out, r) =>
    if out.length < n then
      match fmtIndexFind r.entries r.nentries (UInt64.ofNat (off + out.length)) with
      | none => .done (.error .corruptIndex, r)
      | some bi =>
        let within := off + out.length - (r.entryAt bi).rawOffset.toNat
        match Reader.blockCopy zstd r bi within (n - out.length) with
        | (.error st, r) => .done (.error st, r)
        | (.ok (blen, got), r) =>
          if within ≥ blen then .done (.error .corruptBlock, r)
          else .again (out ++ got, r)
    else .done (.ok out, r)

theorem Reader.preadLoop_unrolls (zstd : Option CodecVt) (off n : Nat) :
    Unrolls (Reader.preadRound zstd off n) fun fuel s =>
      Reader.preadLoop zstd off n fuel s.1 s.2 := by
  -- A round ends the loop, or the loop goes on with what the round leaves.
  rintro fuel ⟨out, r⟩
  dsimp only
  rw [Reader.preadLoop, Reader.preadRound]
  by_cases more : out.length < n
  · rw [if_pos more, if_pos more]
    cases fmtIndexFind r.entries r.nentries (UInt64.ofNat (off + out.length)) with
    | none => rfl
    | some bi =>
      dsimp only
      rcases Reader.blockCopy zstd r bi (off + out.length - (r.entryAt bi).rawOffset.toNat)
        (n - out.length) with ⟨copied, r'⟩
      cases copied with
      | error st => rfl
      | ok pair =>
        obtain ⟨blen, got⟩ := pair
        dsimp only
        split
        · rfl
        · rfl
  · rw [if_neg more, if_neg more]

/-- The index of a reader is in order, as opening the file has established. -/
structure Reader.Indexed (fileSize : Nat) (r : Reader) : Prop where
  valid : IndexValid r.entries r.blockCount r.rawSize fileSize
  nentries : r.nentries = r.blockCount + 1

theorem Reader.SameIndex.indexed {fileSize : Nat} {base r : Reader} (same : base.SameIndex r)
    (indexed : base.Indexed fileSize) : r.Indexed fileSize := by
  -- Being indexed is about the four fields that are the same.
  obtain ⟨entries, nentries, blockCount, rawSize⟩ := same
  refine ⟨?_, ?_⟩
  · rw [entries, blockCount, rawSize]
    exact indexed.valid
  · rw [nentries, blockCount]
    exact indexed.nentries

theorem readerOpen_indexed {zstd : Option CodecVt} {file : Bytes} {opts : Option ReaderOpts}
    {cpus : Nat} {r : Reader} (opened : readerOpen zstd file opts cpus = .ok r) :
    r.Indexed file.length := by
  obtain ⟨hdr, footer, codec, ip, entries, loaded, _, _, index, metadata, buffers⟩ :=
    readerOpen_ok.mp opened
  have blank : (readerBlank file hdr footer codec ip entries).Indexed file.length :=
    ⟨fmtIndexValidate_ok (loadIndex_ok index).valid, rfl⟩
  have kept := Reader.sameIndex_kept zstd (readerBlank file hdr footer codec ip entries)
  -- Neither the metadata nor the buffers touch the index.
  have walked := kept.loadMeta ((opts.map ReaderOpts.memLimit).getD 0) ⟨rfl, rfl, rfl, rfl⟩
  rw [metadata] at walked
  have prepared := kept.buffers opts cpus walked
  rw [buffers] at prepared
  exact prepared.indexed blank

theorem Reader.SameIndex.preads {zstd : Option CodecVt} {base : Reader}
    (history : List (Nat × Nat)) {r : Reader} (same : base.SameIndex r) :
    base.SameIndex (Reader.preads zstd history r) := by
  -- The induction is on the reads.
  induction history generalizing r with
  | nil => exact same
  | cons read rest ih =>
    exact ih ((Reader.sameIndex_kept zstd base).pread read.1 read.2 same)

section Pread

variable {zstd : Option CodecVt} {fileSize : Nat} {base r : Reader}

/-- The lookup succeeds for every position in front of the end. -/
theorem Reader.Indexed.find_isSome (indexed : r.Indexed fileSize) {p : Nat}
    (inside : p < r.rawSize.toNat) :
    (fmtIndexFind r.entries r.nentries (UInt64.ofNat p)).isSome := by
  -- The last entry of the index is the raw size.
  have some_block := indexed.valid.some_block
  have value : (UInt64.ofNat p).toNat = p :=
    UInt64.toNat_ofNat_of_lt' (Nat.lt_trans inside r.rawSize.toNat_lt)
  refine fmtIndexFind_isSome _ _ _ (by rw [indexed.nentries]; omega) ?_
  rw [value, indexed.nentries, Nat.add_sub_cancel, indexed.valid.last_raw]
  exact inside

/-- A round that goes on delivers some bytes, and not too many. -/
theorem Reader.preadRound_again {off n : Nat} {s s' : Bytes × Reader}
    (round : Reader.preadRound zstd off n s = .again s') (same : base.SameIndex s.2) :
    base.SameIndex s'.2 ∧ s.1.length < s'.1.length ∧ s'.1.length ≤ n := by
  -- Only a block with bytes behind the position lets the loop go on.
  obtain ⟨out, r⟩ := s
  rw [Reader.preadRound] at round
  by_cases more : out.length < n
  · rw [if_pos more] at round
    split at round
    · cases round
    · rename_i bi _
      dsimp only at round
      have result := (Reader.blockCopy_result zstd r bi
        (off + out.length - (r.entryAt bi).rawOffset.toNat) (n - out.length)).2
      have kept := (Reader.sameIndex_kept zstd base).blockCopy bi
        (off + out.length - (r.entryAt bi).rawOffset.toNat) (n - out.length) same
      generalize Reader.blockCopy zstd r bi (off + out.length - (r.entryAt bi).rawOffset.toNat)
        (n - out.length) = copied at round result kept
      obtain ⟨copied, r'⟩ := copied
      cases copied with
      | error st => cases round
      | ok pair =>
        obtain ⟨blen, got⟩ := pair
        dsimp only at round
        have length := result blen got rfl
        split at round
        · cases round
        · cases round
          dsimp only
          rw [List.length_append, length]
          exact ⟨kept, by omega, by omega⟩
  · rw [if_neg more] at round
    cases round

/-- A round that returns has delivered everything, or fails with an error; the lookup is not what
fails. -/
theorem Reader.preadRound_done {off n : Nat} {out : Bytes}
    {result : Except XqStatus Bytes × Reader}
    (round : Reader.preadRound zstd off n (out, r) = .done result) (few : out.length ≤ n) :
    (∀ st, result.1 = .error st → st ≠ .ok) ∧ ∀ got, result.1 = .ok got → got.length = n := by
  rw [Reader.preadRound] at round
  by_cases more : out.length < n
  · rw [if_pos more] at round
    split at round
    · -- The lookup found no block.
      cases round
      refine ⟨fun st failed => ?_, fun _ wrong => by cases wrong⟩
      obtain rfl := Except.error.inj failed
      decide
    · rename_i bi _
      dsimp only at round
      have failure := (Reader.blockCopy_result zstd r bi
        (off + out.length - (r.entryAt bi).rawOffset.toNat) (n - out.length)).1
      generalize Reader.blockCopy zstd r bi (off + out.length - (r.entryAt bi).rawOffset.toNat)
        (n - out.length) = copied at round failure
      obtain ⟨copied, r'⟩ := copied
      cases copied with
      | error st =>
        cases round
        refine ⟨fun st' failed => ?_, fun _ wrong => by cases wrong⟩
        obtain rfl := Except.error.inj failed
        exact failure st rfl
      | ok pair =>
        obtain ⟨blen, got⟩ := pair
        dsimp only at round
        split at round
        · -- The position lies behind the end of the block.
          cases round
          refine ⟨fun st failed => ?_, fun _ wrong => by cases wrong⟩
          obtain rfl := Except.error.inj failed
          decide
        · cases round
  · rw [if_neg more] at round
    cases round
    refine ⟨fun _ wrong => (by cases wrong), fun got same => ?_⟩
    obtain rfl := Except.ok.inj same
    omega

end Pread

/-- The loop of a read ends, whatever the blocks hold: every round delivers some bytes. -/
theorem Reader.pread_ends (zstd : Option CodecVt) {r : Reader} {off n : Nat} (wanted : 0 < n)
    (inside : off < r.rawSize.toNat) :
    Ends (Reader.preadRound zstd off (min n (r.rawSize.toNat - off))) ([], r)
      (Reader.pread zstd r n off) := by
  rw [Reader.pread, if_neg (Nat.ne_of_gt wanted), if_neg (Nat.not_le.mpr inside)]
  dsimp only
  generalize min n (r.rawSize.toNat - off) = n
  -- The bytes still missing are the measure.
  refine (Reader.preadLoop_unrolls zstd off n).ends_exact (I := fun s => r.SameIndex s.2)
    (m := fun s => n - s.1.length) (fun s s' same round => ?_) (fun s same full => ?_)
    (s := ([], r)) ⟨rfl, rfl, rfl, rfl⟩ (Nat.sub_le _ _)
  · obtain ⟨kept, more, few⟩ := Reader.preadRound_again round same
    exact ⟨kept, by omega⟩
  · obtain ⟨out, r'⟩ := s
    dsimp only at full
    rw [Reader.preadRound, if_neg (by omega)]
    rfl

/--
A read of an opened file is total and never short.

After any earlier reads, it fails with an error or returns exactly the bytes there are, its loop
ends, and in no round does the lookup fail.
-/
theorem pread_total {zstd : Option CodecVt} {file : Bytes} {opts : Option ReaderOpts} {cpus : Nat}
    {base : Reader} (opened : readerOpen zstd file opts cpus = .ok base)
    (history : List (Nat × Nat)) {n : Nat} (wanted : 0 < n) (off : Nat) :
    let r := Reader.preads zstd history base
    let want := min n (base.rawSize.toNat - off)
    ((∃ st, (Reader.pread zstd r n off).1 = .error st ∧ st ≠ .ok) ∨
      ∃ out, (Reader.pread zstd r n off).1 = .ok out ∧ out.length = want) ∧
    (off < base.rawSize.toNat →
      Ends (Reader.preadRound zstd off want) ([], r) (Reader.pread zstd r n off)) ∧
    ∀ out r', Comes (Reader.preadRound zstd off want) ([], r) (out, r') → out.length < want →
      fmtIndexFind r'.entries r'.nentries (UInt64.ofNat (off + out.length)) ≠ none := by
  dsimp only
  have indexed := readerOpen_indexed opened
  have same : base.SameIndex (Reader.preads zstd history base) :=
    Reader.SameIndex.preads history ⟨rfl, rfl, rfl, rfl⟩
  generalize Reader.preads zstd history base = r at same
  have size : r.rawSize = base.rawSize := same.2.2.2
  have ends : off < base.rawSize.toNat → Ends
      (Reader.preadRound zstd off (min n (base.rawSize.toNat - off))) ([], r)
      (Reader.pread zstd r n off) := fun inside => by
    rw [← size] at inside ⊢
    exact Reader.pread_ends zstd wanted inside
  refine ⟨?_, ends, fun out r' comes short => ?_⟩
  · by_cases inside : off < base.rawSize.toNat
    · -- The last round has everything or an error.
      have outcome := (ends inside).result
        (I := fun s => base.SameIndex s.2 ∧ s.1.length ≤ min n (base.rawSize.toNat - off))
        (Q := fun result => (∀ st, result.1 = .error st → st ≠ .ok) ∧
          ∀ got, result.1 = .ok got → got.length = min n (base.rawSize.toNat - off))
        (fun s s' held round => ?_) (fun s result held round => ?_) ⟨same, Nat.zero_le _⟩
      · cases answer : (Reader.pread zstd r n off).1 with
        | error st => exact .inl ⟨st, rfl, outcome.1 st answer⟩
        | ok out => exact .inr ⟨out, rfl, outcome.2 out answer⟩
      · obtain ⟨kept, _, few⟩ := Reader.preadRound_again round held.1
        exact ⟨kept, few⟩
      · exact Reader.preadRound_done round held.2
    · -- A read behind the end has nothing to return.
      have behind : off ≥ r.rawSize.toNat := by
        rw [size]
        exact Nat.not_lt.mp inside
      right
      rw [Reader.pread, if_neg (Nat.ne_of_gt wanted), if_pos behind]
      exact ⟨[], rfl, by rw [List.length_nil]; omega⟩
  · -- The index is what it was, and finds a block for every position inside.
    have kept := comes.keeps (I := fun s => base.SameIndex s.2)
      (fun s s' held round => (Reader.preadRound_again round held).1) same
    have there : off + out.length < r'.rawSize.toNat := by
      rw [kept.2.2.2]
      omega
    exact Option.isSome_iff_ne_none.mp ((kept.indexed indexed).find_isSome there)

/-- A read of one byte after another, on a file that opens. -/
theorem pread_total_overlap : ∃ r, readerOpen none overlapFile none 1 = .ok r ∧
    ((∃ st, (Reader.pread none (Reader.preads none [(1, 0)] r) 1 1).1 = .error st ∧ st ≠ .ok) ∨
      ∃ out, (Reader.pread none (Reader.preads none [(1, 0)] r) 1 1).1 = .ok out ∧
        out.length = min 1 (r.rawSize.toNat - 1)) := by
  -- That the file opens is evaluated.
  have opens : (readerOpen none overlapFile none 1).toOption.isSome = true := by decide +kernel
  cases opened : readerOpen none overlapFile none 1 with
  | error st =>
    rw [opened] at opens
    cases opens
  | ok r => exact ⟨r, rfl, (pread_total opened [(1, 0)] Nat.one_pos 1).1⟩

end Xq
