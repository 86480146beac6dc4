import Xq.Proofs.Core.ReadConsistency

/-! What a clean verify says about the reads after it. -/

namespace Xq

/-- The raw size that the header at a block's offset in the index announces. -/
def Reader.blockRawSize (r : Reader) (i : Nat) : Nat :=
  (fmtBlockFields ((r.file.drop (indexFile r.entries i)).take blockHeaderSize)).rawSize.toNat

/-- A refusal of the block parser is an error. -/
theorem fmtBlockParse_ne_ok (buf : Bytes) : fmtBlockParse buf ≠ .error .ok := by
  intro wrong
  unfold fmtBlockParse at wrong
  dsimp only at wrong
  -- Each guard that fires names a status of its own.
  split at wrong; · cases wrong
  split at wrong; · cases wrong
  split at wrong; · cases wrong
  split at wrong; · cases wrong
  split at wrong; · cases wrong
  split at wrong; · cases wrong
  split at wrong; · cases wrong
  split at wrong; · cases wrong
  cases wrong

/-- The loop of a verify in which each block is decoded afresh. -/
def Reader.verifyFresh (zstd : Option CodecVt) (r : Reader) : Nat → Nat → VerifyRun → VerifyRun
  | 0, _, v => v
  | left + 1, i, v =>
    Reader.verifyFresh zstd r left (i + 1)
      (match r.blockDecode zstd i with
      | .ok raw => v.good raw
      | .error st => v.bad (r.entryAt i).rawOffset st)

section

variable {zstd : Option CodecVt} {file : Bytes} {base r : Reader}

/-- A block that decodes has the length its header announces. -/
theorem Reader.blockDecode_length {i : Nat} {data : Bytes}
    (decoded : r.blockDecode zstd i = .ok data) : data.length = r.blockRawSize i := by
  rw [Reader.blockDecode] at decoded
  split at decoded
  rename_i st p slot
  obtain ⟨st_ok, decoded⟩ := guard_eq_ok.mp decoded
  cases decoded
  obtain rfl := not_not.mp st_ok
  unfold Reader.decodeBlockSlot blockRefused at slot
  dsimp only at slot
  -- A success has passed every guard, and the last of them compares the two sizes.
  split at slot; · cases slot
  rename_i large
  split at slot; · cases slot
  split at slot
  · rename_i staging read
    split at slot; · cases slot
    split at slot
    · rename_i refused
      obtain ⟨rfl, -⟩ := Prod.mk.inj slot
      exact (fmtBlockParse_ne_ok _ refused).elim
    rename_i b parsed
    split at slot; · cases slot
    split at slot; · cases slot
    split at slot; · cases slot
    split at slot; · cases slot
    split at slot; · cases slot
    obtain ⟨finish, rfl⟩ := Prod.mk.inj slot
    rw [blockFinish] at finish
    split at finish
    · contradiction
    split at finish
    · cases finish
    rename_i same
    rw [not_not.mp same, Reader.blockRawSize]
    -- The header that was parsed stands at the block's offset.
    have fields := (fmtBlockParse_ok_iff.mp parsed).2.2.2.2
    rw [filePread] at read
    split at read
    · cases read
    obtain ⟨_, rfl⟩ := Prod.mk.inj read
    rw [← fields, List.take_take, Nat.min_eq_left (Nat.not_lt.mp large)]
    rfl
  · rename_i failed _
    obtain ⟨rfl, -⟩ := Prod.mk.inj slot
    exact (failed rfl).elim

/-- The block loop decodes as if every block were decoded afresh, and keeps a reader serving. -/
theorem Reader.Serves.verifyLoop (external : ∀ c ∈ zstd, c.Steady)
    (serves : base.Serves zstd r) (left i : Nat) (v : VerifyRun) :
    (Reader.verifyLoop zstd left i v r).1 = base.verifyFresh zstd left i v ∧
      base.Serves zstd (Reader.verifyLoop zstd left i v r).2 := by
  induction left generalizing i v r with
  | zero => exact ⟨rfl, serves⟩
  | succ left ih =>
    rw [Reader.verifyLoop, Reader.verifyFresh]
    have decoded := serves.decode external serves.dctx i
    revert decoded
    generalize Reader.decodeBlockSlot zstd r r.dctx i = result
    obtain ⟨st, p⟩ := result
    rintro ⟨decoded, maker⟩
    dsimp only at decoded maker ⊢
    have next : base.Serves zstd { r with dctx := p.dctx, calls := r.calls ++ p.call.toList } :=
      { serves with dctx := maker }
    have entry : ({ r with dctx := p.dctx, calls := r.calls ++ p.call.toList } : Reader).entryAt i =
        base.entryAt i :=
      next.common fun o => o.entryAt i
    rw [decoded, entry]
    -- Either way the account is the same, and the rest follows.
    by_cases failed : st ≠ .ok
    · rw [if_pos failed, if_neg failed]
      exact ih next _ _
    · rw [if_neg failed, if_pos (not_not.mp failed)]
      exact ih next _ _

theorem Reader.Serves.verify (external : ∀ c ∈ zstd, c.Steady) (serves : base.Serves zstd r) :
    base.Serves zstd (Reader.verify zstd r).2.2 := by
  -- Only the loop over the blocks changes the reader.
  unfold Reader.verify
  exact (serves.verifyLoop external _ _ _).2

/-- The bytes of the blocks from one index on, as their headers announce them. -/
def Reader.rawSizes (r : Reader) (i left : Nat) : Nat :=
  ((List.range' i left).map r.blockRawSize).sum

/-- The loop counts a bad block exactly when some block does not decode, and otherwise the bytes
the headers announce. -/
theorem Reader.verifyFresh_report (zstd : Option CodecVt) (r : Reader) (left i : Nat) (v : VerifyRun) :
    v.rep.blocksBad ≤ (r.verifyFresh zstd left i v).rep.blocksBad ∧
    ((r.verifyFresh zstd left i v).rep.blocksBad = v.rep.blocksBad ↔
      ∀ k, i ≤ k → k < i + left → (r.blockDecode zstd k).isOk) ∧
    ((∀ k, i ≤ k → k < i + left → (r.blockDecode zstd k).isOk) →
      (r.verifyFresh zstd left i v).rep.bytesVerified =
        v.rep.bytesVerified + UInt64.ofNat (r.rawSizes i left)) := by
  -- The induction is on the blocks still to come.
  induction left generalizing i v with
  | zero =>
    refine ⟨Nat.le_refl _, iff_of_true rfl fun k after before => absurd after (by omega),
      fun _ => ?_⟩
    simp [Reader.verifyFresh, Reader.rawSizes]
  | succ left ih =>
    rw [Reader.verifyFresh]
    cases decoded : r.blockDecode zstd i with
    | error st =>
      -- One bad block keeps the count above where it started.
      obtain ⟨more, _, _⟩ := ih (i + 1) (v.bad (r.entryAt i).rawOffset st)
      have counted : (v.bad (r.entryAt i).rawOffset st).rep.blocksBad = v.rep.blocksBad + 1 := rfl
      have bad : ¬ ∀ k, i ≤ k → k < i + (left + 1) → (r.blockDecode zstd k).isOk := by
        intro all
        have good := all i (Nat.le_refl i) (by omega)
        rw [decoded] at good
        cases good
      dsimp only
      refine ⟨by omega, iff_of_false (by omega) bad, fun all => (bad all).elim⟩
    | ok raw =>
      obtain ⟨more, clean, bytes⟩ := ih (i + 1) (v.good raw)
      have here : (r.blockDecode zstd i).isOk := by
        rw [decoded]
        rfl
      have split_at (all : ∀ k, i + 1 ≤ k → k < i + 1 + left → (r.blockDecode zstd k).isOk) :
          ∀ k, i ≤ k → k < i + (left + 1) → (r.blockDecode zstd k).isOk := by
        intro k after before
        rcases Nat.eq_or_lt_of_le after with rfl | later
        · exact here
        · exact all k later (by omega)
      have rest (all : ∀ k, i ≤ k → k < i + (left + 1) → (r.blockDecode zstd k).isOk) :
          ∀ k, i + 1 ≤ k → k < i + 1 + left → (r.blockDecode zstd k).isOk :=
        fun k after before => all k (by omega) (by omega)
      dsimp only
      refine ⟨more, clean.trans ⟨split_at, rest⟩, fun all => ?_⟩
      rw [bytes (rest all)]
      have sizes : r.rawSizes i (left + 1) = raw.length + r.rawSizes (i + 1) left := by
        rw [Reader.blockDecode_length decoded, Reader.rawSizes, List.range'_succ, List.map_cons,
          List.sum_cons, Reader.rawSizes]
      rw [sizes, UInt64.ofNat_add, ← UInt64.add_assoc]
      rfl

/-- What a verify in a serving reader reports. -/
theorem Reader.Serves.verify_ok (external : ∀ c ∈ zstd, c.Steady) (serves : base.Serves zstd r) :
    ((Reader.verify zstd r).1 = .ok ↔ ∀ i < base.blockCount, (base.blockDecode zstd i).isOk) ∧
    ((∀ i < base.blockCount, (base.blockDecode zstd i).isOk) →
      (Reader.verify zstd r).2.1.bytesVerified =
        UInt64.ofNat (base.rawSizes 0 base.blockCount)) := by
  have count : r.blockCount = base.blockCount := serves.common Reader.blockCount
  unfold Reader.verify
  extract_lets wanted start
  rw [count]
  have loop := (serves.verifyLoop external base.blockCount 0 start).1
  have report := Reader.verifyFresh_report zstd base base.blockCount 0 start
  rw [← loop] at report
  revert report
  generalize Reader.verifyLoop zstd base.blockCount 0 start r = run
  obtain ⟨v, r'⟩ := run
  rintro ⟨_, clean, bytes⟩
  dsimp only at clean bytes ⊢
  have zero : start.rep.blocksBad = 0 := rfl
  have none_yet : start.rep.bytesVerified = 0 := rfl
  rw [zero] at clean
  rw [none_yet, UInt64.zero_add] at bytes
  -- The loop goes over all blocks.
  have range : (∀ k, 0 ≤ k → k < 0 + base.blockCount → (base.blockDecode zstd k).isOk) ↔
      ∀ i < base.blockCount, (base.blockDecode zstd i).isOk := by
    simp
  rw [range] at clean bytes
  refine ⟨?_, bytes⟩
  rw [← clean]
  by_cases bad : v.rep.blocksBad = 0
  · rw [if_neg (not_not.mpr bad)]
    exact iff_of_true rfl bad
  · rw [if_pos bad]
    exact iff_of_false (by simp) bad

/-- Where every block decodes and covers its extent, every position of the stream is served. -/
theorem Reader.Ready.serveLoop_full (ready : r.Ready zstd file)
    (decodes : ∀ i < r.blockCount, (r.blockDecode zstd i).isOk)
    (covers : ∀ i < r.blockCount, indexRaw r.entries (i + 1) ≤
      indexRaw r.entries i + r.blockRawSize i) {off n fuel : Nat} {out : Bytes}
    (room : off + n ≤ r.rawSize.toNat) (enough : n ≤ out.length + fuel)
    (short : out.length ≤ n) :
    ∃ got, r.serveLoop zstd off n fuel out = .ok got ∧ got.length = n := by
  -- The induction is on the rounds; each of them delivers at least a byte.
  induction fuel generalizing out with
  | zero => exact ⟨out, rfl, by omega⟩
  | succ fuel ih =>
    rw [Reader.serveLoop]
    by_cases more : out.length < n
    · rw [if_pos more]
      have value : (UInt64.ofNat (off + out.length)).toNat = off + out.length :=
        UInt64.toNat_ofNat_of_lt' (Nat.lt_trans (by omega) r.rawSize.toNat_lt)
      have found := fmtIndexFind_isSome r.entries r.nentries (UInt64.ofNat (off + out.length))
        (by have := ready.index.some_block; rw [ready.nentries]; omega)
        (by rw [value, ready.nentries, Nat.add_sub_cancel, ready.index.last_raw]; omega)
      obtain ⟨bi, found⟩ := Option.isSome_iff_exists.mp found
      obtain ⟨within, start, stop⟩ := ready.find_some (by omega) found
      rw [found]
      dsimp only
      cases decoded : r.blockDecode zstd bi with
      | error st =>
        have good := decodes bi within
        rw [decoded] at good
        cases good
      | ok data =>
        have length := Reader.blockDecode_length decoded
        have cover := covers bi within
        have entry : (r.entryAt bi).rawOffset.toNat = indexRaw r.entries bi := rfl
        dsimp only
        rw [entry, if_neg (by omega)]
        -- The block covers the position, so it has at least a byte to add.
        have piece : (blockBytes data (off + out.length - indexRaw r.entries bi)
            (n - out.length)).length =
              min (n - out.length)
                (data.length - (off + out.length - indexRaw r.entries bi)) := by
          rw [blockBytes, List.length_take, List.length_drop]
        exact ih (by rw [List.length_append, piece]; omega)
          (by rw [List.length_append, piece]; omega)
    · rw [if_neg more]
      exact ⟨out, rfl, by omega⟩

/-- A block shorter than its extent leaves a position that cannot be read. -/
theorem Reader.Ready.serve_short (ready : r.Ready zstd file) {i : Nat} (within : i < r.blockCount)
    (decodes : (r.blockDecode zstd i).isOk)
    (short : indexRaw r.entries i + r.blockRawSize i < indexRaw r.entries (i + 1)) :
    indexRaw r.entries i + r.blockRawSize i < r.rawSize.toNat ∧
      r.serve zstd 1 (indexRaw r.entries i + r.blockRawSize i) = .error .corruptBlock := by
  have total := ready.index.last_raw
  have inside := ready.index.raw_le (i := i + 1) within (Nat.le_refl _)
  refine ⟨by omega, ?_⟩
  cases decoded : r.blockDecode zstd i with
  | error st =>
    rw [decoded] at decodes
    cases decodes
  | ok data =>
    have length := Reader.blockDecode_length decoded
    have found := ready.find_eq within
      (p := indexRaw r.entries i + r.blockRawSize i) ⟨Nat.le_add_right _ _, short⟩
    have entry : (r.entryAt i).rawOffset.toNat = indexRaw r.entries i := rfl
    have asked : min 1 (r.rawSize.toNat - (indexRaw r.entries i + r.blockRawSize i)) = 1 := by
      omega
    rw [Reader.serve, if_neg Nat.one_ne_zero, if_neg (by omega), asked]
    dsimp only
    -- The first round already asks for the byte behind the block's last one.
    rw [Reader.serveLoop, if_pos (by decide), List.length_nil, Nat.add_zero, found]
    dsimp only
    rw [decoded]
    dsimp only
    rw [entry, if_pos (by omega)]

/-- A clean verify, after any earlier reads, has counted the whole stream, and every read inside
the stream then succeeds with all its bytes, after any further reads. -/
def Reader.CleanMeansReadable (zstd : Option CodecVt) (r : Reader) : Prop :=
  ∀ earlier : List (Nat × Nat),
    (Reader.verify zstd (Reader.preads zstd earlier r)).1 = .ok →
    (Reader.verify zstd (Reader.preads zstd earlier r)).2.1.bytesVerified = r.rawSize ∧
    ∀ (later : List (Nat × Nat)) (n off : Nat), off < r.rawSize.toNat →
      ∃ got, (Reader.pread zstd (Reader.preads zstd later
          (Reader.verify zstd (Reader.preads zstd earlier r)).2.2) n off).1 = .ok got ∧
        got.length = min n (r.rawSize.toNat - off)

/-- No block's header announces less than the block's extent in the index, and together they
announce the size of the stream. -/
def Reader.SizesMatch (r : Reader) : Prop :=
  (∀ i < r.blockCount,
    indexRaw r.entries (i + 1) ≤ indexRaw r.entries i + r.blockRawSize i) ∧
  UInt64.ofNat (r.rawSizes 0 r.blockCount) = r.rawSize

/-- A clean verify means a readable file exactly when the blocks, if they all decode, have sizes
that match the index. -/
theorem verify_readable_iff (external : ∀ c ∈ zstd, c.Steady) {opts : Option ReaderOpts}
    {cpus : Nat} (opened : readerOpen zstd file opts cpus = .ok r) :
    r.CleanMeansReadable zstd ↔
      ((∀ i < r.blockCount, (r.blockDecode zstd i).isOk) → r.SizesMatch) := by
  have ready := readerOpen_ready external opened
  have zero := ready.index.first_raw
  have history (earlier : List (Nat × Nat)) : r.Serves zstd (Reader.preads zstd earlier r) :=
    ready.serves.preads external ready.few zero earlier
  have after (earlier later : List (Nat × Nat)) (n off : Nat) :
      (Reader.pread zstd (Reader.preads zstd later
        (Reader.verify zstd (Reader.preads zstd earlier r)).2.2) n off).1 = r.serve zstd n off :=
    ((((history earlier).verify external).preads external ready.few zero later).pread external
      ready.few zero n off).1
  unfold Reader.CleanMeansReadable Reader.SizesMatch
  simp only [after]
  constructor
  · -- A verify without earlier reads is clean already.
    intro readable decodes
    have verified := ready.serves.verify_ok external
    obtain ⟨counted, reads⟩ := readable [] (verified.1.mpr decodes)
    refine ⟨fun i within => ?_, (verified.2 decodes).symm.trans counted⟩
    by_contra below
    obtain ⟨inside, refused⟩ :=
      ready.serve_short within (decodes i within) (Nat.not_le.mp below)
    obtain ⟨got, served, _⟩ := reads [] 1 _ inside
    rw [refused] at served
    cases served
  · intro sizes earlier clean
    have verified := (history earlier).verify_ok external
    have decodes := verified.1.mp clean
    obtain ⟨covers, total⟩ := sizes decodes
    refine ⟨(verified.2 decodes).trans total, fun _ n off inside => ?_⟩
    rw [Reader.serve]
    by_cases empty : n = 0
    · rw [if_pos empty]
      exact ⟨[], rfl, by rw [empty, Nat.zero_min, List.length_nil]⟩
    · rw [if_neg empty, if_neg (Nat.not_le.mpr inside)]
      exact ready.serveLoop_full decodes covers (by omega) (by simp) (Nat.zero_le _)

end

/-- A stream whose only block has a byte less than its extent in the index. -/
def shortFile : Bytes :=
  indexedFile overlapHeader
    (fmtBlockStore
        { bflags := bflagStored, codecId := 0, storedSize := 1, rawSize := 1, rawOffset := 0 } ++
      [0x41]) [⟨32, 0⟩, ⟨57, 2⟩]

/-- On that file a verify is clean, and has counted one byte of two. -/
theorem shortFile_verify : ∃ r, readerOpen none shortFile none 1 = .ok r ∧
    (Reader.verify none r).1 = .ok ∧ (Reader.verify none r).2.1.bytesVerified = 1 ∧
    r.rawSize = 2 := by
  -- The verify is evaluated.
  have verified : ((readerOpen none shortFile none 1).toOption.map fun r =>
      ((Reader.verify none r).1, (Reader.verify none r).2.1.bytesVerified, r.rawSize)) =
        some (.ok, 1, 2) := by
    decide +kernel
  cases opened : readerOpen none shortFile none 1 with
  | error st =>
    rw [opened] at verified
    cases verified
  | ok r =>
    rw [opened] at verified
    obtain ⟨clean, rest⟩ := Prod.mk.inj (Option.some.inj verified)
    obtain ⟨counted, size⟩ := Prod.mk.inj rest
    exact ⟨r, rfl, clean, counted, size⟩

/-- A clean verify of an accepted file does not mean that the file can be read. -/
theorem verify_unreadable :
    ¬ ∀ (file : Bytes) (r : Reader), readerOpen none file none 1 = .ok r →
      r.CleanMeansReadable none := by
  -- One byte of two has been verified.
  intro readable
  obtain ⟨r, opened, clean, counted, size⟩ := shortFile_verify
  have same := (readable shortFile r opened [] clean).1
  rw [Reader.preads, counted, size] at same
  exact absurd same (by decide)

/-- The equivalence on that file, where both of its sides fail. -/
theorem verify_readable_iff_short : ∃ r, readerOpen none shortFile none 1 = .ok r ∧
    (r.CleanMeansReadable none ↔
      ((∀ i < r.blockCount, (r.blockDecode none i).isOk) → r.SizesMatch)) := by
  -- The file opens, and nothing is asked of codecs that are not built in.
  obtain ⟨r, opened, _⟩ := shortFile_verify
  exact ⟨r, opened, verify_readable_iff (by simp) opened⟩

end Xq
