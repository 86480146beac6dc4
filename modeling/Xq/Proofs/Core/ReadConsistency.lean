import Xq.Proofs.Core.Reads

/-! Position-consistency of reads: when a byte does not depend on the read it arrives in. -/

namespace Xq

section Lays

variable {zstd : Option CodecVt} {file : Bytes} {r : Reader}

/-- Some block that decodes puts a byte at a position of the stream. -/
def Reader.Lays (zstd : Option CodecVt) (r : Reader) (p : Nat) (b : UInt8) : Prop :=
  ∃ bi data, bi < r.blockCount ∧ r.blockDecode zstd bi = .ok data ∧
    indexRaw r.entries bi ≤ p ∧ data[p - indexRaw r.entries bi]? = some b

/-- What the search finds for a position of the stream. -/
theorem Reader.Ready.find_some (ready : r.Ready zstd file) {p bi : Nat}
    (inside : p < r.rawSize.toNat)
    (found : fmtIndexFind r.entries r.nentries (UInt64.ofNat p) = some bi) :
    bi < r.blockCount ∧ indexRaw r.entries bi ≤ p ∧ p < indexRaw r.entries (bi + 1) := by
  -- The position is a 64-bit number, since the raw size is one.
  have value : (UInt64.ofNat p).toNat = p :=
    UInt64.toNat_ofNat_of_lt' (Nat.lt_trans inside r.rawSize.toNat_lt)
  have spec := fmtIndexFind_some ready.index.first_raw found
  rw [value, ready.nentries] at spec
  exact ⟨by omega, spec.2⟩

/-- The search finds the block in whose extent a position lies. -/
theorem Reader.Ready.find_eq (ready : r.Ready zstd file) {p bi : Nat} (within : bi < r.blockCount)
    (extent : indexRaw r.entries bi ≤ p ∧ p < indexRaw r.entries (bi + 1)) :
    fmtIndexFind r.entries r.nentries (UInt64.ofNat p) = some bi := by
  -- The search finds some block whose extent holds the position, and there is only one.
  have total := ready.index.last_raw
  have inside : p < r.rawSize.toNat := by
    have := ready.index.raw_le (i := bi + 1) within (Nat.le_refl _)
    omega
  have value : (UInt64.ofNat p).toNat = p :=
    UInt64.toNat_ofNat_of_lt' (Nat.lt_trans inside r.rawSize.toNat_lt)
  have found := fmtIndexFind_isSome r.entries r.nentries (UInt64.ofNat p)
    (by rw [ready.nentries]; omega)
    (by rw [value, ready.nentries, Nat.add_sub_cancel, total]; exact inside)
  obtain ⟨bj, found⟩ := Option.isSome_iff_exists.mp found
  have spec := ready.find_some inside found
  rw [found, ready.index.raw_unique ⟨spec.1, within⟩ spec.2 extent]

/-- A read that is served has its whole length, and each of its bytes is one some block lays. -/
theorem Reader.Ready.serveLoop_lays (ready : r.Ready zstd file) {off n fuel : Nat}
    {out got : Bytes} (room : off + n ≤ r.rawSize.toNat) (enough : n ≤ out.length + fuel)
    (short : out.length ≤ n) (served : r.serveLoop zstd off n fuel out = .ok got) :
    got.length = n ∧ (∀ (k : Nat) (b : UInt8), out[k]? = some b → got[k]? = some b) ∧
      ∀ (k : Nat) (b : UInt8), out.length ≤ k → got[k]? = some b → r.Lays zstd (off + k) b := by
  -- The induction is on the rounds; each appends bytes of one block.
  induction fuel generalizing out with
  | zero =>
    cases served
    refine ⟨by omega, fun _ _ there => there, fun k b beyond there => ?_⟩
    rw [List.getElem?_eq_none beyond] at there
    cases there
  | succ fuel ih =>
    rw [Reader.serveLoop] at served
    by_cases more : out.length < n
    · rw [if_pos more] at served
      split at served; · cases served
      rename_i bi found
      obtain ⟨within, start, stop⟩ := ready.find_some (by omega) found
      dsimp only at served
      split at served; · cases served
      rename_i data decoded
      split at served; · cases served
      rename_i inside
      have entry : (r.entryAt bi).rawOffset.toNat = indexRaw r.entries bi := rfl
      rw [entry] at inside served
      have piece : (blockBytes data (off + out.length - indexRaw r.entries bi)
          (n - out.length)).length =
            min (n - out.length) (data.length - (off + out.length - indexRaw r.entries bi)) := by
        rw [blockBytes, List.length_take, List.length_drop]
      obtain ⟨length, kept, laid⟩ := ih (by rw [List.length_append, piece]; omega)
        (by rw [List.length_append, piece]; omega) served
      refine ⟨length, fun k b there => kept k b ?_, fun k b beyond there => ?_⟩
      · rw [List.getElem?_append_left (List.getElem?_eq_some_iff.mp there).1, there]
      · -- The byte comes from this round's block, or from a later round.
        rcases Nat.lt_or_ge k (out ++ blockBytes data (off + out.length - indexRaw r.entries bi)
          (n - out.length)).length with here | later
        · refine ⟨bi, data, within, decoded, by omega, ?_⟩
          have own := kept k _ (List.getElem?_eq_getElem here)
          have short := here
          rw [List.length_append, piece] at short
          rw [there] at own
          rw [own, ← List.getElem?_eq_getElem here, List.getElem?_append_right beyond, blockBytes,
            List.getElem?_take_of_lt (by omega), List.getElem?_drop]
          congr 1
          omega
        · exact laid k b later there
    · rw [if_neg more] at served
      cases served
      refine ⟨by omega, fun _ _ there => there, fun k b beyond there => ?_⟩
      rw [List.getElem?_eq_none beyond] at there
      cases there

/-- A read with all its bytes is done. -/
theorem Reader.serveLoop_done {off n : Nat} (fuel : Nat) {out : Bytes} (done : n ≤ out.length) :
    r.serveLoop zstd off n fuel out = .ok out := by
  -- The test of the loop fails at once.
  cases fuel with
  | zero => rfl
  | succ fuel => rw [Reader.serveLoop, if_neg (Nat.not_lt.mpr done)]

theorem Reader.Ready.serve_lays (ready : r.Ready zstd file) {n off : Nat} {got : Bytes}
    (served : r.serve zstd n off = .ok got) :
    ∀ (k : Nat) (b : UInt8), got[k]? = some b →
      off + k < r.rawSize.toNat ∧ r.Lays zstd (off + k) b := by
  -- The loop is the only branch that returns any bytes.
  intro k b there
  rw [Reader.serve] at served
  split at served
  · cases served
    cases there
  split at served
  · cases served
    cases there
  · obtain ⟨length, _, laid⟩ := ready.serveLoop_lays (by omega) (by simp) (Nat.zero_le _) served
    have inside := (List.getElem?_eq_some_iff.mp there).1
    exact ⟨by omega, laid k b (Nat.zero_le k) there⟩

/-- Every laid byte arrives in some read: the one that starts with its block. -/
theorem Reader.Ready.lays_served (ready : r.Ready zstd file) {p : Nat} {b : UInt8}
    (inside : p < r.rawSize.toNat) (laid : r.Lays zstd p b) :
    ∃ n off got, r.serve zstd n off = .ok got ∧ off ≤ p ∧ got[p - off]? = some b := by
  obtain ⟨bi, data, within, decoded, start, there⟩ := laid
  have reach := (List.getElem?_eq_some_iff.mp there).1
  refine ⟨p + 1 - indexRaw r.entries bi, indexRaw r.entries bi,
    data.take (p + 1 - indexRaw r.entries bi), ?_, start, ?_⟩
  · have found := ready.find_eq within ⟨Nat.le_refl _, ready.index.raw_lt bi within⟩
    have entry : (r.entryAt bi).rawOffset.toNat = indexRaw r.entries bi := rfl
    have asked : min (p + 1 - indexRaw r.entries bi)
        (r.rawSize.toNat - indexRaw r.entries bi) = p - indexRaw r.entries bi + 1 := by
      omega
    rw [Reader.serve, if_neg (by omega), if_neg (by omega)]
    dsimp only
    -- One round delivers everything that was asked for.
    rw [asked, Reader.serveLoop, if_pos (by rw [List.length_nil]; omega), List.length_nil,
      Nat.add_zero, found]
    dsimp only
    rw [decoded]
    dsimp only
    rw [entry, Nat.sub_self, if_neg (by omega), List.nil_append, Nat.sub_zero, blockBytes,
      List.drop_zero]
    have length : (data.take (p - indexRaw r.entries bi + 1)).length =
        p - indexRaw r.entries bi + 1 := by
      rw [List.length_take]
      omega
    rw [Reader.serveLoop_done _ (by omega), Nat.sub_add_comm start]
  · rw [List.getElem?_take_of_lt (by omega), there]

/-- Any two reads that succeed, after any earlier reads, hold the same byte at the same position
of the stream. -/
def Reader.ReadsAgree (zstd : Option CodecVt) (r : Reader) : Prop :=
  ∀ (history history' : List (Nat × Nat)) (n off n' off' : Nat) (got got' : Bytes),
    (Reader.pread zstd (Reader.preads zstd history r) n off).1 = .ok got →
    (Reader.pread zstd (Reader.preads zstd history' r) n' off').1 = .ok got' →
    ∀ p, off ≤ p → off' ≤ p → p < off + got.length → p < off' + got'.length →
      got[p - off]? = got'[p - off']?

/-- Any two blocks that decode hold the same byte wherever their bytes, laid from their raw offsets
in the index, meet within the stream. -/
def Reader.BlocksAgree (zstd : Option CodecVt) (r : Reader) : Prop :=
  ∀ (i j : Nat) (data data' : Bytes), i < r.blockCount → j < r.blockCount →
    r.blockDecode zstd i = .ok data → r.blockDecode zstd j = .ok data' →
    ∀ k k', indexRaw r.entries i + k = indexRaw r.entries j + k' →
      indexRaw r.entries i + k < r.rawSize.toNat → k < data.length → k' < data'.length →
        data[k]? = data'[k']?

/-- Blocks that stay within their extents in the index cannot meet. -/
theorem Reader.Ready.blocksAgree (ready : r.Ready zstd file)
    (extents : ∀ i data, i < r.blockCount → r.blockDecode zstd i = .ok data →
      indexRaw r.entries i + data.length ≤ indexRaw r.entries (i + 1)) : r.BlocksAgree zstd := by
  -- A position lies in the extent of one block only.
  intro i j data data' left right decoded decoded' k k' same inside there there'
  have extent := extents i data left decoded
  have extent' := extents j data' right decoded'
  obtain rfl := ready.index.raw_unique (p := indexRaw r.entries i + k) ⟨left, right⟩
    ⟨by omega, by omega⟩ ⟨by omega, by omega⟩
  obtain rfl := Except.ok.inj (decoded.symm.trans decoded')
  rw [Nat.add_left_cancel same]

/-- Reads of an accepted file agree exactly when its blocks do; so they do wherever no block is longer
than its extent in the index. -/
theorem preads_consistent_iff (external : ∀ c ∈ zstd, c.Steady) {opts : Option ReaderOpts}
    {cpus : Nat} (opened : readerOpen zstd file opts cpus = .ok r) :
    (r.ReadsAgree zstd ↔ r.BlocksAgree zstd) ∧
      ((∀ i data, i < r.blockCount → r.blockDecode zstd i = .ok data →
        indexRaw r.entries i + data.length ≤ indexRaw r.entries (i + 1)) → r.ReadsAgree zstd) := by
  have ready := readerOpen_ready external opened
  suffices exactly : r.ReadsAgree zstd ↔ r.BlocksAgree zstd from
    ⟨exactly, fun extents => exactly.mpr (ready.blocksAgree extents)⟩
  have serves (history : List (Nat × Nat)) (n off : Nat) :
      (Reader.pread zstd (Reader.preads zstd history r) n off).1 = r.serve zstd n off :=
    ((ready.serves.preads external ready.few ready.index.first_raw history).pread external
      ready.few ready.index.first_raw n off).1
  unfold Reader.ReadsAgree Reader.BlocksAgree
  simp only [serves]
  constructor
  · -- Each of the two bytes arrives in a read of its own.
    intro consistent i j data data' left right decoded decoded' k k' same inside there there'
    have laid : r.Lays zstd (indexRaw r.entries i + k) data[k] :=
      ⟨i, data, left, decoded, Nat.le_add_right _ _, by
        rw [Nat.add_sub_cancel_left, List.getElem?_eq_getElem there]⟩
    have laid' : r.Lays zstd (indexRaw r.entries i + k) data'[k'] :=
      ⟨j, data', right, decoded', by omega, by
        rw [same, Nat.add_sub_cancel_left, List.getElem?_eq_getElem there']⟩
    obtain ⟨n, off, got, served, after, byte⟩ := ready.lays_served inside laid
    obtain ⟨n', off', got', served', after', byte'⟩ := ready.lays_served inside laid'
    have reach := (List.getElem?_eq_some_iff.mp byte).1
    have reach' := (List.getElem?_eq_some_iff.mp byte').1
    have agree := consistent [] [] n off n' off' got got' served served'
      (indexRaw r.entries i + k) after after' (by omega) (by omega)
    rw [byte, byte'] at agree
    rw [List.getElem?_eq_getElem there, List.getElem?_eq_getElem there', agree]
  · -- Each byte of a read is laid by some block.
    intro agree _ _ n off n' off' got got' served served' p after after' before before'
    have byte := List.getElem?_eq_getElem (l := got) (i := p - off) (by omega)
    have byte' := List.getElem?_eq_getElem (l := got') (i := p - off') (by omega)
    obtain ⟨inside, i, data, left, decoded, start, there⟩ := ready.serve_lays served _ _ byte
    obtain ⟨_, j, data', right, decoded', start', there'⟩ := ready.serve_lays served' _ _ byte'
    rw [Nat.add_sub_cancel' after] at inside start there
    rw [Nat.add_sub_cancel' after'] at start' there'
    have same := agree i j data data' left right decoded decoded' (p - indexRaw r.entries i)
      (p - indexRaw r.entries j) (by omega) (by omega) (List.getElem?_eq_some_iff.mp there).1
      (List.getElem?_eq_some_iff.mp there').1
    rw [there, there'] at same
    rw [byte, byte', same]

end Lays

/-- A stream of two blocks, the first of which has a byte more than its extent in the index. -/
def overlapHeader : FileHeader :=
  { formatMajor := 1, formatMinor := 0, headerSize := 32, flags := 0, codecId := storedVt.id,
    level := 6, checksumId := 0, blockSizeLog := 12, rawSize := 2 }

def overlapBlocks : Bytes :=
  fmtBlockStore
      { bflags := bflagStored, codecId := 0, storedSize := 2, rawSize := 2, rawOffset := 0 } ++
    [0x41, 0x42] ++
    fmtBlockStore
      { bflags := bflagStored, codecId := 0, storedSize := 1, rawSize := 1, rawOffset := 1 } ++
    [0x43]

def overlapFile : Bytes := indexedFile overlapHeader overlapBlocks [⟨32, 0⟩, ⟨58, 1⟩, ⟨83, 2⟩]

/-- On that file, a read from the start and a read from the second byte disagree. -/
theorem overlapFile_reads : ∃ r, readerOpen none overlapFile none 1 = .ok r ∧
    (Reader.pread none r 2 0).1 = .ok [0x41, 0x42] ∧
    (Reader.pread none r 1 1).1 = .ok [0x43] := by
  -- Both reads are evaluated.
  have reads : ((readerOpen none overlapFile none 1).toOption.map fun r =>
      ((Reader.pread none r 2 0).1.toOption, (Reader.pread none r 1 1).1.toOption)) =
        some (some [0x41, 0x42], some [0x43]) := by
    decide +kernel
  cases opened : readerOpen none overlapFile none 1 with
  | error st =>
    rw [opened] at reads
    cases reads
  | ok r =>
    rw [opened] at reads
    obtain ⟨first, second⟩ := Prod.mk.inj (Option.some.inj reads)
    refine ⟨r, rfl, ?_, ?_⟩
    · cases read : (Reader.pread none r 2 0).1 with
      | error st =>
        rw [read] at first
        cases first
      | ok got =>
        rw [read] at first
        exact congrArg Except.ok (Option.some.inj first)
    · cases read : (Reader.pread none r 1 1).1 with
      | error st =>
        rw [read] at second
        cases second
      | ok got =>
        rw [read] at second
        exact congrArg Except.ok (Option.some.inj second)

/-- Two successful reads of an accepted file can differ in a byte they share. -/
theorem preads_disagree :
    ¬ ∀ (file : Bytes) (r : Reader), readerOpen none file none 1 = .ok r → r.ReadsAgree none := by
  -- The two reads share the second byte of the file.
  intro consistent
  obtain ⟨r, opened, first, second⟩ := overlapFile_reads
  have same := consistent overlapFile r opened [] [] 2 0 1 1 _ _ first second 1 (by decide)
    (by decide) (by decide) (by decide)
  exact absurd same (by decide)

/-- The equivalence on that file, where both of its sides fail. -/
theorem preads_consistent_iff_overlap : ∃ r, readerOpen none overlapFile none 1 = .ok r ∧
    (r.ReadsAgree none ↔ r.BlocksAgree none) := by
  -- The file opens, and nothing is asked of codecs that are not built in.
  obtain ⟨r, opened, _⟩ := overlapFile_reads
  exact ⟨r, opened, (preads_consistent_iff (by simp) opened).1⟩

end Xq
