import Xq.Proofs.Core.ReadConsistency

/-! Damage inside one block's extent: what opening and the reads of other blocks make of it. -/

namespace Xq

/-- Two files of one length that differ at most in a range of offsets. -/
structure DiffersWithin (file file' : Bytes) (lo hi : Nat) : Prop where
  length : file'.length = file.length
  outside : ∀ k, k < lo ∨ hi ≤ k → file'[k]? = file[k]?

section Slices

variable {file file' : Bytes} {lo hi : Nat}

/-- A slice outside the range reads the same. -/
theorem DiffersWithin.slice (differs : DiffersWithin file file' lo hi) (off len : Nat)
    (apart : off + len ≤ lo ∨ hi ≤ off) :
    (file'.drop off).take len = (file.drop off).take len := by
  apply List.ext_getElem?
  intro k
  rcases Nat.lt_or_ge k len with inside | beyond
  · -- Inside the slice, the offset is outside the range.
    rw [List.getElem?_take_of_lt inside, List.getElem?_take_of_lt inside, List.getElem?_drop,
      List.getElem?_drop]
    exact differs.outside _ (by omega)
  · rw [List.getElem?_eq_none (by rw [List.length_take]; omega),
      List.getElem?_eq_none (by rw [List.length_take]; omega)]

theorem DiffersWithin.filePread (differs : DiffersWithin file file' lo hi) {off len : Nat}
    (apart : off + len ≤ lo ∨ hi ≤ off) : filePread file' len off = filePread file len off := by
  -- A read sees a slice of the file and its length.
  rw [Xq.filePread, Xq.filePread, differs.slice off len apart]

theorem DiffersWithin.fileMap (differs : DiffersWithin file file' lo hi) {off len : Nat}
    (apart : off + len ≤ lo ∨ hi ≤ off) : fileMap file' off len = fileMap file off len := by
  -- So does a mapping.
  rw [Xq.fileMap, Xq.fileMap, differs.slice off len apart]

/-- Header and footer are read off both ends of a file. -/
theorem DiffersWithin.loadTail (differs : DiffersWithin file file' lo hi)
    (front : fileHeaderSize ≤ lo) (back : hi + footerSize ≤ file.length) :
    loadTail file' = loadTail file := by
  -- The range lies behind the header and in front of the footer.
  have header : file'.take fileHeaderSize = file.take fileHeaderSize := by
    have := differs.slice 0 fileHeaderSize (.inl (by omega))
    rwa [List.drop_zero, List.drop_zero] at this
  have footer : file'.drop (file.length - footerSize) = file.drop (file.length - footerSize) := by
    have := differs.slice (file.length - footerSize) footerSize (.inr (by omega))
    rwa [List.take_of_length_le (by rw [List.length_drop, differs.length]; omega),
      List.take_of_length_le (by rw [List.length_drop]; omega)] at this
  rw [Xq.loadTail, Xq.loadTail, differs.length, header, footer]

/-- The index record lies behind the range, so it loads as before. -/
theorem DiffersWithin.loadIndex (differs : DiffersWithin file file' lo hi) {footer : Footer}
    (behind : hi ≤ footer.indexOffset.toNat) (hdr : FileHeader) :
    loadIndex file' hdr footer = loadIndex file hdr footer := by
  -- Both the header of the record and its payload are read behind the range.
  have record : Xq.filePread file' recordHeaderSize footer.indexOffset.toNat =
      Xq.filePread file recordHeaderSize footer.indexOffset.toNat :=
    differs.filePread (.inr behind)
  have payload (len : Nat) :
      Xq.fileMap file' (footer.indexOffset.toNat + recordHeaderSize) len =
        Xq.fileMap file (footer.indexOffset.toNat + recordHeaderSize) len :=
    differs.fileMap (.inr (by omega))
  rw [Xq.loadIndex, Xq.loadIndex, record, differs.length]
  simp only [payload]

end Slices

/-- The same reader on another file. -/
def Reader.onFile (r : Reader) (file : Bytes) : Reader := { r with file := file }

section Metadata

variable {zstd : Option CodecVt}

/-- Loading a dictionary does not look at the file. -/
theorem Reader.loadDict_onFile (r : Reader) (file : Bytes) (memLimit : Nat) (payload : Bytes) :
    Reader.loadDict zstd (r.onFile file) memLimit payload =
      ((Reader.loadDict zstd r memLimit payload).1,
        (Reader.loadDict zstd r memLimit payload).2.onFile file) := by
  unfold Reader.loadDict
  cases dictPayloadParse payload with
  | error st => rfl
  | ok info =>
    dsimp only
    by_cases refused : memLimit ≠ 0 ∧ info.rawSize.toNat > memLimit
    · rw [if_pos refused, if_pos refused]
    · rw [if_neg refused, if_neg refused]
      have dctx : (r.onFile file).dctx = r.dctx := rfl
      have codec : (r.onFile file).codec = r.codec := rfl
      rw [dctx, codec]
      -- Both decode the same payload in the same context.
      generalize dictDecode zstd r.dctx info (payload.drop dictPayloadHeader) = decoded
      obtain ⟨⟨raw, d⟩, call⟩ := decoded
      cases raw with
      | error st => rfl
      | ok raw =>
        dsimp only
        cases dictDigest r.codec info raw with
        | error st => rfl
        | ok ddict => rfl

/-- Nor does the walk over the metadata, once its bytes are at hand. -/
theorem Reader.metaLoop_onFile (file : Bytes) (memLimit fuel : Nat) (p : Bytes) (r : Reader) :
    Reader.metaLoop zstd memLimit fuel p (r.onFile file) =
      ((Reader.metaLoop zstd memLimit fuel p r).1,
        (Reader.metaLoop zstd memLimit fuel p r).2.onFile file) := by
  -- The induction is on the records; only a dictionary changes the reader.
  induction fuel generalizing p r with
  | zero => rfl
  | succ fuel ih =>
    rw [Reader.metaLoop, Reader.metaLoop]
    by_cases done : p.length < recordHeaderSize
    · rw [if_pos done, if_pos done]
    rw [if_neg done, if_neg done]
    cases fmtRecordParse p with
    | error st => rfl
    | ok rh =>
      dsimp only
      by_cases large : rh.size.toNat > p.length - recordHeaderSize
      · rw [if_pos large, if_pos large]
      rw [if_neg large, if_neg large]
      by_cases damaged :
          fmtRecordVerify p ((p.drop recordHeaderSize).take rh.size.toNat) ≠ .ok
      · rw [if_pos damaged, if_pos damaged]
      rw [if_neg damaged, if_neg damaged]
      by_cases dict : rh.tag = recDict
      · rw [if_pos dict, if_pos dict, Reader.loadDict_onFile]
        generalize Reader.loadDict zstd r memLimit
          ((p.drop recordHeaderSize).take rh.size.toNat) = loaded
        obtain ⟨st, loaded⟩ := loaded
        cases st
        case ok => exact ih _ loaded
        all_goals rfl
      rw [if_neg dict, if_neg dict]
      by_cases critical : rh.rflags &&& rflagCritical ≠ 0 ∧ rh.tag ≠ recEndOfBlocks
      · rw [if_pos critical, if_pos critical]
      · rw [if_neg critical, if_neg critical]
        exact ih _ r

/-- The metadata lies in front of the first block, so it loads as before. -/
theorem Reader.loadMeta_onFile (zstd : Option CodecVt) {r : Reader} {file' : Bytes} {lo hi : Nat}
    (differs : DiffersWithin r.file file' lo hi)
    (front : (fmtIndexEntryLoad r.entries 0).fileOffset.toNat ≤ lo) (memLimit : Nat) :
    Reader.loadMeta zstd (r.onFile file') memLimit =
      ((Reader.loadMeta zstd r memLimit).1, (Reader.loadMeta zstd r memLimit).2.onFile file') := by
  unfold Reader.loadMeta
  have entries : (r.onFile file').entries = r.entries := rfl
  have hdr : (r.onFile file').hdr = r.hdr := rfl
  rw [entries, hdr]
  extract_lets first start region
  by_cases outside : first < start
  · rw [if_pos outside, if_pos outside]
  rw [if_neg outside, if_neg outside]
  by_cases none : region = 0
  · rw [if_pos none, if_pos none]
  rw [if_neg none, if_neg none]
  by_cases large : region > dictSizeMax + 2 ^ 20
  · rw [if_pos large, if_pos large]
  rw [if_neg large, if_neg large]
  by_cases limited : memLimit ≠ 0 ∧ region > memLimit
  · rw [if_pos limited, if_pos limited]
  rw [if_neg limited, if_neg limited]
  -- The mapped bytes are the same ones, and so is everything the walk makes of them.
  have mapped : fileMap (r.onFile file').file start region = fileMap r.file start region :=
    differs.fileMap (.inl (by
      show start + (first - start) ≤ lo
      have : first ≤ lo := front
      omega))
  rw [mapped]
  generalize fileMap r.file start region = mapping
  obtain ⟨st, base⟩ := mapping
  cases st
  case ok =>
    dsimp only
    rw [Reader.metaLoop_onFile]
    generalize Reader.metaLoop zstd memLimit base.length base r = walked
    obtain ⟨st, walked⟩ := walked
    cases st
    case ok =>
      have ddict : (walked.onFile file').ddict = walked.ddict := rfl
      have walkedHdr : (walked.onFile file').hdr = walked.hdr := rfl
      dsimp only
      rw [ddict, walkedHdr]
      by_cases missing : walked.hdr.flags &&& flagDictPresent ≠ 0 ∧ walked.ddict.isNone
      · rw [if_pos missing, if_pos missing]
      · rw [if_neg missing, if_neg missing]
    all_goals rfl
  all_goals rfl

theorem Reader.setupBuffers_onFile (r : Reader) (file : Bytes) (opts : Option ReaderOpts)
    (cpus : Nat) :
    (r.onFile file).setupBuffers opts cpus =
      ((r.setupBuffers opts cpus).1, (r.setupBuffers opts cpus).2.onFile file) := by
  -- The buffers depend on the header and the options only.
  unfold Reader.setupBuffers
  dsimp only [Reader.onFile]
  split
  · rfl
  · rfl

end Metadata

section Reads

variable {zstd : Option CodecVt} {file file' : Bytes} {r : Reader} {i : Nat}

/-- The file offsets of the index are in order. -/
theorem IndexValid.file_le {entries : Bytes} {blocks fileSize : Nat} {totalRaw : UInt64}
    (valid : IndexValid entries blocks totalRaw fileSize) {i j : Nat} (before : i ≤ j)
    (inside : j ≤ blocks) : indexFile entries i ≤ indexFile entries j := by
  -- The induction is on the entries in between.
  induction before with
  | refl => exact Nat.le_refl _
  | @step m _ ih =>
    have room := valid.file_room m (by omega)
    have earlier := ih (by omega)
    show indexFile entries i ≤ indexFile entries (m + 1)
    omega

/-- Any other block decodes as before. -/
theorem Reader.Ready.blockDecode_onFile (ready : r.Ready zstd file)
    (differs : DiffersWithin file file' (indexFile r.entries i) (indexFile r.entries (i + 1)))
    {j : Nat} (within : i < r.blockCount ∧ j < r.blockCount) (other : j ≠ i) :
    (r.onFile file').blockDecode zstd j = r.blockDecode zstd j := by
  -- The extents of two blocks do not meet.
  have apart : indexFile r.entries (j + 1) ≤ indexFile r.entries i ∨
      indexFile r.entries (i + 1) ≤ indexFile r.entries j := by
    rcases Nat.lt_or_gt_of_ne other with before | after
    · exact .inl (ready.index.file_le before within.1.le)
    · exact .inr (ready.index.file_le after within.2.le)
  have room := ready.index.file_room j within.2
  have extent : ((r.entryAt (j + 1)).fileOffset - (r.entryAt j).fileOffset).toNat =
      indexFile r.entries (j + 1) - indexFile r.entries j :=
    UInt64.toNat_sub_of_le _ _ (UInt64.le_iff_toNat_le.mpr (by
      show indexFile r.entries j ≤ indexFile r.entries (j + 1)
      omega))
  have read : filePread file' (indexFile r.entries (j + 1) - indexFile r.entries j)
      (indexFile r.entries j) = filePread file
        (indexFile r.entries (j + 1) - indexFile r.entries j) (indexFile r.entries j) :=
    differs.filePread (by omega)
  rw [Reader.blockDecode, Reader.blockDecode]
  unfold Reader.decodeBlockSlot
  have cur : (r.onFile file').entryAt j = r.entryAt j := rfl
  have next : (r.onFile file').entryAt (j + 1) = r.entryAt (j + 1) := rfl
  have start : (r.entryAt j).fileOffset.toNat = indexFile r.entries j := rfl
  have common : (r.onFile file').cbufCap = r.cbufCap ∧ (r.onFile file').file = file' ∧
      (r.onFile file').maxRaw = r.maxRaw ∧ (r.onFile file').checksumLen = r.checksumLen ∧
      (r.onFile file').hdr = r.hdr ∧ (r.onFile file').ddict = r.ddict ∧
      (r.onFile file').codec = r.codec := ⟨rfl, rfl, rfl, rfl, rfl, rfl, rfl⟩
  obtain ⟨cbufCap, onFile, maxRaw, checksumLen, hdr, ddict, codec⟩ := common
  rw [cur, next, cbufCap, onFile, maxRaw, checksumLen, hdr, ddict, codec]
  dsimp only
  rw [extent, start, read, ready.file_eq]

/-- A read that stays clear of the block is served as before. -/
theorem Reader.Ready.serve_onFile (ready : r.Ready zstd file)
    (differs : DiffersWithin file file' (indexFile r.entries i) (indexFile r.entries (i + 1)))
    (within : i < r.blockCount) {n off : Nat}
    (clear : ∀ p, off ≤ p → p < off + n →
      ¬ (indexRaw r.entries i ≤ p ∧ p < indexRaw r.entries (i + 1))) :
    (r.onFile file').serve zstd n off = r.serve zstd n off := by
  -- The induction is on the rounds of the copying loop.
  have loop (m : Nat) (room : off + m ≤ r.rawSize.toNat) (short : m ≤ n) :
      ∀ (fuel : Nat) (out : Bytes), (r.onFile file').serveLoop zstd off m fuel out =
        r.serveLoop zstd off m fuel out := by
    intro fuel
    induction fuel with
    | zero => exact fun _ => rfl
    | succ fuel ih =>
      intro out
      rw [Reader.serveLoop, Reader.serveLoop]
      by_cases more : out.length < m
      · rw [if_pos more, if_pos more]
        have find : fmtIndexFind (r.onFile file').entries (r.onFile file').nentries
            (UInt64.ofNat (off + out.length)) =
              fmtIndexFind r.entries r.nentries (UInt64.ofNat (off + out.length)) := rfl
        rw [find]
        cases found : fmtIndexFind r.entries r.nentries (UInt64.ofNat (off + out.length)) with
        | none => rfl
        | some bi =>
          -- The position lies in the block the search finds, hence not in the damaged one.
          obtain ⟨inside, extent⟩ := ready.find_some (by omega) found
          have other : bi ≠ i := by
            rintro rfl
            exact clear (off + out.length) (by omega) (by omega) extent
          have decoded := ready.blockDecode_onFile differs ⟨within, inside⟩ other
          have entry : (r.onFile file').entryAt bi = r.entryAt bi := rfl
          dsimp only
          rw [decoded, entry]
          cases r.blockDecode zstd bi with
          | error st => rfl
          | ok data =>
            dsimp only
            rw [ih]
      · rw [if_neg more, if_neg more]
  have size : (r.onFile file').rawSize = r.rawSize := rfl
  rw [Reader.serve, Reader.serve, size]
  by_cases empty : n = 0
  · rw [if_pos empty, if_pos empty]
  by_cases beyond : off ≥ r.rawSize.toNat
  · rw [if_neg empty, if_neg empty, if_pos beyond, if_pos beyond]
  rw [if_neg empty, if_neg empty, if_neg beyond, if_neg beyond]
  exact loop _ (by omega) (Nat.min_le_left _ _) _ _

/-- An index record that was accepted ends in front of the footer. -/
theorem loadTail_room {hdr : FileHeader} {footer : Footer}
    (loaded : loadTail file = .ok (hdr, footer)) :
    fileHeaderSize + footerSize ≤ file.length ∧
      footer.indexOffset.toNat ≤ (UInt64.ofNat (file.length - footerSize)).toNat := by
  -- The last test says that the index ends in front of the footer.
  rw [loadTail] at loaded
  obtain ⟨large, loaded⟩ := guard_eq_ok.mp loaded
  split at loaded; · cases loaded
  split at loaded; · cases loaded
  obtain ⟨_, loaded⟩ := guard_eq_ok.mp loaded
  obtain ⟨range, loaded⟩ := guard_eq_ok.mp loaded
  obtain ⟨_, rfl⟩ := Prod.mk.inj (Except.ok.inj loaded)
  refine ⟨Nat.not_lt.mp large, ?_⟩
  have fits := not_not.mp range
  rw [rangeOk, addU64Ok] at fits
  split at fits
  · cases fits
  · rename_i stop sum
    split at sum
    · cases sum
      rename_i bounded
      have bound := UInt64.le_iff_toNat_le.mp (of_decide_eq_true fits)
      rw [UInt64.toNat_add, Nat.mod_eq_of_lt bounded] at bound
      omega
    · cases sum

/-- Damage inside one block's extent changes neither whether a file is accepted nor, whatever has
been read before on either file, any read that stays clear of that block. -/
theorem preads_isolated (external : ∀ c ∈ zstd, c.Steady) {opts : Option ReaderOpts} {cpus : Nat}
    (opened : readerOpen zstd file opts cpus = .ok r)
    (sentinel : indexFile r.entries r.blockCount ≤ r.footer.indexOffset.toNat)
    (within : i < r.blockCount)
    (differs : DiffersWithin file file' (indexFile r.entries i) (indexFile r.entries (i + 1))) :
    ∃ r', readerOpen zstd file' opts cpus = .ok r' ∧
      ∀ (history history' : List (Nat × Nat)) (n off : Nat),
        (∀ p, off ≤ p → p < off + n →
          ¬ (indexRaw r.entries i ≤ p ∧ p < indexRaw r.entries (i + 1))) →
        (Reader.pread zstd (Reader.preads zstd history' r') n off).1 =
          (Reader.pread zstd (Reader.preads zstd history r) n off).1 := by
  have ready := readerOpen_ready external opened
  obtain ⟨hdr, footer, codec, ip, entries, loaded, tail, found, index, metadata, buffers⟩ :=
    readerOpen_ok.mp opened
  obtain ⟨_, _, _, _, built⟩ := Reader.setupBuffers_ok buffers
  have same : (readerBlank file hdr footer codec ip entries).FromIndex loaded := by
    have kept := (Reader.fromIndex_kept external
      (readerBlank file hdr footer codec ip entries)).loadMeta
        ((opts.map ReaderOpts.memLimit).getD 0) ⟨rfl, rfl, rfl, rfl, rfl, rfl, rfl, rfl, rfl⟩
    rwa [metadata] at kept
  have entries_eq : r.entries = entries := by
    rw [built]
    exact same.entries
  have footer_eq : r.footer = footer := by
    rw [built]
    exact same.footer
  -- The damaged extent lies between the header and the index record.
  obtain ⟨large, room⟩ := loadTail_room tail
  have wraps : (UInt64.ofNat (file.length - footerSize)).toNat ≤ file.length - footerSize := by
    rw [UInt64.toNat_ofNat']
    exact Nat.mod_le _ _
  have first := ready.index.first_file
  have before := ready.index.file_le (i := 0) (Nat.zero_le i) within.le
  have after := ready.index.file_le (i := i + 1) within (Nat.le_refl _)
  rw [footer_eq] at sentinel
  -- Opening reads only outside the extent, so every part comes out as before.
  have tail' : loadTail file' = .ok (hdr, footer) := by
    rw [differs.loadTail (by omega) (by omega), tail]
  have index' : loadIndex file' hdr footer = .ok (ip, entries) := by
    rw [differs.loadIndex (by omega), index]
  have metadata' : Reader.loadMeta zstd (readerBlank file' hdr footer codec ip entries)
      ((opts.map ReaderOpts.memLimit).getD 0) = (.ok, loaded.onFile file') := by
    have moved := Reader.loadMeta_onFile zstd
      (r := readerBlank file hdr footer codec ip entries) differs
      (by rw [← entries_eq]; show indexFile r.entries 0 ≤ _; omega)
      ((opts.map ReaderOpts.memLimit).getD 0)
    rw [metadata] at moved
    exact moved
  have buffers' : (loaded.onFile file').setupBuffers opts cpus = (.ok, r.onFile file') := by
    rw [Reader.setupBuffers_onFile, buffers]
  have opened' : readerOpen zstd file' opts cpus = .ok (r.onFile file') :=
    readerOpen_ok.mpr ⟨⟨hdr, footer, codec, ip, entries, loaded.onFile file', tail', found, index',
      metadata', buffers'⟩⟩
  have ready' := readerOpen_ready external opened'
  refine ⟨r.onFile file', opened', fun history history' n off clear => ?_⟩
  -- Whatever was read before, each handle serves as if nothing had been.
  have read := ((ready.serves.preads external ready.few ready.index.first_raw history).pread
    external ready.few ready.index.first_raw n off).1
  have read' := ((ready'.serves.preads external ready'.few ready'.index.first_raw history').pread
    external ready'.few ready'.index.first_raw n off).1
  rw [read, read', ready.serve_onFile differs within clear]

end Reads

/-- The last byte of the first block of the two-block file, changed: the second block still reads
as before. -/
theorem preads_isolated_changed : ∃ r, readerOpen none overlapFile none 1 = .ok r ∧
    ∃ r', readerOpen none (overlapFile.set 57 0x44) none 1 = .ok r' ∧
      ∀ history history' : List (Nat × Nat),
        (Reader.pread none (Reader.preads none history' r') 1 1).1 =
          (Reader.pread none (Reader.preads none history r) 1 1).1 := by
  -- Where the blocks of this file lie is evaluated.
  have layout : ((readerOpen none overlapFile none 1).toOption.map fun r =>
      (r.blockCount, [indexFile r.entries 0, indexFile r.entries 1, indexFile r.entries 2],
        [indexRaw r.entries 0, indexRaw r.entries 1], r.footer.indexOffset.toNat)) =
        some (2, [32, 58, 83], [0, 1], 83) := by
    decide +kernel
  cases opened : readerOpen none overlapFile none 1 with
  | error st =>
    rw [opened] at layout
    cases layout
  | ok r =>
    rw [opened] at layout
    obtain ⟨count, rest⟩ := Prod.mk.inj (Option.some.inj layout)
    obtain ⟨files, rest⟩ := Prod.mk.inj rest
    obtain ⟨raws, offset⟩ := Prod.mk.inj rest
    obtain ⟨first, files⟩ := List.cons.inj files
    obtain ⟨second, files⟩ := List.cons.inj files
    obtain ⟨third, _⟩ := List.cons.inj files
    obtain ⟨zero, raws⟩ := List.cons.inj raws
    obtain ⟨one, _⟩ := List.cons.inj raws
    have differs : DiffersWithin overlapFile (overlapFile.set 57 0x44)
        (indexFile r.entries 0) (indexFile r.entries (0 + 1)) := by
      rw [first, second]
      exact ⟨List.length_set, fun k outside => List.getElem?_set_ne (by omega)⟩
    obtain ⟨r', opened', same⟩ := preads_isolated (by simp) opened
      (by rw [count, third, offset]) (by rw [count]; decide) differs
    refine ⟨r, rfl, r', opened', fun history history' => same history history' 1 1 ?_⟩
    intro p after before
    rw [one]
    omega

end Xq
