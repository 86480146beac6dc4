import Xq.Format.Layout

/-! What the parsers guarantee about the structures they accept. -/

namespace Xq

/-- A guarded parser succeeds when its guard does not fire and the rest of it succeeds. -/
theorem guard_eq_ok {α : Type} {c : Prop} [Decidable c] {e : XqStatus} {rest : Except XqStatus α}
    {v : α} : (if c then .error e else rest) = .ok v ↔ ¬ c ∧ rest = .ok v := by
  -- An error is never a result.
  by_cases fires : c
  · simp [fires]
  · simp [fires]

/-- The rules a block header obeys once it has been parsed. -/
structure BlockHeader.Valid (b : BlockHeader) : Prop where
  stored : b.bflags &&& bflagStored ≠ 0 → b.storedSize = b.rawSize
  nonempty : b.rawSize ≠ 0
  bounded : b.rawSize.toNat ≤ blockSizeMax
  storedBounded : b.storedSize ≤ b.rawSize + b.rawSize / 8 + 1024
  inRange : (addU64Ok b.rawOffset b.rawSize.toUInt64).isSome

/-- The rules a file header obeys once it has been parsed. -/
structure FileHeader.Valid (h : FileHeader) : Prop where
  major : h.formatMajor = Xq.formatMajor
  headerSize : fileHeaderSize ≤ h.headerSize.toNat ∧ h.headerSize.toNat ≤ 4096
  checksum : h.checksumId ≤ 2
  blockSizeLog : h.blockSizeLog = 0 ∨ (12 ≤ h.blockSizeLog ∧ h.blockSizeLog ≤ 28)
  flags : h.flags &&& ~~~ flagKnownMask = 0
  uniform : h.flags &&& flagUniformBlocks ≠ 0 → h.blockSizeLog ≠ 0

/-- The rules a footer obeys once it has been parsed. -/
structure Footer.Valid (f : Footer) : Prop where
  absent : f.indexOffset = 0 → f.indexSize = 0
  size : f.indexOffset ≠ 0 → recordHeaderSize + indexPreambleSize ≤ f.indexSize.toNat
  offset : f.indexOffset ≠ 0 → fileHeaderSize ≤ f.indexOffset.toNat

/-- The parser accepts exactly a sealed buffer whose fields obey the rules. -/
theorem fmtBlockParse_ok_iff {buf : Bytes} {b : BlockHeader} :
    fmtBlockParse buf = .ok b ↔
      blockHeaderSize ≤ buf.length ∧ ld16le buf 0 = blockMagic ∧
        ld32le buf 20 = crc32c (buf.take 20) ∧ (fmtBlockFields buf).Valid ∧
        fmtBlockFields buf = b := by
  -- Each guard of the parser is one of the rules, in the order of the source.
  unfold fmtBlockParse
  dsimp only
  constructor
  · intro parsed
    obtain ⟨length, parsed⟩ := guard_eq_ok.mp parsed
    obtain ⟨magic, parsed⟩ := guard_eq_ok.mp parsed
    obtain ⟨sealed, parsed⟩ := guard_eq_ok.mp parsed
    obtain ⟨stored, parsed⟩ := guard_eq_ok.mp parsed
    obtain ⟨nonempty, parsed⟩ := guard_eq_ok.mp parsed
    obtain ⟨bounded, parsed⟩ := guard_eq_ok.mp parsed
    obtain ⟨storedBounded, parsed⟩ := guard_eq_ok.mp parsed
    obtain ⟨inRange, parsed⟩ := guard_eq_ok.mp parsed
    refine ⟨by omega, not_not.mp magic, not_not.mp sealed, ⟨?_, nonempty, by omega, ?_, ?_⟩,
      Except.ok.inj parsed⟩
    · intro flag
      by_contra differ
      exact stored ⟨flag, differ⟩
    · exact UInt32.not_lt.mp storedBounded
    · exact Option.isSome_iff_ne_none.mpr fun none => inRange (Option.isNone_iff_eq_none.mpr none)
  · rintro ⟨length, magic, sealed, valid, rfl⟩
    rw [if_neg (by omega), if_neg (not_not.mpr magic), if_neg (not_not.mpr sealed),
      if_neg (fun h => h.2 (valid.stored h.1)), if_neg valid.nonempty,
      if_neg (by have := valid.bounded; omega), if_neg (UInt32.not_lt.mpr valid.storedBounded),
      if_neg (by rw [Option.isNone_iff_eq_none]; exact Option.isSome_iff_ne_none.mp valid.inRange)]

theorem fmtHeaderParse_ok_iff {buf : Bytes} {h : FileHeader} :
    fmtHeaderParse buf = .ok h ↔
      fileHeaderSize ≤ buf.length ∧ buf.take 8 = xqMagic ∧
        ld32le buf 28 = crc32c (buf.take 28) ∧ (fmtHeaderFields buf).Valid ∧
        fmtHeaderFields buf = h := by
  -- As for a block header, with the two guards on the logarithm making one rule.
  unfold fmtHeaderParse
  dsimp only
  constructor
  · intro parsed
    obtain ⟨length, parsed⟩ := guard_eq_ok.mp parsed
    obtain ⟨magic, parsed⟩ := guard_eq_ok.mp parsed
    obtain ⟨sealed, parsed⟩ := guard_eq_ok.mp parsed
    obtain ⟨major, parsed⟩ := guard_eq_ok.mp parsed
    obtain ⟨small, parsed⟩ := guard_eq_ok.mp parsed
    obtain ⟨large, parsed⟩ := guard_eq_ok.mp parsed
    obtain ⟨checksum, parsed⟩ := guard_eq_ok.mp parsed
    obtain ⟨log, parsed⟩ := guard_eq_ok.mp parsed
    obtain ⟨_, parsed⟩ := guard_eq_ok.mp parsed
    obtain ⟨flags, parsed⟩ := guard_eq_ok.mp parsed
    obtain ⟨uniform, parsed⟩ := guard_eq_ok.mp parsed
    refine ⟨by omega, not_not.mp magic, not_not.mp sealed,
      ⟨not_not.mp major, ⟨by omega, by omega⟩, UInt8.not_lt.mp checksum, ?_, not_not.mp flags,
        fun flag zero => uniform ⟨flag, zero⟩⟩, Except.ok.inj parsed⟩
    by_cases zero : (fmtHeaderFields buf).blockSizeLog = 0
    · exact .inl zero
    · refine .inr ⟨?_, ?_⟩
      · by_contra below
        exact log ⟨zero, .inl (UInt8.not_le.mp below)⟩
      · by_contra above
        exact log ⟨zero, .inr (UInt8.not_le.mp above)⟩
  · rintro ⟨length, magic, sealed, valid, rfl⟩
    obtain ⟨small, large⟩ := valid.headerSize
    -- The range of the logarithm already puts its power between the two block size limits.
    have power : ¬ ((fmtHeaderFields buf).blockSizeLog ≠ 0 ∧
        (2 ^ (fmtHeaderFields buf).blockSizeLog.toNat < blockSizeMin ∨
          2 ^ (fmtHeaderFields buf).blockSizeLog.toNat > blockSizeMax)) := by
      rintro ⟨zero, limits⟩
      obtain ⟨low, high⟩ := valid.blockSizeLog.resolve_left zero
      have low : 12 ≤ (fmtHeaderFields buf).blockSizeLog.toNat := low
      have high : (fmtHeaderFields buf).blockSizeLog.toNat ≤ 28 := high
      have atLeast : 2 ^ 12 ≤ 2 ^ (fmtHeaderFields buf).blockSizeLog.toNat :=
        Nat.pow_le_pow_right (by omega) low
      have atMost : 2 ^ (fmtHeaderFields buf).blockSizeLog.toNat ≤ 2 ^ 28 :=
        Nat.pow_le_pow_right (by omega) high
      simp only [blockSizeMin, blockSizeMax] at limits
      omega
    rw [if_neg (by omega), if_neg (not_not.mpr magic), if_neg (not_not.mpr sealed),
      if_neg (not_not.mpr valid.major), if_neg (by omega), if_neg (by omega),
      if_neg (UInt8.not_lt.mpr valid.checksum), if_neg ?_, if_neg power,
      if_neg (not_not.mpr valid.flags), if_neg (fun h => valid.uniform h.1 h.2)]
    rintro ⟨zero, limits⟩
    obtain ⟨low, high⟩ := valid.blockSizeLog.resolve_left zero
    rcases limits with below | above
    · exact UInt8.not_lt.mpr low below
    · exact UInt8.not_lt.mpr high above

theorem fmtFooterParse_ok_iff {buf : Bytes} {f : Footer} :
    fmtFooterParse buf = .ok f ↔
      footerSize ≤ buf.length ∧ ld32le buf 28 = footerMagic ∧
        ld32le buf 0 = crc32c ((buf.drop 4).take (footerSize - 4)) ∧
        (fmtFooterFields buf).Valid ∧ fmtFooterFields buf = f := by
  -- The rules speak of an index that is absent or present, the guards of when neither is.
  unfold fmtFooterParse
  dsimp only
  constructor
  · intro parsed
    obtain ⟨length, parsed⟩ := guard_eq_ok.mp parsed
    obtain ⟨magic, parsed⟩ := guard_eq_ok.mp parsed
    obtain ⟨sealed, parsed⟩ := guard_eq_ok.mp parsed
    obtain ⟨absent, parsed⟩ := guard_eq_ok.mp parsed
    obtain ⟨size, parsed⟩ := guard_eq_ok.mp parsed
    obtain ⟨offset, parsed⟩ := guard_eq_ok.mp parsed
    refine ⟨by omega, not_not.mp magic, not_not.mp sealed, ⟨?_, ?_, ?_⟩,
      Except.ok.inj parsed⟩
    · intro zero
      by_contra differ
      exact absent ⟨zero, differ⟩
    · intro present
      by_contra below
      exact size ⟨present, by omega⟩
    · intro present
      by_contra below
      exact offset ⟨present, by omega⟩
  · rintro ⟨length, magic, sealed, valid, rfl⟩
    rw [if_neg (by omega), if_neg (not_not.mpr magic), if_neg (not_not.mpr sealed),
      if_neg (fun h => h.2 (valid.absent h.1)),
      if_neg (fun h => by have := valid.size h.1; omega),
      if_neg (fun h => by have := valid.offset h.1; omega)]

end Xq
