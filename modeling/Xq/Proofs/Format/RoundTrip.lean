import Xq.Proofs.Format.Parsers

/-! The serialisers, undone: what each stored structure reads back as. -/

namespace Xq

section Fields

/-- Reading behind a field of known size reads the rest of the buffer. -/
theorem ld8_skip {a : Bytes} {n i : Nat} (length : a.length = n) (behind : n ≤ i) (b : Bytes) :
    ld8 (a ++ b) i = ld8 b (i - n) := by
  -- The place is counted from the end of the field.
  obtain ⟨k, rfl⟩ := Nat.exists_eq_add_of_le behind
  rw [← length, ld8_append_right, Nat.add_sub_cancel_left]

theorem ld16le_skip {a : Bytes} {n i : Nat} (length : a.length = n) (behind : n ≤ i) (b : Bytes) :
    ld16le (a ++ b) i = ld16le b (i - n) := by
  -- Both bytes lie behind the field.
  simp only [ld16le]
  rw [ld8_skip length behind, ld8_skip length (by omega), Nat.sub_add_comm behind]

theorem ld32le_skip {a : Bytes} {n i : Nat} (length : a.length = n) (behind : n ≤ i) (b : Bytes) :
    ld32le (a ++ b) i = ld32le b (i - n) := by
  -- All four bytes lie behind the field.
  simp only [ld32le]
  rw [ld8_skip length behind, ld8_skip length (by omega), ld8_skip length (by omega),
    ld8_skip length (by omega),
    Nat.sub_add_comm behind, Nat.sub_add_comm behind, Nat.sub_add_comm behind]

theorem ld64le_skip {a : Bytes} {n i : Nat} (length : a.length = n) (behind : n ≤ i) (b : Bytes) :
    ld64le (a ++ b) i = ld64le b (i - n) := by
  -- Both halves lie behind the field.
  simp only [ld64le]
  rw [ld32le_skip length behind, ld32le_skip length (by omega), Nat.sub_add_comm behind]

theorem ld16le_append_left {a : Bytes} {i : Nat} (within : i + 2 ≤ a.length) (b : Bytes) :
    ld16le (a ++ b) i = ld16le a i := by
  -- Both bytes lie in the front.
  simp only [ld16le]
  rw [ld8_append_left (by omega), ld8_append_left (by omega)]

theorem ld32le_append_left {a : Bytes} {i : Nat} (within : i + 4 ≤ a.length) (b : Bytes) :
    ld32le (a ++ b) i = ld32le a i := by
  -- All four bytes lie in the front.
  simp only [ld32le]
  rw [ld8_append_left (by omega), ld8_append_left (by omega), ld8_append_left (by omega),
    ld8_append_left (by omega)]

theorem ld64le_append_left {a : Bytes} {i : Nat} (within : i + 8 ≤ a.length) (b : Bytes) :
    ld64le (a ++ b) i = ld64le a i := by
  -- Both halves lie in the front.
  simp only [ld64le]
  rw [ld32le_append_left (by omega), ld32le_append_left (by omega)]

@[simp] theorem ld8_st8 (v : UInt8) (rest : Bytes) : ld8 (st8 v ++ rest) 0 = v := rfl

@[simp] theorem ld16le_st16le (v : UInt16) (rest : Bytes) : ld16le (st16le v ++ rest) 0 = v :=
  join16 v

@[simp] theorem ld32le_st32le (v : UInt32) (rest : Bytes) : ld32le (st32le v ++ rest) 0 = v :=
  join32 v

@[simp] theorem ld64le_st64le (v : UInt64) (rest : Bytes) : ld64le (st64le v ++ rest) 0 = v := by
  -- The two halves are read back where they have been stored.
  have low : ld32le (st64le v ++ rest) 0 = v.toUInt32 := by
    rw [st64le, List.append_assoc, ld32le_st32le]
  have high : ld32le (st64le v ++ rest) (0 + 4) = (v >>> 32).toUInt32 := by
    rw [st64le, List.append_assoc]
    exact (ld32le_skip (length_st32le _) (le_refl 4) _).trans (ld32le_st32le _ _)
  rw [ld64le, low, high]
  exact join64 v

@[simp] theorem length_xqMagic : xqMagic.length = 8 := rfl

/-- A field that ends its buffer reads back as well. -/
theorem ld32le_st32le_nil (v : UInt32) : ld32le (st32le v) 0 = v := join32 v

end Fields

section Blocks

@[simp] theorem length_fmtBlockBody (b : BlockHeader) : (fmtBlockBody b).length = 20 := rfl

@[simp] theorem length_fmtBlockStore (b : BlockHeader) :
    (fmtBlockStore b).length = blockHeaderSize := rfl

theorem take_fmtBlockStore (b : BlockHeader) (rest : Bytes) :
    (fmtBlockStore b ++ rest).take 20 = fmtBlockBody b := by
  -- The body is twenty bytes long.
  rw [fmtBlockStore, List.append_assoc]
  exact List.take_left' (length_fmtBlockBody b)

/-- The fields of a stored block header are the fields that were stored. -/
theorem fmtBlockFields_store (b : BlockHeader) (rest : Bytes) :
    fmtBlockFields (fmtBlockStore b ++ rest) = b := by
  -- Each field is read behind those in front of it.
  simp [fmtBlockFields, fmtBlockStore, fmtBlockBody, ld8_skip, ld32le_skip, ld64le_skip]

/-- Every stored header carries its magic and its own CRC. -/
theorem fmtBlockStore_sealed (b : BlockHeader) (rest : Bytes) :
    ld16le (fmtBlockStore b ++ rest) 0 = blockMagic ∧
      ld32le (fmtBlockStore b ++ rest) 20 = crc32c ((fmtBlockStore b ++ rest).take 20) := by
  -- The CRC stands behind the body that it is taken of.
  rw [take_fmtBlockStore]
  refine ⟨ld16le_st16le blockMagic _, ?_⟩
  rw [fmtBlockStore, List.append_assoc, ld32le_skip (length_fmtBlockBody b) (le_refl 20)]
  exact ld32le_st32le _ _

/-- A valid block header reads back as itself, whatever follows it. -/
theorem fmtBlockParse_store {b : BlockHeader} (valid : b.Valid) (rest : Bytes) :
    fmtBlockParse (fmtBlockStore b ++ rest) = .ok b := by
  -- The header is long enough, carries its magic and its CRC, and its fields are valid.
  obtain ⟨magic, sealed⟩ := fmtBlockStore_sealed b rest
  refine fmtBlockParse_ok_iff.mpr ⟨?_, magic, sealed, ?_, fmtBlockFields_store b rest⟩
  · rw [List.length_append, length_fmtBlockStore]
    omega
  · rwa [fmtBlockFields_store]

end Blocks

section Headers

@[simp] theorem length_fmtHeaderBody (h : FileHeader) : (fmtHeaderBody h).length = 28 := rfl

@[simp] theorem length_fmtHeaderStore (h : FileHeader) :
    (fmtHeaderStore h).length = fileHeaderSize := rfl

theorem fmtHeaderFields_store (h : FileHeader) (rest : Bytes) :
    fmtHeaderFields (fmtHeaderStore h ++ rest) = h := by
  -- Each field is read behind those in front of it.
  simp [fmtHeaderFields, fmtHeaderStore, fmtHeaderBody, ld8_skip, ld16le_skip, ld32le_skip,
    ld64le_skip]

/-- A valid file header reads back as itself, whatever follows it. -/
theorem fmtHeaderParse_store {h : FileHeader} (valid : h.Valid) (rest : Bytes) :
    fmtHeaderParse (fmtHeaderStore h ++ rest) = .ok h := by
  -- The CRC is stored behind the bytes it covers.
  have body : (fmtHeaderStore h ++ rest).take 28 = fmtHeaderBody h := by
    rw [fmtHeaderStore, List.append_assoc]
    exact List.take_left' (length_fmtHeaderBody h)
  refine fmtHeaderParse_ok_iff.mpr ⟨?_, ?_, ?_, ?_, fmtHeaderFields_store h rest⟩
  · rw [List.length_append, length_fmtHeaderStore]
    omega
  · simp [fmtHeaderStore, fmtHeaderBody, List.take_append]
  · rw [body, fmtHeaderStore, List.append_assoc, ld32le_skip (length_fmtHeaderBody h) (le_refl 28)]
    exact ld32le_st32le _ _
  · rwa [fmtHeaderFields_store]

end Headers

section Footers

@[simp] theorem length_fmtFooterBody (f : Footer) : (fmtFooterBody f).length = 28 := rfl

@[simp] theorem length_fmtFooterStore (f : Footer) : (fmtFooterStore f).length = footerSize := rfl

theorem fmtFooterFields_store (f : Footer) (rest : Bytes) :
    fmtFooterFields (fmtFooterStore f ++ rest) = f := by
  -- Each field is read behind those in front of it.
  simp [fmtFooterFields, fmtFooterStore, fmtFooterBody, ld64le_skip]

/-- A valid footer reads back as itself, whatever follows it. -/
theorem fmtFooterParse_store {f : Footer} (valid : f.Valid) (rest : Bytes) :
    fmtFooterParse (fmtFooterStore f ++ rest) = .ok f := by
  -- The CRC is stored in front of the bytes it covers.
  have body : ((fmtFooterStore f ++ rest).drop 4).take (footerSize - 4) = fmtFooterBody f := by
    rw [fmtFooterStore, List.append_assoc, List.drop_left' (length_st32le _)]
    exact List.take_left' (length_fmtFooterBody f)
  refine fmtFooterParse_ok_iff.mpr ⟨?_, ?_, ?_, ?_, fmtFooterFields_store f rest⟩
  · rw [List.length_append, length_fmtFooterStore]
    omega
  · simp [fmtFooterStore, fmtFooterBody, ld32le_skip]
  · rw [body, fmtFooterStore, List.append_assoc, ld32le_st32le]
  · rwa [fmtFooterFields_store]

end Footers

end Xq
