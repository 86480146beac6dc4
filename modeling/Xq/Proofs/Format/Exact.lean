import Xq.Core.Dict
import Xq.Lib.ExactCoding
import Xq.Proofs.Format.RoundTrip

/-! The fixed structures are coded bijectively: each parser accepts what its serialiser writes on
valid structures, and nothing else. -/

namespace Xq

open Lib

section Words

/-- Each half of a 16-bit word built from two bytes is one of the two. -/
theorem split16 (a b : UInt8) : st16le (a.toUInt16 ||| b.toUInt16 <<< 8) = [a, b] := by
  rw [st16le]
  -- Byte by byte, each bit comes from exactly one of the two operands.
  congr 1
  · apply UInt8.eq_of_toBitVec_eq
    apply BitVec.eq_of_getLsbD_eq
    intro k hk
    simp
  congr 1
  · apply UInt8.eq_of_toBitVec_eq
    apply BitVec.eq_of_getLsbD_eq
    intro k hk
    simp
    grind

/-- A byte that is loaded stores back in front of what follows it. -/
theorem drop_eq_st8 {buf : Bytes} {i : Nat} (within : i + 1 ≤ buf.length) :
    buf.drop i = st8 (ld8 buf i) ++ buf.drop (i + 1) := by
  -- The byte is the first of what is left.
  rw [List.drop_eq_getElem_cons (by omega), st8, ld8, List.getD_eq_getElem?_getD,
    List.getElem?_eq_getElem (by omega)]
  rfl

/-- So does a 16-bit word. -/
theorem drop_eq_st16le {buf : Bytes} {i : Nat} (within : i + 2 ≤ buf.length) :
    buf.drop i = st16le (ld16le buf i) ++ buf.drop (i + 2) := by
  -- The word splits into its two bytes.
  rw [ld16le, split16, drop_eq_st8 (by omega), drop_eq_st8 (by omega)]
  rfl

/-- So does a 32-bit word. -/
theorem drop_eq_st32le {buf : Bytes} {i : Nat} (within : i + 4 ≤ buf.length) :
    buf.drop i = st32le (ld32le buf i) ++ buf.drop (i + 4) := by
  -- The word splits into its four bytes.
  rw [ld32le, split32, drop_eq_st8 (by omega), drop_eq_st8 (by omega), drop_eq_st8 (by omega),
    drop_eq_st8 (by omega)]
  rfl

/-- So does a 64-bit word. -/
theorem drop_eq_st64le {buf : Bytes} {i : Nat} (within : i + 8 ≤ buf.length) :
    buf.drop i = st64le (ld64le buf i) ++ buf.drop (i + 8) := by
  -- The word splits into its two halves.
  rw [ld64le, split64, List.append_assoc, drop_eq_st32le (by omega), drop_eq_st32le (by omega)]

end Words

section Blocks

/-- A sealed block header is what storing its fields writes. -/
theorem fmtBlockStore_fields {buf : Bytes} (length : blockHeaderSize ≤ buf.length)
    (magic : ld16le buf 0 = blockMagic) (sealed : ld32le buf 20 = crc32c (buf.take 20)) :
    buf = fmtBlockStore (fmtBlockFields buf) ++ buf.drop blockHeaderSize := by
  simp only [blockHeaderSize] at length ⊢
  -- The fields tile the buffer up to the checksum.
  have body : buf = fmtBlockBody (fmtBlockFields buf) ++ buf.drop 20 := by
    conv_lhs => rw [← List.drop_zero (l := buf), drop_eq_st16le (by omega), magic,
      drop_eq_st8 (by omega), drop_eq_st8 (by omega), drop_eq_st32le (by omega),
      drop_eq_st32le (by omega), drop_eq_st64le (by omega)]
    simp only [fmtBlockBody, fmtBlockFields, List.append_assoc, Nat.zero_add, Nat.reduceAdd]
  have front : buf.take 20 = fmtBlockBody (fmtBlockFields buf) := by
    conv_lhs => rw [body]
    exact List.take_left' (length_fmtBlockBody _)
  rw [fmtBlockStore, ← front, ← sealed, List.append_assoc, ← drop_eq_st32le (by omega),
    List.take_append_drop]

theorem fmtBlock_exact :
    ExactCoding fmtBlockStore fmtBlockParse BlockHeader.Valid fun _ _ => True where
  parse_store b rest valid _ := fmtBlockParse_store valid rest
  store_parse buf b parsed := by
    -- The fields that are read store as the bytes they were read from.
    obtain ⟨length, magic, sealed, valid, rfl⟩ := fmtBlockParse_ok_iff.mp parsed
    exact ⟨valid, _, trivial, fmtBlockStore_fields length magic sealed⟩

end Blocks

section Headers

/-- A sealed file header is what storing its fields writes. -/
theorem fmtHeaderStore_fields {buf : Bytes} (length : fileHeaderSize ≤ buf.length)
    (magic : buf.take 8 = xqMagic) (sealed : ld32le buf 28 = crc32c (buf.take 28)) :
    buf = fmtHeaderStore (fmtHeaderFields buf) ++ buf.drop fileHeaderSize := by
  simp only [fileHeaderSize] at length ⊢
  -- The fields tile the buffer between the magic and the checksum.
  have body : buf = fmtHeaderBody (fmtHeaderFields buf) ++ buf.drop 28 := by
    conv_lhs => rw [← List.take_append_drop 8 buf, magic, drop_eq_st8 (by omega),
      drop_eq_st8 (by omega), drop_eq_st16le (by omega), drop_eq_st32le (by omega),
      drop_eq_st8 (by omega), drop_eq_st8 (by omega), drop_eq_st8 (by omega),
      drop_eq_st8 (by omega), drop_eq_st64le (by omega)]
    simp only [fmtHeaderBody, fmtHeaderFields, List.append_assoc, Nat.reduceAdd]
  have front : buf.take 28 = fmtHeaderBody (fmtHeaderFields buf) := by
    conv_lhs => rw [body]
    exact List.take_left' (length_fmtHeaderBody _)
  rw [fmtHeaderStore, ← front, ← sealed, List.append_assoc, ← drop_eq_st32le (by omega),
    List.take_append_drop]

theorem fmtHeader_exact :
    ExactCoding fmtHeaderStore fmtHeaderParse FileHeader.Valid fun _ _ => True where
  parse_store h rest valid _ := fmtHeaderParse_store valid rest
  store_parse buf h parsed := by
    -- The fields that are read store as the bytes they were read from.
    obtain ⟨length, magic, sealed, valid, rfl⟩ := fmtHeaderParse_ok_iff.mp parsed
    exact ⟨valid, _, trivial, fmtHeaderStore_fields length magic sealed⟩

end Headers

section Footers

/-- A sealed footer is what storing its fields writes. -/
theorem fmtFooterStore_fields {buf : Bytes} (length : footerSize ≤ buf.length)
    (magic : ld32le buf 28 = footerMagic)
    (sealed : ld32le buf 0 = crc32c ((buf.drop 4).take (footerSize - 4))) :
    buf = fmtFooterStore (fmtFooterFields buf) ++ buf.drop footerSize := by
  simp only [footerSize] at length sealed ⊢
  -- The fields tile the buffer behind the checksum, up to the magic that ends it.
  have body : buf.drop 4 = fmtFooterBody (fmtFooterFields buf) ++ buf.drop 32 := by
    conv_lhs => rw [drop_eq_st64le (by omega), drop_eq_st64le (by omega),
      drop_eq_st64le (by omega), drop_eq_st32le (by omega), magic]
    simp only [fmtFooterBody, fmtFooterFields, List.append_assoc, Nat.reduceAdd]
  have front : (buf.drop 4).take (32 - 4) = fmtFooterBody (fmtFooterFields buf) := by
    rw [body]
    exact List.take_left' (length_fmtFooterBody _)
  rw [fmtFooterStore, ← front, ← sealed, front, List.append_assoc, ← body]
  conv_lhs => rw [← List.drop_zero (l := buf), drop_eq_st32le (by omega)]

theorem fmtFooter_exact :
    ExactCoding fmtFooterStore fmtFooterParse Footer.Valid fun _ _ => True where
  parse_store f rest valid _ := fmtFooterParse_store valid rest
  store_parse buf f parsed := by
    -- The fields that are read store as the bytes they were read from.
    obtain ⟨length, magic, sealed, valid, rfl⟩ := fmtFooterParse_ok_iff.mp parsed
    exact ⟨valid, _, trivial, fmtFooterStore_fields length magic sealed⟩

end Footers

section Dictionaries

/-- The rules a dictionary payload's header obeys once it has been parsed. -/
structure DictInfo.Valid (info : DictInfo) : Prop where
  id : info.id ≠ 0
  rawNonempty : info.rawSize ≠ 0
  rawBounded : info.rawSize.toNat ≤ dictSizeMax
  storedNonempty : info.storedSize ≠ 0
  kind : info.kind ≤ dictKindTrained

/-- What the header of a stored dictionary says about it. -/
def XqDict.info (d : XqDict) (storedCodec : UInt8) (storedLen : Nat) : DictInfo :=
  { kind := d.kind, storedCodec := storedCodec, id := d.id,
    rawSize := UInt64.ofNat d.bytes.length, storedSize := UInt64.ofNat storedLen,
    xxh64 := xxh64 d.bytes 0 }

/-- The thirty bytes that carry these fields. -/
def DictInfo.store (info : DictInfo) : Bytes :=
  st8 info.kind ++ st8 info.storedCodec ++ st32le info.id ++ st64le info.rawSize ++
    st64le info.storedSize ++ st64le info.xxh64

@[simp] theorem DictInfo.length_store (info : DictInfo) : info.store.length = 30 := rfl

/-- The serialiser writes what the header says about the dictionary. -/
theorem dictPayloadStore_eq (d : XqDict) (storedCodec : UInt8) (storedLen : Nat) :
    dictPayloadStore d storedCodec storedLen = (d.info storedCodec storedLen).store := rfl

/-- The fields of a payload's header, before any of them is believed. -/
def dictPayloadFields (buf : Bytes) : DictInfo :=
  { kind := ld8 buf 0, storedCodec := ld8 buf 1, id := ld32le buf 2, rawSize := ld64le buf 6,
    storedSize := ld64le buf 14, xxh64 := ld64le buf 22 }

theorem dictPayloadFields_store (info : DictInfo) (rest : Bytes) :
    dictPayloadFields (info.store ++ rest) = info := by
  -- Each field is read behind those in front of it.
  simp [dictPayloadFields, DictInfo.store, ld8_skip, ld32le_skip, ld64le_skip]

/-- The fields of a payload's header tile its thirty bytes. -/
theorem dictInfoStore_fields {buf : Bytes} (length : dictPayloadHeader ≤ buf.length) :
    buf = (dictPayloadFields buf).store ++ buf.drop dictPayloadHeader := by
  -- The fields are cut off the buffer one after another.
  simp only [dictPayloadHeader] at length ⊢
  conv_lhs => rw [← List.drop_zero (l := buf), drop_eq_st8 (by omega), drop_eq_st8 (by omega),
    drop_eq_st32le (by omega), drop_eq_st64le (by omega), drop_eq_st64le (by omega),
    drop_eq_st64le (by omega)]
  simp only [DictInfo.store, dictPayloadFields, List.append_assoc, Nat.zero_add, Nat.reduceAdd]

/-- The parser accepts exactly a payload of the announced length whose fields obey the rules. -/
theorem dictPayloadParse_ok_iff {buf : Bytes} {info : DictInfo} :
    dictPayloadParse buf = .ok info ↔
      dictPayloadHeader ≤ buf.length ∧ (dictPayloadFields buf).Valid ∧
        (dictPayloadFields buf).storedSize.toNat = buf.length - dictPayloadHeader ∧
        dictPayloadFields buf = info := by
  unfold dictPayloadParse
  dsimp only
  constructor
  · intro parsed
    obtain ⟨length, parsed⟩ := guard_eq_ok.mp parsed
    obtain ⟨id, parsed⟩ := guard_eq_ok.mp parsed
    obtain ⟨raw, parsed⟩ := guard_eq_ok.mp parsed
    obtain ⟨nonempty, parsed⟩ := guard_eq_ok.mp parsed
    obtain ⟨announced, parsed⟩ := guard_eq_ok.mp parsed
    obtain ⟨kind, parsed⟩ := guard_eq_ok.mp parsed
    obtain ⟨rawNonempty, rawBounded⟩ := not_or.mp raw
    exact ⟨by omega, ⟨id, rawNonempty, Nat.not_lt.mp rawBounded, nonempty, UInt8.not_lt.mp kind⟩,
      not_not.mp announced, Except.ok.inj parsed⟩
  · rintro ⟨length, valid, announced, rfl⟩
    -- The parser tests the loads themselves, which are the fields by definition.
    have id : ld32le buf 2 ≠ 0 := valid.id
    have raw : ¬ (ld64le buf 6 = 0 ∨ (ld64le buf 6).toNat > dictSizeMax) :=
      not_or.mpr ⟨valid.rawNonempty, Nat.not_lt.mpr valid.rawBounded⟩
    have nonempty : ld64le buf 14 ≠ 0 := valid.storedNonempty
    have announced : (ld64le buf 14).toNat = buf.length - dictPayloadHeader := announced
    have kind : ¬ ld8 buf 0 > dictKindTrained := UInt8.not_lt.mpr valid.kind
    rw [if_neg (by omega), if_neg id, if_neg raw, if_neg nonempty,
      if_neg (not_not.mpr announced), if_neg kind]
    rfl

theorem dictInfo_exact :
    ExactCoding DictInfo.store dictPayloadParse DictInfo.Valid
      fun info stored => info.storedSize.toNat = stored.length where
  parse_store info stored valid announced := by
    refine dictPayloadParse_ok_iff.mpr ⟨?_, ?_, ?_, dictPayloadFields_store info stored⟩
    · rw [List.length_append, DictInfo.length_store]
      exact Nat.le_add_right _ _
    · rwa [dictPayloadFields_store]
    · rw [dictPayloadFields_store, announced, List.length_append, DictInfo.length_store]
      exact (Nat.add_sub_cancel_left _ _).symm
  -- Behind the header is the stored dictionary, as long as announced.
  store_parse buf info parsed := by
    obtain ⟨length, valid, announced, rfl⟩ := dictPayloadParse_ok_iff.mp parsed
    exact ⟨valid, _, by rw [announced, List.length_drop], dictInfoStore_fields length⟩

/-- A dictionary whose header obeys the rules reads back as described. -/
theorem dictPayloadParse_store {d : XqDict} {storedCodec : UInt8} {stored : Bytes}
    (valid : (d.info storedCodec stored.length).Valid) (addressable : stored.length < 2 ^ 64) :
    dictPayloadParse (dictPayloadStore d storedCodec stored.length ++ stored) =
      .ok (d.info storedCodec stored.length) := by
  -- The header that describes the dictionary announces its length.
  rw [dictPayloadStore_eq]
  refine dictInfo_exact.parse_store _ _ valid ?_
  rw [XqDict.info, UInt64.toNat_ofNat']
  exact Nat.mod_eq_of_lt addressable

/-- A dictionary of the announced length and checksum is stored behind the very header that
announced it. -/
theorem dictPayloadStore_parse {buf : Bytes} {info : DictInfo} {d : XqDict}
    (parsed : dictPayloadParse buf = .ok info) (kind : d.kind = info.kind) (id : d.id = info.id)
    (length : d.bytes.length = info.rawSize.toNat) (checksum : xxh64 d.bytes 0 = info.xxh64) :
    dictPayloadStore d info.storedCodec info.storedSize.toNat = buf.take dictPayloadHeader := by
  -- The header describes this dictionary, so it is stored as it was read.
  obtain ⟨_, rest, _, rfl⟩ := dictInfo_exact.store_parse buf info parsed
  have same : d.info info.storedCodec info.storedSize.toNat = info := by
    rw [XqDict.info, kind, id, length, checksum, UInt64.ofNat_toNat, UInt64.ofNat_toNat]
  rw [dictPayloadStore_eq, same]
  exact (List.take_left' info.length_store).symm

end Dictionaries

/-- Each of the four parsers accepts exactly the image of its serialiser on valid structures; a
dictionary's header is stored from the dictionary, whose checksum is then the one that is read. -/
theorem fixedStructures_exact :
    ExactCoding fmtHeaderStore fmtHeaderParse FileHeader.Valid (fun _ _ => True) ∧
      ExactCoding fmtBlockStore fmtBlockParse BlockHeader.Valid (fun _ _ => True) ∧
      ExactCoding fmtFooterStore fmtFooterParse Footer.Valid (fun _ _ => True) ∧
      ExactCoding DictInfo.store dictPayloadParse DictInfo.Valid
        (fun info stored => info.storedSize.toNat = stored.length) ∧
      (∀ (d : XqDict) (storedCodec : UInt8) (stored : Bytes),
        (d.info storedCodec stored.length).Valid → stored.length < 2 ^ 64 →
          dictPayloadParse (dictPayloadStore d storedCodec stored.length ++ stored) =
            .ok (d.info storedCodec stored.length)) ∧
      ∀ (buf : Bytes) (info : DictInfo) (d : XqDict), dictPayloadParse buf = .ok info →
        d.kind = info.kind → d.id = info.id → d.bytes.length = info.rawSize.toNat →
          xxh64 d.bytes 0 = info.xxh64 →
            dictPayloadStore d info.storedCodec info.storedSize.toNat =
              buf.take dictPayloadHeader :=
  ⟨fmtHeader_exact, fmtBlock_exact, fmtFooter_exact, dictInfo_exact,
    fun _ _ _ => dictPayloadParse_store, fun _ _ _ => dictPayloadStore_parse⟩

end Xq
