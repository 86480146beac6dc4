import Xq.Codec.Table
import Xq.Proofs.Codec.LzbHistory
import Xq.Proofs.Codec.Varint
import Xq.Proofs.Common.Huffman

/-! What either codec writes, its decoder takes back, over the same dictionary. -/

namespace Xq

/-- The staged stream the decoder is willing to hold. -/
def lzeMidMax : Nat := blockSizeMax + blockSizeMax / 255 + 64

/-- Counting a byte string in 32-bit counters is exact below their range. -/
theorem lzeFreq_count {mid : Bytes} (small : mid.length < 2 ^ 32) (b : UInt8) :
    (lzeFreq mid b).toNat = mid.count b := by
  -- The fold is taken from the back, where the last byte has just been counted.
  induction mid using List.reverseRecOn with
  | nil => rfl
  | append_singleton front last ih =>
    rw [List.length_append, List.length_singleton] at small
    have counted := ih (Nat.lt_of_succ_lt small)
    have step : lzeFreq (front ++ [last]) =
        Function.update (lzeFreq front) last (lzeFreq front last + 1) := by
      simp [lzeFreq]
    rw [step, List.count_append]
    by_cases same : b = last
    · subst same
      have bound := List.count_le_length (a := b) (l := front)
      rw [Function.update_self, UInt32.toNat_add, counted, List.count_singleton_self,
        Nat.mod_eq_of_lt]
      · rfl
      · change _ + 1 < _
        omega
    · rw [Function.update_of_ne same, counted,
        List.count_eq_zero.mpr fun member => same (List.mem_singleton.mp member), Nat.add_zero]

/-- Every byte of the staged stream has a frequency. -/
theorem lzeFreqNat_ne_zero {mid : Bytes} (small : mid.length < 2 ^ 32) {b : UInt8}
    (member : b ∈ mid) : lzeFreqNat mid b.toNat ≠ 0 := by
  -- A byte that occurs is counted at least once.
  rw [lzeFreqNat, UInt8.ofNat_toNat, lzeFreq_count small]
  exact Nat.pos_iff_ne_zero.mp (List.count_pos_iff.mpr member)

/-- The header of the coded form: the mode, the length of the staged stream, and the table. -/
def lzeHeader (mid : Bytes) (enc : HuffEnc) : Bytes :=
  lzeModeHuff :: varint (UInt64.ofNat mid.length) ++ huffStore enc

/-- The coded form is the header and the bits that coding the staged stream flushes. -/
theorem lzeHuffman_some {cap : Nat} {mid out : Bytes} {enc : HuffEnc}
    (made : lzeHuffman cap mid enc = some (some out)) :
    ∃ bits, huffEmitAll enc (cap - (lzeHeader mid enc).length) mid = some bits ∧
      out = lzeHeader mid enc ++ bits := by
  -- The function is followed through the tests that did not refuse: mode byte, length, table, bits.
  rw [lzeHuffman] at made
  split at made
  · cases made
  · rw [putVarint_eq] at made
    split at made
    · cases made
    next dst put =>
      split at put
      · obtain rfl := Option.some.inj put
        split at made
        · cases made
        · dsimp only at made
          split at made
          · cases made
          next bits flushed =>
            split at made
            · refine ⟨bits, ?_, ?_⟩
              · exact flushed
              · exact (Option.some.inj (Option.some.inj made)).symm
            · cases made
      · cases put

/-- The entropy stage answers with the raw form or with the coded form. -/
theorem lzeEntropy_ok {cap : Nat} {mid out : Bytes} (made : lzeEntropy cap mid = (.ok, out)) :
    out = lzeModeRaw :: mid ∨ ∃ enc, huffBuild (lzeFreqNat mid) = some enc ∧
      ∃ space bits, huffEmitAll enc space mid = some bits ∧ out = lzeHeader mid enc ++ bits := by
  have raw : lzeRaw cap mid = (.ok, out) → out = lzeModeRaw :: mid := by
    intro answered
    rw [lzeRaw] at answered
    split at answered
    · cases answered
    · exact (Prod.mk.inj answered).2.symm
  rw [lzeEntropy] at made
  split at made
  · -- No table was built, or the stream was too short for one.
    exact .inl (raw made)
  next enc choice =>
    have built : huffBuild (lzeFreqNat mid) = some enc := by
      split at choice
      · exact choice
      · cases choice
    split at made
    · cases made
    next coded =>
      obtain rfl := (Prod.mk.inj made).2
      obtain ⟨bits, flushed, whole⟩ := lzeHuffman_some coded
      exact .inr ⟨enc, built, _, bits, flushed, whole⟩
    · -- The coded form was no shorter.
      exact .inl (raw made)

/-- The decoder gives the lzb stage exactly the stream the entropy stage was given. -/
theorem lzeDecompress_entropy {cap space : Nat} {mid out : Bytes} (d : LzeDctx)
    (ddict : Option LzbDdict) (small : mid.length ≤ lzeMidMax)
    (made : lzeEntropy space mid = (.ok, out)) :
    (lzeDecompress d cap out ddict).1 = lzbDecompress cap mid ddict := by
  have limit : lzeMidMax < 2 ^ 32 := by decide
  rcases lzeEntropy_ok made with rfl | ⟨enc, built, room, bits, flushed, rfl⟩
  · -- The raw form is passed on without its mode byte.
    rw [lzeDecompress]
    exact congrArg Prod.fst (if_pos rfl)
  · -- The coded form: the length, the table and the symbols are read back one after the other.
    obtain ⟨dec, loaded, decoded⟩ := (huffEmitAll_decodes built
      (fun s member => lzeFreqNat_ne_zero (by omega) member) room).2 bits flushed
    have length : (UInt64.ofNat mid.length).toNat = mid.length :=
      UInt64.toNat_ofNat_of_lt (by rw [UInt64.size]; omega)
    have table : (huffStore enc).length = huffTableBytes := huffStore_length enc
    have header : lzeHeader mid enc ++ bits =
        lzeModeHuff :: (varint (UInt64.ofNat mid.length) ++ (huffStore enc ++ bits)) := by
      simp [lzeHeader]
    rw [header, lzeDecompress, if_neg (by decide), if_neg (by decide), lzeGetVarint_eq,
      getVarint_varint]
    dsimp only
    have short : ¬ mid.length > blockSizeMax + blockSizeMax / 255 + 64 := Nat.not_lt.mpr small
    rw [length, if_neg short, if_neg (by rw [List.length_append]; omega),
      ← table, List.take_left, loaded, List.drop_left]
    dsimp only
    rw [decoded]

/-- One earlier use of a compression context, whatever came of it. -/
structure CodecUse where
  cap : Nat
  src : Bytes
  level : Int
  cdict : Option Cdict

/-- The context a use leaves behind. -/
def CodecVt.use (v : CodecVt) (c : Cctx) (u : CodecUse) : Cctx :=
  (v.compress c u.cap u.src u.level u.cdict).2

/-- The two digests of one dictionary, or of none. -/
def CodecVt.Digests (v : CodecVt) (dict : Option Bytes) (cdict : Option Cdict)
    (ddict : Option Ddict) : Prop :=
  match dict with
  | none => cdict = none ∧ ddict = none
  | some bytes => cdict.isSome ∧
    (∃ digest ∈ v.cdictNew, ∃ heap, (digest heap bytes).1 = cdict) ∧
    ∃ digest ∈ v.ddictNew, ddict = some (digest bytes)

/-- A digest of either kind points at the dictionary's own bytes. -/
theorem lzbCdictNew_data {heap : Heap} {bytes : Bytes} {d : LzbCdict}
    (made : (lzbCdictNew heap bytes).1 = some d) : d.data = bytes := by
  -- A digest is only made with the bytes it was given.
  rw [lzbCdictNew] at made
  split at made
  · cases made
  · dsimp only at made
    split at made
    · obtain rfl := Option.some.inj made
      rfl
    · cases made

/-- Under the vtables of lzb and lze, both digests of a dictionary have the same bytes. -/
theorem digests_same {v : CodecVt} (codec : v = lzbVt ∨ v = lzeVt) {dict : Option Bytes}
    {cdict : Option Cdict} {ddict : Option Ddict} (digests : v.Digests dict cdict ddict) :
    (ddict.bind Ddict.asLzb).map LzbDdict.data = dict ∧
      (cdict.bind Cdict.asLzb).map LzbCdict.data = dict := by
  -- Both vtables make their digests with the same two functions.
  have cdictNew : v.cdictNew = some lzbCdictNewVt := by rcases codec with rfl | rfl <;> rfl
  have ddictNew : v.ddictNew = some lzbDdictNewVt := by rcases codec with rfl | rfl <;> rfl
  cases dict with
  | none =>
    -- Without a dictionary there is no digest.
    obtain ⟨rfl, rfl⟩ := digests
    exact ⟨rfl, rfl⟩
  | some bytes =>
    obtain ⟨present, ⟨digest, listed, heap, made⟩, other, listed', rfl⟩ := digests
    obtain rfl := Option.mem_some_iff.mp (cdictNew ▸ listed)
    obtain rfl := Option.mem_some_iff.mp (ddictNew ▸ listed')
    refine ⟨rfl, ?_⟩
    obtain ⟨c, rfl⟩ := Option.isSome_iff_exists.mp present
    have inner : (lzbCdictNew heap bytes).1.map Cdict.lzb = some c := made
    obtain ⟨d, digested, rfl⟩ := Option.map_eq_some_iff.mp inner
    exact congrArg some (lzbCdictNew_data digested)

/-- The staging buffer of a context is no larger than the largest block needs. -/
def Cctx.Staged : Cctx → Prop
  | .lze c => c.midCap ≤ lzeMidMax
  | _ => True

theorem LzeCctx.reserve_midCap (c : LzeCctx) {n : Nat} (staged : c.midCap ≤ lzeMidMax)
    (small : n ≤ blockSizeMax) : (c.reserve (lzbBound n + 32)).2.midCap ≤ lzeMidMax := by
  -- What a block asks for is within the limit, and a refused allocation leaves nothing.
  have need : lzbBound n + 32 ≤ lzeMidMax := by
    rw [lzbBound, lzeMidMax]
    omega
  rw [LzeCctx.reserve]
  split
  · exact staged
  · split
    · exact Nat.zero_le _
    · exact need

/-- Compression keeps the staging buffer within the limit. -/
theorem lzeCompress_midCap (c : LzeCctx) (cap : Nat) {src : Bytes} (level : Int)
    (cdict : Option LzbCdict) (staged : c.midCap ≤ lzeMidMax) (small : src.length ≤ blockSizeMax) :
    (lzeCompress c cap src level cdict).2.midCap ≤ lzeMidMax := by
  -- The buffer only changes while it is reserved.
  have kept := c.reserve_midCap staged small
  rw [lzeCompress]
  split
  · exact staged
  · split
    next reserved => rwa [reserved] at kept
    next reserved =>
      rw [reserved] at kept
      split <;> exact kept

theorem CodecVt.use_staged {v : CodecVt} (codec : v = lzbVt ∨ v = lzeVt) {c : Cctx} {u : CodecUse}
    (staged : c.Staged) (small : u.src.length ≤ blockSizeMax) : (v.use c u).Staged := by
  -- Only lze has a staging buffer, and it grows to what the source needs.
  rcases codec with rfl | rfl
  · cases c <;> trivial
  · cases c with
    | lze c => exact lzeCompress_midCap c u.cap u.level (u.cdict.bind Cdict.asLzb) staged small
    | _ => trivial

/-- However often a context has been used, its staging buffer stays within the limit. -/
theorem CodecVt.uses_staged {v : CodecVt} (codec : v = lzbVt ∨ v = lzeVt) {uses : List CodecUse}
    (small : ∀ u ∈ uses, u.src.length ≤ blockSizeMax) {c : Cctx} (staged : c.Staged) :
    (uses.foldl v.use c).Staged := by
  -- By induction on the calls made.
  induction uses generalizing c with
  | nil => exact staged
  | cons u rest ih =>
    exact ih (fun u member => small u (List.mem_cons_of_mem _ member))
      (CodecVt.use_staged codec staged (small u List.mem_cons_self))

/-- What lzb compression writes is the empty string for no input, and the block's stream else. -/
theorem lzbCompress_decompress {c : LzbCctx} {cap room : Nat} {src out : Bytes} {level : Int}
    {cdict : Option LzbCdict} {ddict : Option LzbDdict}
    (same : ddict.map LzbDdict.data = cdict.map LzbCdict.data)
    (small : src.length + ((cdict.map LzbCdict.data).getD []).length < 2 ^ 64)
    (enough : src.length ≤ room) (made : (lzbCompress c cap src level cdict).1 = (.ok, out)) :
    lzbDecompress room out ddict = (.ok, src) ∧ out.length ≤ cap := by
  by_cases empty : src.length = 0
  · -- No input gives no output, which decodes to nothing.
    rw [lzbCompress, if_pos empty] at made
    obtain rfl := (Prod.mk.inj made).2
    rw [List.length_eq_zero_iff.mp empty]
    exact ⟨rfl, Nat.zero_le _⟩
  · rcases lzbCompress_cases c cap level cdict empty with oom | answer
    · rw [oom] at made
      cases made
    · rw [answer, lzbAnswer] at made
      split at made
      next fits =>
        obtain rfl := (Prod.mk.inj made).2
        exact ⟨lzbDecompress_lzbStream same enough small, fits⟩
      · cases made

/-- The entropy stage changes nothing about it, as long as the staged stream is not too long. -/
theorem lzeCompress_decompress {c : LzeCctx} {d : LzeDctx} {cap room : Nat} {src out : Bytes}
    {level : Int} {cdict : Option LzbCdict} {ddict : Option LzbDdict}
    (same : ddict.map LzbDdict.data = cdict.map LzbCdict.data)
    (small : src.length + ((cdict.map LzbCdict.data).getD []).length < 2 ^ 64)
    (staged : c.midCap ≤ lzeMidMax) (block : src.length ≤ blockSizeMax)
    (enough : src.length ≤ room) (made : (lzeCompress c cap src level cdict).1 = (.ok, out)) :
    (lzeDecompress d room out ddict).1 = (.ok, src) := by
  by_cases empty : src.length = 0
  · -- No input gives no output, which decodes to nothing.
    rw [lzeCompress, if_pos empty] at made
    obtain rfl := (Prod.mk.inj made).2
    rw [List.length_eq_zero_iff.mp empty]
    rfl
  · -- The stage has written the block's stream, and the entropy decoder gives it back.
    have kept := c.reserve_midCap staged block
    rw [lzeCompress, if_neg empty] at made
    split at made
    · cases made
    next c' reserved =>
      rw [reserved] at kept
      split at made
      next mid lzb staging =>
        have inner : (lzbCompress c'.lzb c'.midCap src level cdict).1 = (.ok, mid) := by
          rw [staging]
        obtain ⟨restored, fits⟩ := lzbCompress_decompress same small enough inner
        rw [lzeDecompress_entropy d ddict (fits.trans kept) made]
        exact restored
      next failed _ =>
        obtain rfl := (Prod.mk.inj made).1
        exact (failed rfl).elim

/--
Either codec's decoder takes back what its encoder wrote, over the same dictionary.

The compression context may have been used before in any way; what it still holds has no effect
on the stream, and only its staging buffer's size has to stay within the decoder's limit.
-/
theorem codec_roundTrip {v : CodecVt} (codec : v = lzbVt ∨ v = lzeVt) {dict : Option Bytes}
    (sized : ∀ bytes ∈ dict, lzbMinMatch ≤ bytes.length ∧ bytes.length ≤ 2 ^ 28)
    {cdict : Option Cdict} {ddict : Option Ddict} (digests : v.Digests dict cdict ddict)
    {fresh : Heap → Cctx} (creates : v.cctxNew = some fresh) (heap : Heap) {uses : List CodecUse}
    (before : ∀ u ∈ uses, u.src.length ≤ 2 ^ 28) {src : Bytes} (block : src.length ≤ 2 ^ 28)
    (level : Int) (cap : Nat) {out : Bytes}
    (made : (v.compress (uses.foldl v.use (fresh heap)) cap src level cdict).1 = (.ok, out))
    {room : Nat} (enough : src.length ≤ room) :
    (v.decompress (v.dctxNew.getD .null) room out src.length ddict).1 = (.ok, src) := by
  obtain ⟨dbytes, cbytes⟩ := digests_same codec digests
  have same := dbytes.trans cbytes.symm
  have small : src.length +
      (((cdict.bind Cdict.asLzb).map LzbCdict.data).getD []).length < 2 ^ 64 := by
    rw [cbytes]
    cases dict with
    | none =>
      rw [Option.getD_none, List.length_nil]
      omega
    | some bytes =>
      have := (sized bytes rfl).2
      rw [Option.getD_some]
      omega
  -- A new context has no staging buffer yet.
  have started : (fresh heap).Staged := by
    rcases codec with rfl | rfl
    · obtain rfl := Option.some.inj creates
      trivial
    · obtain rfl := Option.some.inj creates
      exact Nat.zero_le _
  have staged := CodecVt.uses_staged codec before started
  generalize uses.foldl v.use (fresh heap) = c at made staged
  rcases codec with rfl | rfl
  · cases c with
    | lzb c => exact (lzbCompress_decompress same small enough made).1
    | _ => cases made
  · cases c with
    | lze c => exact lzeCompress_decompress same small staged block enough made
    | _ => cases made

/-- An allocator that grants every request with zeroed memory. -/
def grantingHeap : Heap := { grants := fun _ => true, junk := fun _ _ => 0, next := 0 }

/-- A block that continues a four-byte dictionary, on a context used once before. -/
theorem codec_roundTrip_dictionary : ∃ out,
    (lzeVt.compress ([⟨100, [1, 2, 3, 1, 2, 3, 1, 2, 3], 5, none⟩].foldl lzeVt.use
      (.lze (lzeCctxNew grantingHeap))) 64 [98, 99, 100, 97, 98, 99, 100, 97] 5
      (lzbCdictNewVt grantingHeap [97, 98, 99, 100]).1).1 = (.ok, out) ∧
    (lzeVt.decompress (.lze lzeDctxNew) 8 out 8 (some (lzbDdictNewVt [97, 98, 99, 100]))).1 =
      (.ok, [98, 99, 100, 97, 98, 99, 100, 97]) := by
  -- The output is the one that compression writes; only its success has to be evaluated.
  have made : (lzeVt.compress ([⟨100, [1, 2, 3, 1, 2, 3, 1, 2, 3], 5, none⟩].foldl lzeVt.use
      (.lze (lzeCctxNew grantingHeap))) 64 [98, 99, 100, 97, 98, 99, 100, 97] 5
      (lzbCdictNewVt grantingHeap [97, 98, 99, 100]).1).1 =
        (.ok, (lzeVt.compress ([⟨100, [1, 2, 3, 1, 2, 3, 1, 2, 3], 5, none⟩].foldl lzeVt.use
          (.lze (lzeCctxNew grantingHeap))) 64 [98, 99, 100, 97, 98, 99, 100, 97] 5
          (lzbCdictNewVt grantingHeap [97, 98, 99, 100]).1).1.2) :=
    Prod.ext (by decide +kernel) rfl
  have digests : lzeVt.Digests (some [97, 98, 99, 100])
      (lzbCdictNewVt grantingHeap [97, 98, 99, 100]).1 (some (lzbDdictNewVt [97, 98, 99, 100])) :=
    ⟨rfl, ⟨lzbCdictNewVt, rfl, grantingHeap, rfl⟩, lzbDdictNewVt, rfl, rfl⟩
  refine ⟨_, made, codec_roundTrip (.inr rfl) ?_ digests rfl grantingHeap (by simp) (by simp) 5 64
    made (by simp)⟩
  intro bytes member
  obtain rfl := Option.mem_some_iff.mp member
  decide

end Xq
