import Xq.Core.Encoder
import Xq.Core.Reader
import Xq.Proofs.Core.Reads

/-! The limits on the reader's buffers and on the encoder's slots: what the clamps come to. -/

namespace Xq

section Clamps

/-- What the quotient leaves over is less than the divisor. -/
theorem lt_div_succ_mul (n : Nat) {d : Nat} (some_unit : 0 < d) : n < n / d * d + d := by
  -- The number is the multiple of the quotient and the remainder.
  have parts := Nat.div_add_mod n d
  have rest := Nat.mod_lt n some_unit
  rw [Nat.mul_comm] at parts
  omega

/-- A clamped number of entries, beside the shared staging and at least one slot, is too much. -/
theorem clampedCache_exceeds {b c limit slots k : Nat} (block : 0 < b) (staging : b < c)
    (room : b + c ≤ limit) (some_slot : 0 < slots)
    (enough : max ((limit - (b + c)) / b) 1 ≤ k) : limit < c + k * b + slots * (c + b) := by
  -- The quotient leaves less than a block, which the slot more than makes up for.
  have short := lt_div_succ_mul (limit - (b + c)) block
  have entries : (limit - (b + c)) / b * b ≤ k * b := Nat.mul_le_mul_right b (by omega)
  have one_slot : 1 * (c + b) ≤ slots * (c + b) := Nat.mul_le_mul_right (c + b) some_slot
  omega

/-- A clamped number of slots, beside the shared staging and at least one entry, is too much. -/
theorem clampedSlots_exceeds {b c limit cache j : Nat} (block : 0 < b) (some_entry : 0 < cache)
    (enough : limit / (c + b) ≤ j) : limit < c + cache * b + j * (c + b) := by
  -- The quotient leaves less than a slot, which is what staging and entry take.
  have short := lt_div_succ_mul limit (Nat.add_pos_right c block)
  have slots : limit / (c + b) * (c + b) ≤ j * (c + b) := Nat.mul_le_mul_right (c + b) enough
  have one_entry : 1 * b ≤ cache * b := Nat.mul_le_mul_right b some_entry
  omega

/-- Two clamps that each leave one unit keep a sum within the limit only where neither bites. -/
theorem clamps_within {b c limit cache slots : Nat} (block : 0 < b) (staging : b < c)
    (room : b + c ≤ limit) (some_entry : 0 < cache) (some_slot : 0 < slots) :
    c + min (max ((limit - (b + c)) / b) 1) cache * b +
        min (max (limit / (c + b)) 1) slots * (c + b) ≤ limit ↔
      c + cache * b + slots * (c + b) ≤ limit := by
  have one_unit : 1 ≤ limit / (c + b) := (Nat.one_le_div_iff (by omega)).mpr (by omega)
  have entries : 0 < min (max ((limit - (b + c)) / b) 1) cache := by omega
  have units : 0 < min (max (limit / (c + b)) 1) slots := by omega
  by_cases slotsFit : slots ≤ max (limit / (c + b)) 1
  · by_cases cacheFits : cache ≤ max ((limit - (b + c)) / b) 1
    · rw [min_eq_right cacheFits, min_eq_right slotsFit]
    · -- The cache is clamped, and was too large before.
      have clamped := clampedCache_exceeds block staging room units (k := min _ cache)
        (le_min (le_refl _) (by omega))
      have wanted := clampedCache_exceeds block staging room some_slot (k := cache) (by omega)
      omega
  · -- The slots are clamped, and were too many before.
    have all_units : limit / (c + b) ≤ min (max (limit / (c + b)) 1) slots := by omega
    have more_units : limit / (c + b) ≤ slots := by omega
    have clamped := clampedSlots_exceeds block entries all_units
    have wanted := clampedSlots_exceeds block some_entry more_units
    omega

end Clamps

section Buffers

/-- The block-sized memory of a reader: the shared staging, the cache and the decode slots. -/
def Reader.blockMemory (r : Reader) : Nat :=
  r.cbufCap + r.cache.length * r.maxRaw + r.slots.length * (r.cbufCap + r.maxRaw)

/-- The cache entries the options ask for. -/
def ReaderOpts.wantedCache (o : ReaderOpts) : Nat :=
  if o.cacheBlocks ≠ 0 then o.cacheBlocks else cacheBlocksDefault

/-- The decode slots the options ask for. -/
def ReaderOpts.wantedSlots (o : ReaderOpts) (cpus : Nat) : Nat :=
  if o.threads > 0 then o.threads.toNat else min (max cpus 1) 4

/-- The block-sized memory the options ask for, without any clamp. -/
def ReaderOpts.wantedMemory (o : ReaderOpts) (r : Reader) (cpus : Nat) : Nat :=
  let bs := r.hdr.blockSize
  let staging := blockHeaderSize + r.codec.bound bs + 8
  staging + o.wantedCache * bs + o.wantedSlots cpus * (staging + bs)

theorem ite_lt_eq_min (room wanted : Nat) :
    (if room < wanted then room else wanted) = min room wanted := by
  -- The clamp takes the smaller number.
  split
  · omega
  · omega

/-- What the buffers come to under a limit: both numbers are clamped, each on its own. -/
theorem Reader.setupBuffers_memory {r r' : Reader} {o : ReaderOpts} {cpus : Nat}
    (limited : o.memLimit ≠ 0) (ready : r.setupBuffers (some o) cpus = (.ok, r')) :
    let b := r.hdr.blockSize
    let c := blockHeaderSize + r.codec.bound b + 8
    b + c ≤ o.memLimit ∧ r'.blockMemory =
      c + min (max ((o.memLimit - (b + c)) / b) 1) o.wantedCache * b +
        min (max (o.memLimit / (c + b)) 1) (o.wantedSlots cpus) * (c + b) := by
  unfold Reader.setupBuffers at ready
  dsimp only [Option.map_some, Option.getD_some] at ready
  have overhead : r.hdr.blockSize + blockHeaderSize + r.codec.bound r.hdr.blockSize + 8 =
      r.hdr.blockSize + (blockHeaderSize + r.codec.bound r.hdr.blockSize + 8) := by omega
  rw [overhead] at ready
  -- A limit below one block and one staging buffer is refused.
  by_cases tight : o.memLimit ≠ 0 ∧
      r.hdr.blockSize + (blockHeaderSize + r.codec.bound r.hdr.blockSize + 8) > o.memLimit
  · rw [if_pos tight] at ready
    cases ready
  · rw [if_neg tight] at ready
    cases ready
    refine ⟨Nat.not_lt.mp fun over_ => tight ⟨limited, over_⟩, ?_⟩
    simp only [Reader.blockMemory, List.length_replicate, limited, ne_eq, not_false_eq_true,
      true_and, ite_lt_eq_min]
    rfl

/-- The codecs of the library never bound a block by less than its own size. -/
theorem codecGet_bound {id : UInt8} {codec : CodecVt} (found : codecGet none id = some codec)
    (n : Nat) : n ≤ codec.bound n := by
  have listed : codec ∈ codecs none := List.mem_of_find?_eq_some found
  simp only [codecs, Option.toList_none, List.append_nil, List.mem_cons, List.not_mem_nil,
    or_false] at listed
  rcases listed with rfl | rfl | rfl
  · exact Nat.le_refl n
  · show n ≤ lzbBound n
    rw [lzbBound]
    omega
  · show n ≤ lzeBound n
    rw [lzeBound, lzbBound]
    omega

/--
A reader's buffers honour the limit exactly when what the options ask for fits as it is.

Where the cache or the slots are clamped at all, the sum exceeds the limit: each clamp divides the
whole limit among its own buffers.
-/
theorem readerMemory_iff {r r' : Reader} {o : ReaderOpts} {cpus : Nat}
    (found : codecGet none r.hdr.codecId = some r.codec) (limited : o.memLimit ≠ 0)
    (ready : r.setupBuffers (some o) cpus = (.ok, r')) :
    r'.blockMemory ≤ o.memLimit ↔ o.wantedMemory r cpus ≤ o.memLimit := by
  obtain ⟨room, memory⟩ := Reader.setupBuffers_memory limited ready
  have block : 0 < r.hdr.blockSize := by
    rw [FileHeader.blockSize]
    split
    · exact Nat.two_pow_pos _
    · decide
  have bound := codecGet_bound found r.hdr.blockSize
  -- The options ask for an entry and a slot at least, whatever they say.
  have some_entry : 0 < o.wantedCache := by
    rw [ReaderOpts.wantedCache]
    split
    · omega
    · decide
  have some_slot : 0 < o.wantedSlots cpus := by
    rw [ReaderOpts.wantedSlots]
    split
    · omega
    · omega
  rw [memory, ReaderOpts.wantedMemory]
  exact clamps_within block (by omega) room some_entry some_slot

/-- A header of 4 KiB blocks, stored. -/
def narrowHeader : FileHeader :=
  { formatMajor := 1, formatMinor := 0, headerSize := 32, flags := 0, codecId := storedVt.id,
    level := 6, checksumId := 0, blockSizeLog := 12, rawSize := 5 }

def narrowReader : Reader :=
  readerBlank [] narrowHeader { indexOffset := 0, indexSize := 0, streamChecksum := 0 } storedVt
    { blockCount := 1, totalRaw := 5, totalStored := 29 } []

/-- One cache entry and one slot, and a limit of one block and one staging buffer. -/
def narrowOpts : ReaderOpts := { memLimit := 8224, cacheBlocks := 1, threads := 1 }

theorem narrowReader_ready :
    ∃ r, narrowReader.setupBuffers (some narrowOpts) 1 = (.ok, r) ∧ r.blockMemory = 16448 :=
  ⟨_, rfl, rfl⟩

/-- The buffers come to twice the limit there. -/
theorem readerMemory_exceeded : ¬ ∀ (r r' : Reader) (o : ReaderOpts) (cpus : Nat),
    codecGet none r.hdr.codecId = some r.codec → o.memLimit ≠ 0 →
      r.setupBuffers (some o) cpus = (.ok, r') → r'.blockMemory ≤ o.memLimit := by
  -- The limit admits one block and one staging buffer, and the reader makes two of each.
  intro within
  obtain ⟨r, ready, memory⟩ := narrowReader_ready
  have wrong := within narrowReader r narrowOpts 1 rfl (by decide) ready
  rw [memory] at wrong
  exact absurd wrong (by decide)

/-- The two sides of the equivalence, where neither holds. -/
theorem readerMemory_iff_narrow : ∃ r,
    narrowReader.setupBuffers (some narrowOpts) 1 = (.ok, r) ∧
      (r.blockMemory ≤ narrowOpts.memLimit ↔
        narrowOpts.wantedMemory narrowReader 1 ≤ narrowOpts.memLimit) := by
  -- The reader of that file is one that was made ready.
  obtain ⟨r, ready, _⟩ := narrowReader_ready
  exact ⟨r, ready, readerMemory_iff rfl (by decide) ready⟩

end Buffers

section Slots

/-- The workers the parameters ask for. -/
def XqParams.wantedThreads (p : XqParams) (cpus : Nat) : Nat :=
  if p.threads = 0 then min cpus 8 else p.threads.toNat

/-- The bytes of a slot: a raw block, and what the codec may need for it. -/
def XqParams.slotSize (p : XqParams) (codec : CodecVt) : Nat :=
  p.effectiveBlockSize + codec.bound p.effectiveBlockSize

/-- The slot buffers `mt_create` asks for, two slots a worker; nothing without workers. -/
def slotMemory (p : XqParams) (codec : CodecVt) (cpus : Nat) : Nat :=
  let nthreads := encoderThreads p codec p.effectiveBlockSize cpus
  if nthreads > 1 ∧ codec.cctxNew.isSome then nthreads * 2 * p.slotSize codec else 0

/-- The workers a new encoder starts are those whose slots are counted. -/
theorem Encoder.createMt_slots {e e' : Encoder} {m : Machine} {n : Nat}
    (size : e.blockSize = e.p.effectiveBlockSize) (unset : e.mt = none)
    (created : e.createMt m = (.ok, e')) (workers : e'.mt = some n) :
    n * 2 * e.p.slotSize e.codec = slotMemory e.p e.codec m.cpus := by
  -- `mt_create` starts the workers counted, or none.
  rw [Encoder.createMt] at created
  rw [slotMemory, ← size]
  by_cases several : encoderThreads e.p e.codec e.blockSize m.cpus > 1 ∧ e.codec.cctxNew.isSome
  · rw [if_pos several] at created ⊢
    split at created
    · cases created
    · cases created
      rw [Option.some.inj workers]
  · -- Without a second worker there is nothing to count.
    rw [if_neg several] at created
    cases created
    rw [unset] at workers
    cases workers

/-- A quotient as the cast to `int` leaves it, when it comes from 32 bits. -/
theorem int_cast_quotient {k : Nat} (small : k < 2 ^ 32) :
    (((k : Nat) : Int).bmod (2 ^ 32)).toNat = if k < 2 ^ 31 then k else 0 := by
  -- The upper half of the words is negative.
  rw [Int.bmod_def]
  split
  · split
    · omega
    · omega
  · split
    · omega
    · omega

/--
The slots of an encoder honour the limit exactly where the limit leaves the thread count alone,
or leaves no second worker.

Where it lowers the count to two or more, it counts one slot a worker and `mt_create` makes two. A
quotient beyond the range of `int` turns negative and leaves one worker.
The slots counted are those of the workers that `mt_create` starts.
-/
theorem slotMemory_iff {p : XqParams} (int : p.threads < 2 ^ 31) (limited : p.memLimit ≠ 0)
    (codec : CodecVt) (cpus : Nat) :
    (slotMemory p codec cpus ≤ p.memLimit ↔ codec.cctxNew = none ∨
      p.wantedThreads cpus * 2 * p.slotSize codec ≤ p.memLimit ∨
      p.memLimit < 2 * p.slotSize codec ∨ 2 ^ 31 * p.slotSize codec ≤ p.memLimit) ∧
    ∀ (e e' : Encoder) (m : Machine) (n : Nat), e.p = p → e.codec = codec → m.cpus = cpus →
      e.blockSize = p.effectiveBlockSize → e.mt = none → e.createMt m = (.ok, e') →
        e'.mt = some n → n * 2 * p.slotSize codec = slotMemory p codec cpus := by
  refine ⟨?_, ?_⟩
  swap
  · rintro e e' m n rfl rfl rfl size unset created workers
    exact Encoder.createMt_slots size unset created workers
  have block : 0 < p.effectiveBlockSize := by
    rw [XqParams.effectiveBlockSize]
    split
    · omega
    · decide
  have some_size : 0 < p.slotSize codec := Nat.add_pos_left block _
  cases context : codec.cctxNew with
  | none =>
    rw [slotMemory, if_neg (by simp [context])]
    exact iff_of_true (Nat.zero_le _) (.inl rfl)
  | some cctxNew =>
    have several : codec.cctxNew.isSome := by rw [context]; rfl
    have range : p.wantedThreads cpus < 2 ^ 31 := by
      rw [XqParams.wantedThreads]
      split
      · omega
      · omega
    have never : ¬ (some cctxNew = none) := Option.some_ne_none cctxNew
    rw [slotMemory, encoderThreads, ← XqParams.wantedThreads]
    simp only [several, and_true, never, false_or]
    have size : p.effectiveBlockSize + codec.bound p.effectiveBlockSize = p.slotSize codec := rfl
    rw [size]
    generalize p.wantedThreads cpus = n at range ⊢
    generalize p.slotSize codec = per at some_size ⊢
    by_cases many : n > 1
    · rw [if_pos many]
      by_cases tight : n * 2 * per > p.memLimit
      · -- The limit lowers the count to the number of slots that fit.
        have few : p.memLimit / per < n * 2 := Nat.div_lt_of_lt_mul (by rwa [Nat.mul_comm])
        have lowered : (if p.memLimit ≠ 0 ∧ n * 2 * per > p.memLimit then
            if per ≠ 0 then max (((p.memLimit / per : Nat) : Int).bmod (2 ^ 32)).toNat 1 else 1
            else n) = max (if p.memLimit / per < 2 ^ 31 then p.memLimit / per else 0) 1 := by
          rw [if_pos ⟨limited, tight⟩, if_pos (Nat.ne_of_gt some_size),
            int_cast_quotient (by omega)]
        rw [lowered]
        have short := lt_div_succ_mul p.memLimit some_size
        have whole := Nat.div_mul_le_self p.memLimit per
        generalize p.memLimit / per = k at few short whole ⊢
        by_cases narrow : k < 2 ^ 31
        · rw [if_pos narrow]
          by_cases pair : k > 1
          · -- Two or more workers get twice the slots that fit.
            have counted : max k 1 = k := by omega
            have twice : k * 2 * per = k * per + k * per := by ring
            have two_slots : 2 * per ≤ k * per := Nat.mul_le_mul_right per pair
            have below : (k + 1) * per ≤ 2 ^ 31 * per := Nat.mul_le_mul_right per narrow
            rw [Nat.succ_mul] at below
            rw [counted, if_pos pair, twice]
            omega
          · have one_worker : ¬ max k 1 > 1 := by omega
            have one_slot : k * per ≤ 1 * per := Nat.mul_le_mul_right per (by omega)
            rw [if_neg one_worker]
            exact iff_of_true (Nat.zero_le _) (.inr (.inl (by omega)))
        · -- The quotient is negative as an `int`, and one worker is left.
          have wide : 2 ^ 31 * per ≤ k * per := Nat.mul_le_mul_right per (Nat.not_lt.mp narrow)
          rw [if_neg narrow]
          exact iff_of_true (Nat.zero_le _) (.inr (.inr (wide.trans whole)))
      · -- The limit leaves the thread count alone.
        have fits := Nat.not_lt.mp tight
        have kept : ¬ (p.memLimit ≠ 0 ∧ n * 2 * per > p.memLimit) := fun both => tight both.2
        rw [if_neg kept, if_pos many]
        exact iff_of_true fits (.inl fits)
    · -- A single worker compresses in the caller's own buffers.
      rw [if_neg many, if_neg many]
      have single : n * 2 * per ≤ 1 * 2 * per := Nat.mul_le_mul_right per (by omega)
      refine iff_of_true (Nat.zero_le _) ?_
      omega

/-- Four workers of lzb on 64 KiB blocks, and a limit of a little more than two slots. -/
def tightParams : XqParams :=
  { level := 6, blockSize := 65536, dictSize := 0, codec := .lzb, checksum := .crc32c,
    threads := 4, memLimit := 300000 }

theorem tightParams_slots : slotMemory tightParams lzbVt 4 = 525444 := by decide +kernel

/-- Accepted parameters whose slots exceed their limit. -/
theorem slotMemory_exceeded : ¬ ∀ (p : XqParams) (codec : CodecVt) (cpus : Nat),
    paramsCheck (codecAvailable none) p = .ok → codecGet none p.codec.id = some codec →
      p.memLimit ≠ 0 → slotMemory p codec cpus ≤ p.memLimit := by
  -- The parameters are accepted, and their slots are counted.
  intro within
  have wrong := within tightParams lzbVt 4 (by decide +kernel) rfl (by decide)
  rw [tightParams_slots] at wrong
  exact absurd wrong (by decide)

/-- The two sides of the equivalence, where neither holds. -/
theorem slotMemory_iff_tight :
    slotMemory tightParams lzbVt 4 ≤ tightParams.memLimit ↔ lzbVt.cctxNew = none ∨
      tightParams.wantedThreads 4 * 2 * tightParams.slotSize lzbVt ≤ tightParams.memLimit ∨
      tightParams.memLimit < 2 * tightParams.slotSize lzbVt ∨
      2 ^ 31 * tightParams.slotSize lzbVt ≤ tightParams.memLimit :=
  (slotMemory_iff (by decide) (by decide) lzbVt 4).1

end Slots

end Xq
