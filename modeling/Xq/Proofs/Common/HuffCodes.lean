import Xq.Proofs.Common.HuffBuild

/-! The two separate code assignments, in 16-bit arithmetic, are the canonical one. -/

namespace Xq

open Lib

/-- The lengths of a prefix code of at most fifteen bits. -/
structure PrefixLengths (len : Nat → Nat) : Prop where
  within : ∀ s, len s ≠ 0 → s < huffSymbols
  short : ∀ s, len s ≤ huffMaxBits
  room : ∀ m, (∀ s, len s ≤ m) → taken huffSymbols len m (m + 1) ≤ 2 ^ m

theorem Filling.prefixLengths {len : Nat → Nat} (filling : Filling len) : PrefixLengths len :=
  ⟨filling.within, filling.short, fun m longest => (filling.full m longest).le⟩

/-- The one code of a single symbol takes half of the code space. -/
theorem prefixLengths_single {s : Nat} (within : s < huffSymbols) :
    PrefixLengths (Function.update (fun _ => 0) s 1) where
  within i some_len := by
    by_cases same : i = s
    · exact same ▸ within
    · exact absurd (Function.update_of_ne same _ _) some_len
  short i := by
    by_cases same : i = s <;> simp [same, huffMaxBits]
  room m longest := by
    have positive : 1 ≤ m := by simpa using longest s
    rw [taken, Finset.sum_eq_single s]
    · -- Its code is one bit, so it takes one of the two halves.
      refine le_trans (ite_le_sup _ _ _) ?_
      simp only [Function.update_self, Nat.max_zero]
      exact Nat.pow_le_pow_right (by decide) (by omega)
    · intro i _ other
      simp [Function.update_of_ne other]
    · exact fun absent => absurd (Finset.mem_range.mpr within) absent

section Codes

variable {len : Nat → Nat}

/-- The first code of a length has at most that many bits, and one more when the space is full. -/
theorem firstCode_le (code : PrefixLengths len) {b : Nat} (small : b ≤ huffMaxBits) :
    firstCode (huffCount len) b ≤ 2 ^ b := by
  -- Counted in the longest length, the codes in front of the first one fit into the space.
  have scaled := firstCode_scaled huffSymbols len small
  have room := code.room huffMaxBits code.short
  have less := taken_mono (Nat.le_succ_of_le small) huffSymbols len huffMaxBits
  have scale : 2 ^ huffMaxBits = 2 ^ b * 2 ^ (huffMaxBits - b) := by
    rw [← Nat.pow_add, Nat.add_sub_cancel' small]
  refine Nat.le_of_mul_le_mul_right ?_ (Nat.two_pow_pos (huffMaxBits - b))
  rw [← scale]
  calc firstCode (huffCount len) b * 2 ^ (huffMaxBits - b)
      = taken huffSymbols len huffMaxBits b := scaled
    _ ≤ taken huffSymbols len huffMaxBits (huffMaxBits + 1) := less
    _ ≤ 2 ^ huffMaxBits := room

/-- The 16-bit arithmetic of the first codes never wraps. -/
theorem huffNext_eq (code : PrefixLengths len) {b : Nat} (small : b ≤ huffMaxBits) :
    huffNext (huffCount len) b = firstCode (huffCount len) b := by
  -- The induction is on the length; no first code has more than fifteen bits.
  induction b with
  | zero => rfl
  | succ b ih =>
    have bound := firstCode_le code small
    have top : 2 ^ (b + 1) ≤ 2 ^ 15 := Nat.pow_le_pow_right (by decide) small
    rw [firstCode] at bound
    rw [huffNext, ih (Nat.le_of_succ_le small), firstCode]
    exact Nat.mod_eq_of_lt (by omega)

/-- Reversing up to fifteen bits stays within sixteen. -/
theorem huffReverse_eq (c : Nat) {l : Nat} (small : l ≤ huffMaxBits) :
    huffReverse c l = reverseBits c l := by
  -- The induction is on the bits; sixteen are enough for fifteen.
  induction l with
  | zero => rfl
  | succ l ih =>
    have bound := reverseBits_lt c (l + 1)
    have top : 2 ^ (l + 1) ≤ 2 ^ 15 := Nat.pow_le_pow_right (by decide) small
    rw [reverseBits] at bound
    rw [huffReverse, ih (Nat.le_of_succ_le small), reverseBits]
    exact Nat.mod_eq_of_lt (by omega)

/-- The next code of each length after the first `k` symbols. -/
def nextAfter (len : Nat → Nat) (k b : Nat) : Nat :=
  firstCode (huffCount len) b + lengthCount k len b

/-- Handing out one code moves the next code of its length on, without wrapping. -/
theorem nextAfter_succ (code : PrefixLengths len) {k : Nat} (within : k < huffSymbols)
    (used : len k ≠ 0) (b : Nat) :
    nextAfter len (k + 1) b =
      if b = len k then (nextAfter len k (len k) + 1) % 2 ^ 16 else nextAfter len k b := by
  rw [nextAfter, lengthCount_succ]
  by_cases same : b = len k
  · subst same
    have small := canonicalCode_lt within used (code.short k) (code.room _ code.short)
    have top : 2 ^ len k ≤ 2 ^ 15 := Nat.pow_le_pow_right (by decide) (code.short k)
    rw [if_pos ⟨used, rfl⟩, if_pos rfl, nextAfter, Nat.mod_eq_of_lt]
    · rfl
    · change canonicalCode huffSymbols len k + 1 < 2 ^ 16
      omega
  · -- Another length's next code stays where it is.
    rw [if_neg same, if_neg fun both => same both.2.symm]
    rfl

/-- A symbol without a code leaves the next codes where they are. -/
theorem nextAfter_skip {k : Nat} (unused : len k = 0) (b : Nat) :
    nextAfter len (k + 1) b = nextAfter len k b := by
  -- The symbol is not counted.
  rw [nextAfter, lengthCount_succ, if_neg fun both => both.1 (both.2.symm.trans unused)]
  rfl

/-- The next codes agree with the canonical ones on every length there is. -/
def NextAgrees (len : Nat → Nat) (k : Nat) (next : Nat → Nat) : Prop :=
  ∀ b ≤ huffMaxBits, next b = nextAfter len k b

theorem nextAgrees_start (code : PrefixLengths len) : NextAgrees len 0 (huffNext (huffCount len)) :=
  fun b small => by
    rw [huffNext_eq code small, nextAfter]
    by_cases zero : b = 0 <;> simp [lengthCount, zero]

theorem nextAgrees_step (code : PrefixLengths len) {k : Nat} (within : k < huffSymbols)
    (used : len k ≠ 0) {next : Nat → Nat} (agrees : NextAgrees len k next) :
    NextAgrees len (k + 1) (Function.update next (len k) ((next (len k) + 1) % 2 ^ 16)) := by
  -- Only the length of the symbol is written to.
  intro b small
  rw [nextAfter_succ code within used, agrees _ (code.short k)]
  by_cases same : b = len k
  · rw [if_pos same, same, Function.update_self]
  · rw [if_neg same, Function.update_of_ne same, agrees b small]

/-- The next code of a symbol's length is the symbol's canonical code. -/
theorem NextAgrees.code {k : Nat} {next : Nat → Nat} (agrees : NextAgrees len k next)
    (code : PrefixLengths len) : next (len k) = canonicalCode huffSymbols len k :=
  agrees _ (code.short k)

/-- The encoder's codes are the canonical ones, most significant bit first. -/
theorem huffCodes_eq (code : PrefixLengths len) {s : Nat} (used : len s ≠ 0) :
    huffCodes len s = reverseBits (canonicalCode huffSymbols len s) (len s) := by
  -- The loop over the symbols hands out the codes of each length in order.
  have assigned : ∀ k ≤ huffSymbols,
      NextAgrees len k ((List.range k).foldl (huffAssign len)
        (huffNext (huffCount len), fun _ => 0)).1 ∧
      ∀ i < k, len i ≠ 0 → ((List.range k).foldl (huffAssign len)
        (huffNext (huffCount len), fun _ => 0)).2 i =
          reverseBits (canonicalCode huffSymbols len i) (len i) := by
    intro k
    induction k with
    | zero => exact fun _ => ⟨nextAgrees_start code, fun i below => absurd below (by omega)⟩
    | succ k ih =>
      intro below
      obtain ⟨agrees, given⟩ := ih (Nat.le_of_succ_le below)
      rw [List.range_succ, List.foldl_append, List.foldl_cons, List.foldl_nil, huffAssign]
      by_cases unused : len k = 0
      · -- Nothing is handed out to a symbol without a code.
        simp only [if_pos unused]
        refine ⟨fun b small => (agrees b small).trans (nextAfter_skip unused b).symm,
          fun i earlier some_len => ?_⟩
        have other : i ≠ k := fun same => some_len (same ▸ unused)
        exact given i (by omega) some_len
      · simp only [if_neg unused]
        refine ⟨nextAgrees_step code below unused agrees, fun i earlier some_len => ?_⟩
        by_cases same : i = k
        · rw [same, Function.update_self, huffReverse_eq _ (code.short k), agrees.code code]
        · rw [Function.update_of_ne same]
          exact given i (by omega) some_len
  exact (assigned huffSymbols (Nat.le_refl _)).2 s (code.within s used) used

/-- Filling a symbol's slots sets exactly those whose low bits are the symbol's reversed code. -/
theorem huffFill_owned (tab : Nat → Nat) {rev l f : Nat} (tsize v : Nat) (short : rev < 2 ^ l) :
    huffFill tab rev (2 ^ l) tsize v f =
      if f < tsize ∧ f % 2 ^ l = rev then v else tab f := by
  -- A slot is reached by the strides exactly when its low bits are the code.
  have slots : (rev ≤ f ∧ f < tsize ∧ (f - rev) % 2 ^ l = 0) ↔ (f < tsize ∧ f % 2 ^ l = rev) := by
    constructor
    · rintro ⟨above, inside, stride⟩
      refine ⟨inside, ?_⟩
      -- The slot is the code plus a number of strides.
      have split : f = rev + 2 ^ l * ((f - rev) / 2 ^ l) := by
        have := Nat.div_add_mod (f - rev) (2 ^ l)
        omega
      rw [split, Nat.add_mul_mod_self_left, Nat.mod_eq_of_lt short]
    · rintro ⟨inside, low⟩
      refine ⟨low ▸ Nat.mod_le f (2 ^ l), inside, ?_⟩
      rw [← low]
      exact Nat.sub_mod_eq_zero_of_mod_eq (by rw [Nat.mod_mod])
  rw [huffFill]
  by_cases owned : f < tsize ∧ f % 2 ^ l = rev
  · rw [if_pos owned, if_pos (slots.mpr owned)]
  · rw [if_neg owned, if_neg fun slot => owned (slots.mp slot)]

/-- Filling in a symbol hands out its code. -/
theorem huffFillSymbol_agrees (code : PrefixLengths len) (tsize : Nat) {k : Nat}
    (within : k < huffSymbols) {s : HuffFilling} (agrees : NextAgrees len k s.next) :
    NextAgrees len (k + 1) (huffFillSymbol len tsize s k).next := by
  rw [huffFillSymbol]
  by_cases unused : len k = 0
  · -- Nothing is handed out to a symbol without a code.
    simp only [if_pos unused]
    exact fun b small => (agrees b small).trans (nextAfter_skip unused b).symm
  · simp only [if_neg unused]
    exact nextAgrees_step code within unused agrees

/-- The decoder's table: every slot of a symbol names the symbol and its length. -/
def TableOf (len : Nat → Nat) (m k : Nat) (s : HuffFilling) : Prop :=
  ∀ i < k, len i ≠ 0 → ∀ f < 2 ^ m, Owns huffSymbols len i f → s.sym f = i ∧ s.len f = len i

/-- Filling in one more symbol takes no slot away from an earlier one. -/
theorem huffFillSymbol_table (code : PrefixLengths len) {m : Nat} (longest : ∀ s, len s ≤ m)
    {k : Nat} (within : k < huffSymbols) {s : HuffFilling} (agrees : NextAgrees len k s.next)
    (table : TableOf len m k s) :
    NextAgrees len (k + 1) (huffFillSymbol len (2 ^ m) s k).next ∧
      TableOf len m (k + 1) (huffFillSymbol len (2 ^ m) s k) := by
  refine ⟨huffFillSymbol_agrees code (2 ^ m) within agrees, ?_⟩
  rw [huffFillSymbol]
  by_cases unused : len k = 0
  · -- A symbol without a code fills no slot.
    simp only [if_pos unused]
    intro i earlier some_len
    have other : i ≠ k := fun same => some_len (same ▸ unused)
    exact table i (by omega) some_len
  · simp only [if_neg unused]
    intro i earlier some_len f inside owned
    have rev : huffReverse (s.next (len k)) (len k) =
        reverseBits (canonicalCode huffSymbols len k) (len k) := by
      rw [huffReverse_eq _ (code.short k), agrees.code code]
    have short := reverseBits_lt (canonicalCode huffSymbols len k) (len k)
    simp only [rev, huffFill_owned _ _ _ short]
    -- The slot is the new symbol's, or it is not and keeps what it had.
    by_cases mine : f % 2 ^ len k = reverseBits (canonicalCode huffSymbols len k) (len k)
    · obtain rfl : i = k := owns_unique (code.room m longest) ⟨code.within i some_len, within⟩
        ⟨some_len, unused⟩ ⟨longest i, longest k⟩ owned mine
      simp only [if_pos (And.intro inside mine), and_self]
    · have other : i ≠ k := fun same => mine (same ▸ owned)
      simp only [if_neg fun both : f < 2 ^ m ∧ _ => mine both.2]
      exact table i (by omega) some_len f inside owned

/-- The whole table loop. -/
theorem huffFill_table (code : PrefixLengths len) {m : Nat} (longest : ∀ s, len s ≤ m) :
    TableOf len m huffSymbols ((List.range huffSymbols).foldl (huffFillSymbol len (2 ^ m))
      { next := huffNext (huffCount len), sym := fun _ => 0, len := fun _ => 0 }) := by
  -- The induction is on the symbols filled in.
  have filled : ∀ k ≤ huffSymbols,
      NextAgrees len k ((List.range k).foldl (huffFillSymbol len (2 ^ m))
        { next := huffNext (huffCount len), sym := fun _ => 0, len := fun _ => 0 }).next ∧
      TableOf len m k ((List.range k).foldl (huffFillSymbol len (2 ^ m))
        { next := huffNext (huffCount len), sym := fun _ => 0, len := fun _ => 0 }) := by
    intro k
    induction k with
    | zero => exact fun _ => ⟨nextAgrees_start code, fun i below => absurd below (by omega)⟩
    | succ k ih =>
      intro below
      obtain ⟨agrees, table⟩ := ih (Nat.le_of_succ_le below)
      rw [List.range_succ, List.foldl_append, List.foldl_cons, List.foldl_nil]
      exact huffFillSymbol_table code longest below agrees table
  exact (filled huffSymbols (Nat.le_refl _)).2

/-- The room left at a length is what the codes up to it have not taken. -/
theorem huffAvail_taken {m : Nat} (full : taken huffSymbols len m (m + 1) = 2 ^ m) {b : Nat}
    (small : b ≤ m) : ∃ avail, huffAvail (huffCount len) b = some avail ∧
      avail * 2 ^ (m - b) + taken huffSymbols len m (b + 1) = 2 ^ m := by
  -- The induction is on the length, which doubles the room left.
  induction b with
  | zero =>
    refine ⟨1, rfl, ?_⟩
    rw [taken_succ]
    simp [taken, lengthCount]
  | succ b ih =>
    obtain ⟨avail, found, rest⟩ := ih (Nat.le_of_succ_le small)
    have step := taken_succ huffSymbols len m (b + 1)
    have total : taken huffSymbols len m (b + 1 + 1) ≤ 2 ^ m := by
      rw [← full]
      exact taken_mono (Nat.succ_le_succ small) huffSymbols len m
    have half : 2 ^ (m - b) = 2 * 2 ^ (m - (b + 1)) := by
      rw [← Nat.pow_succ', ← Nat.succ_sub small, Nat.succ_sub_succ]
    rw [half, ← Nat.mul_assoc] at rest
    -- The codes of this length fit into twice the room left by the shorter ones.
    have fits : huffCount len (b + 1) ≤ avail * 2 := by
      refine Nat.le_of_mul_le_mul_right ?_ (Nat.two_pow_pos (m - (b + 1)))
      change lengthCount huffSymbols len (b + 1) * _ ≤ _
      omega
    refine ⟨avail * 2 - huffCount len (b + 1), ?_, ?_⟩
    · rw [huffAvail, found]
      exact if_neg (by omega)
    · rw [Nat.sub_mul]
      have := Nat.mul_le_mul_right (2 ^ (m - (b + 1))) fits
      change _ - lengthCount huffSymbols len (b + 1) * _ + _ = _
      change lengthCount huffSymbols len (b + 1) * _ ≤ _ at this
      omega

end Codes

/-- What an encoder's codes have to be for a decoder to be built from their lengths alone. -/
structure HuffEnc.Canonical (e : HuffEnc) (f : Nat → Nat) : Prop where
  lengths : PrefixLengths e.len
  code : ∀ s, e.len s ≠ 0 →
    e.code s = reverseBits (canonicalCode huffSymbols e.len s) (e.len s)
  used : ∀ s, e.len s ≠ 0 ↔ s < huffSymbols ∧ f s ≠ 0
  filled : (∃ s, huffUsed e.len = [s] ∧ e.len s = 1) ∨
    2 ≤ (huffUsed e.len).length ∧ Filling e.len

/-- The symbols with a code are the symbols with a frequency. -/
theorem huffUsed_congr {f g : Nat → Nat} (same : ∀ s < huffSymbols, f s ≠ 0 ↔ g s ≠ 0) :
    huffUsed f = huffUsed g :=
  List.filter_congr fun s member => by
    simpa using not_congr (same s (List.mem_range.mp member))

/-- Whatever the builder makes has the canonical codes of lengths the decoder accepts. -/
theorem huffBuild_canonical {f : Nat → Nat} {e : HuffEnc} (built : huffBuild f = some e) :
    e.Canonical f := by
  rw [huffBuild] at built
  -- Several symbols: the lengths of an attempt, and the codes that go with them.
  split at built
  next => cases built
  next s single =>
    -- One symbol: a single one-bit code.
    obtain rfl := Option.some.inj built
    have present : s < huffSymbols ∧ f s ≠ 0 := mem_huffUsed.mp (by simp [single])
    have used : ∀ i, Function.update (fun _ => 0) s 1 i ≠ 0 ↔ i < huffSymbols ∧ f i ≠ 0 := by
      intro i
      rw [← mem_huffUsed, single, List.mem_singleton]
      by_cases same : i = s <;> simp [same]
    refine ⟨prefixLengths_single present.1, fun i some_len => ?_, used,
      .inl ⟨s, ?_, Function.update_self s 1 (fun _ => 0)⟩⟩
    · change Function.update (fun _ => 0) s 1 i ≠ 0 at some_len
      obtain rfl : i = s := by
        by_contra other
        exact some_len (Function.update_of_ne other _ _)
      have rank : lengthCount i (Function.update (fun _ => 0) i 1) 1 = 0 := by
        rw [lengthCount, if_neg one_ne_zero, List.length_eq_zero_iff, List.filter_eq_nil_iff]
        intro j member
        have other : j ≠ i := Nat.ne_of_lt (List.mem_range.mp member)
        simp [Function.update_of_ne other]
      dsimp only
      rw [canonicalCode, Function.update_self, rank]
      simp [firstCode, lengthCount, reverseBits]
    · rw [← single]
      exact huffUsed_congr fun i below => by rw [used]; simp [below]
  next node none_used one_used =>
    split at built
    next => cases built
    next len maxLen made =>
      split at built
      next => cases built
      next =>
        obtain rfl := Option.some.inj built
        have several := two_le_huffUsed none_used one_used
        obtain ⟨filling, used⟩ := huffAttempts_filling several made
        refine ⟨filling.prefixLengths, fun s some_len => huffCodes_eq filling.prefixLengths some_len,
          used, .inr ⟨?_, filling⟩⟩
        have same : huffUsed len = huffUsed f :=
          huffUsed_congr fun s below => by rw [used]; simp [below]
        exact same ▸ several

/-- Four bits hold a length: the two halves of a table byte are what was put in. -/
theorem nibbles (low high : Fin 16) :
    (UInt8.ofNat (low.1 ||| high.1 <<< 4) &&& 0x0F).toNat = low.1 ∧
      (UInt8.ofNat (low.1 ||| high.1 <<< 4) >>> 4).toNat = high.1 := by
  -- All pairs of halves are checked.
  revert low high
  decide +kernel

@[simp] theorem huffStore_length (e : HuffEnc) : (huffStore e).length = huffTableBytes := by
  simp [huffStore]

/-- The stored table holds every length. -/
theorem huffTableLen_store {e : HuffEnc} (code : PrefixLengths e.len) :
    huffTableLen (huffStore e) = e.len := by
  funext s
  have small : ∀ i, e.len i < 16 := fun i => Nat.lt_succ_of_le (code.short i)
  by_cases within : s < huffSymbols
  · have entry : ld8 (huffStore e) (s / 2) =
        UInt8.ofNat (e.len (2 * (s / 2)) ||| e.len (2 * (s / 2) + 1) <<< 4) := by
      have inside : s / 2 < huffTableBytes := by
        have : huffSymbols = 256 := rfl
        have : huffTableBytes = 128 := rfl
        omega
      simp [ld8, huffStore, List.getD_eq_getElem?_getD, List.getElem?_range inside]
    obtain ⟨low, high⟩ := nibbles ⟨_, small (2 * (s / 2))⟩ ⟨_, small (2 * (s / 2) + 1)⟩
    rw [huffTableLen, entry]
    -- An even symbol sits in the low half of its byte, an odd one in the high half.
    by_cases even : s % 2 = 0
    · rw [if_pos even, low]
      exact congrArg e.len (by omega)
    · rw [if_neg even, high]
      exact congrArg e.len (by omega)
  · -- Behind the table every length reads as zero, and is zero.
    have outside : ld8 (huffStore e) (s / 2) = 0 := by
      have : huffSymbols = 256 := rfl
      have : huffTableBytes = 128 := rfl
      rw [ld8, List.getD_eq_default]
      rw [huffStore_length]
      omega
    have unused : e.len s = 0 := Classical.not_not.mp fun used => within (code.within s used)
    simp [huffTableLen, outside, unused]

/-- The running maximum bounds every length seen, and is one of them or zero. -/
theorem foldl_max (len : Nat → Nat) (n : Nat) :
    (∀ i < n, len i ≤ (List.range n).foldl (fun m i => max m (len i)) 0) ∧
      ((List.range n).foldl (fun m i => max m (len i)) 0 = 0 ∨
        ∃ i < n, (List.range n).foldl (fun m i => max m (len i)) 0 = len i) := by
  -- The induction is on the symbols looked at.
  induction n with
  | zero => exact ⟨fun i below => absurd below (by omega), .inl rfl⟩
  | succ n ih =>
    rw [List.range_succ, List.foldl_append, List.foldl_cons, List.foldl_nil]
    obtain ⟨above, attained⟩ := ih
    refine ⟨fun i below => ?_, ?_⟩
    · rcases Nat.lt_succ_iff_lt_or_eq.mp below with earlier | rfl
      · exact Nat.le_trans (above i earlier) (Nat.le_max_left _ _)
      · exact Nat.le_max_right _ _
    · rcases Nat.le_total ((List.range n).foldl (fun m i => max m (len i)) 0) (len n) with less | more
      · exact .inr ⟨n, Nat.lt_succ_self n, Nat.max_eq_right less⟩
      · rw [Nat.max_eq_left more]
        exact attained.imp id fun found => found.imp fun _ here => ⟨Nat.lt_succ_of_lt here.1, here.2⟩

/-- A decoder that finds a symbol by the low bits of any slot which start with its code. -/
structure HuffDec.Inverts (d : HuffDec) (e : HuffEnc) : Prop where
  longest : ∀ s, e.len s ≤ d.maxLen
  short : d.maxLen ≤ huffMaxBits
  finds : ∀ s, e.len s ≠ 0 → ∀ f < 2 ^ d.maxLen, f % 2 ^ e.len s = e.code s →
    d.sym f = s ∧ d.len f = e.len s

end Xq
