import Xq.Codec.Lzb

/-! The match finder's context over calls of `cctx_prepare` any of whose allocations may fail: the
hash table is always sound, and the chain array is when it was not lost in an earlier call. -/

namespace Xq

/-- How many 32-bit entries an allocation of `n * sizeof` has room for: the product is a `size_t`. -/
def chainRoom (n : Nat) : Nat := n * 4 % 2 ^ 64 / 4

/-- What a call of size `n` that returns 1 promises its caller. -/
structure LzbCctx.Prepared (c : LzbCctx) (n : Nat) : Prop where
  head : ∃ a, c.head = some a ∧ a.size = 2 ^ c.hlog ∧ ∀ i < a.size, a.data i = 0
  chain : ∃ a, c.chain = some a ∧ n ≤ chainRoom a.size

/-- The context after calls with these sizes. -/
def prepareCalls (c : LzbCctx) (sizes : List Nat) : LzbCctx :=
  sizes.foldl (fun c n => (cctxPrepare c n).2) c

/-- The arrays that are there have the sizes the context has recorded; the capacity of a chain array
may outlive it. -/
structure LzbCctx.Recorded (c : LzbCctx) : Prop where
  head : ∀ a ∈ c.head, a.size = 2 ^ c.hlog
  chain : ∀ a ∈ c.chain, a.size = c.chainCap

section Steps

variable {c : LzbCctx} {n : Nat}

/-- Preparing the hash table leaves the chain array alone, and succeeds only with a table. -/
theorem cctxPrepareHead_recorded (recorded : c.Recorded) (n : Nat) :
    (cctxPrepareHead c n).2.Recorded ∧ (cctxPrepareHead c n).2.chain = c.chain ∧
      (cctxPrepareHead c n).2.chainCap = c.chainCap ∧
      ((cctxPrepareHead c n).1 = true → (cctxPrepareHead c n).2.head.isSome) := by
  -- The two branches of the source: a table of another size is replaced, one of this size is kept.
  rw [cctxPrepareHead]
  by_cases fresh : c.head.isNone ∨ c.hlog ≠ hlogFor n
  · rw [if_pos fresh]
    rcases c.heap.malloc with ⟨_ | junk, heap⟩
    · -- The allocator refuses, and there is no table.
      exact ⟨⟨fun _ there => (by cases there), recorded.chain⟩, rfl, rfl, fun failed => by cases failed⟩
    · refine ⟨⟨fun a there => ?_, recorded.chain⟩, rfl, rfl, fun _ => rfl⟩
      obtain rfl := Option.some.inj there
      rfl
  · rw [if_neg fresh]
    refine ⟨recorded, rfl, rfl, fun _ => ?_⟩
    exact Option.isSome_iff_ne_none.mpr (mt Option.isNone_iff_eq_none.mpr (not_or.mp fresh).1)

/-- Preparing the chain array leaves the hash table alone. When it succeeds, the array is as large as
the input or as the capacity that was recorded, and it is there unless it was missing with such a
capacity on record. -/
theorem cctxPrepareChain_recorded (recorded : c.Recorded) (n : Nat) :
    (cctxPrepareChain c n).2.Recorded ∧ (cctxPrepareChain c n).2.head = c.head ∧
      (cctxPrepareChain c n).2.hlog = c.hlog ∧
      ((cctxPrepareChain c n).1 = true →
        (cctxPrepareChain c n).2.chainCap = max n c.chainCap ∧
        ((cctxPrepareChain c n).2.chain.isSome ↔ c.chain.isSome ∨ c.chainCap < n)) := by
  -- As for the table, but here the capacity is set before the allocator has answered.
  rw [cctxPrepareChain]
  by_cases small : c.chainCap < n
  · rw [if_pos small]
    rcases c.heap.malloc with ⟨_ | junk, heap⟩
    · -- The allocator refuses, and the array is gone.
      exact ⟨⟨recorded.head, fun _ there => by cases there⟩, rfl, rfl, fun failed => by cases failed⟩
    · refine ⟨⟨recorded.head, fun a there => ?_⟩, rfl, rfl, fun _ => ⟨?_, ?_⟩⟩
      · obtain rfl := Option.some.inj there
        rfl
      · exact (Nat.max_eq_left small.le).symm
      · exact iff_of_true rfl (.inr small)
  · rw [if_neg small]
    refine ⟨recorded, rfl, rfl, fun _ => ⟨?_, ?_⟩⟩
    · exact (Nat.max_eq_right (Nat.not_lt.mp small)).symm
    · exact (or_iff_left small).symm

/-- A call keeps the record. When it returns 1 it has cleared a hash table of the recorded size, and
the chain array is there unless it was missing with enough capacity on record. -/
theorem cctxPrepare_recorded (recorded : c.Recorded) (n : Nat) :
    (cctxPrepare c n).2.Recorded ∧ ((cctxPrepare c n).1 = true →
      (∃ a, (cctxPrepare c n).2.head = some a ∧ a.size = 2 ^ (cctxPrepare c n).2.hlog ∧
        ∀ i < a.size, a.data i = 0) ∧
      (cctxPrepare c n).2.chainCap = max n c.chainCap ∧
      ((cctxPrepare c n).2.chain.isSome ↔ c.chain.isSome ∨ c.chainCap < n)) := by
  -- The two halves one after the other; the second is not tried when the first has failed.
  obtain ⟨recorded₁, chain₁, cap₁, table⟩ := cctxPrepareHead_recorded recorded n
  rw [cctxPrepare]
  generalize cctxPrepareHead c n = first at recorded₁ chain₁ cap₁ table
  obtain ⟨done, c₁⟩ := first
  cases done with
  | false => exact ⟨recorded₁, fun failed => by cases failed⟩
  | true =>
    obtain ⟨recorded₂, head₂, hlog₂, grown⟩ := cctxPrepareChain_recorded recorded₁ n
    dsimp only
    generalize cctxPrepareChain c₁ n = second at recorded₂ head₂ hlog₂ grown
    obtain ⟨done, c₂⟩ := second
    cases done with
    | false => exact ⟨recorded₂, fun failed => by cases failed⟩
    | true =>
      -- Both have succeeded, and the table is cleared.
      obtain ⟨capacity, there⟩ := grown rfl
      dsimp only at head₂ capacity there chain₁ cap₁ table
      refine ⟨⟨fun a member => ?_, recorded₂.chain⟩, fun _ => ⟨?_, ?_, ?_⟩⟩
      · obtain ⟨b, inside, rfl⟩ := Option.map_eq_some_iff.mp member
        exact recorded₂.head b inside
      · obtain ⟨b, inside⟩ := Option.isSome_iff_exists.mp (table rfl)
        rw [← head₂] at inside
        have size : b.size = 2 ^ c₂.hlog := recorded₂.head b inside
        dsimp only
        rw [inside]
        refine ⟨_, rfl, size, fun i below => ?_⟩
        have below : i < b.size := below
        exact if_pos (size ▸ below)
      · rw [capacity, cap₁]
      · rw [there, chain₁, cap₁]

/-- What one call keeps, any sequence of calls keeps. -/
theorem prepareCalls_recorded (recorded : c.Recorded) (sizes : List Nat) :
    (prepareCalls c sizes).Recorded := by
  -- The induction is on the calls.
  induction sizes generalizing c with
  | nil => exact recorded
  | cons n rest ih => exact ih (cctxPrepare_recorded recorded n).1

end Steps

/-- A new context has nothing on record. -/
theorem lzbCctxNew_recorded (heap : Heap) : (lzbCctxNew heap).Recorded :=
  ⟨fun _ there => (by cases there), fun _ there => (by cases there)⟩

/-- Over any calls and any failures in them: a call that returns 1 has kept its promise if and only
if it found a chain array or had to allocate one, and the byte count of that array did not wrap to
less than it needs. -/
theorem cctxPrepare_prepared_iff (heap : Heap) (earlier : List Nat) (n : Nat)
    (returned : (cctxPrepare (prepareCalls (lzbCctxNew heap) earlier) n).1 = true) :
    (cctxPrepare (prepareCalls (lzbCctxNew heap) earlier) n).2.Prepared n ↔
      ((prepareCalls (lzbCctxNew heap) earlier).chain.isSome ∨
        (prepareCalls (lzbCctxNew heap) earlier).chainCap < n) ∧
      n ≤ chainRoom (max n (prepareCalls (lzbCctxNew heap) earlier).chainCap) := by
  -- The state before the call is one that calls lead to, so its arrays are as large as recorded.
  have recorded := prepareCalls_recorded (lzbCctxNew_recorded heap) earlier
  generalize prepareCalls (lzbCctxNew heap) earlier = c at recorded returned
  obtain ⟨recorded', success⟩ := cctxPrepare_recorded recorded n
  obtain ⟨head, capacity, there⟩ := success returned
  rw [← there, ← capacity]
  constructor
  · -- A promise kept shows an array, and that it is large enough.
    intro prepared
    obtain ⟨a, inside, room⟩ := prepared.chain
    rw [recorded'.chain a inside] at room
    exact ⟨inside ▸ rfl, room⟩
  · -- An array that is there has the recorded size.
    rintro ⟨some_chain, room⟩
    obtain ⟨a, inside⟩ := Option.isSome_iff_exists.mp some_chain
    refine ⟨head, a, inside, ?_⟩
    rwa [recorded'.chain a inside]

/-- An allocator that refuses its third request. -/
def thirdRefused : Heap := { grants := fun k => k ≠ 2, junk := fun _ _ => 0, next := 0 }

/-- When the chain array cannot grow for twenty bytes, a call for ten returns 1 without one. -/
theorem cctxPrepare_unprepared :
    ¬ ∀ (heap : Heap) (earlier : List Nat) (n : Nat),
      (cctxPrepare (prepareCalls (lzbCctxNew heap) earlier) n).1 = true →
        (cctxPrepare (prepareCalls (lzbCctxNew heap) earlier) n).2.Prepared n := by
  -- The third allocation is the larger chain array, and the next call does not ask for one.
  intro all
  have returned : (cctxPrepare (prepareCalls (lzbCctxNew thirdRefused) [10, 20]) 10).1 = true := by
    decide +kernel
  obtain ⟨a, inside, _⟩ := (all thirdRefused [10, 20] 10 returned).chain
  have missing :
      (cctxPrepare (prepareCalls (lzbCctxNew thirdRefused) [10, 20]) 10).2.chain.isNone = true := by
    decide +kernel
  rw [inside] at missing
  cases missing

/-- The equivalence on a new context whose first call is granted all it asks for. -/
theorem cctxPrepare_prepared_iff_first :
    (cctxPrepare (prepareCalls (lzbCctxNew thirdRefused) []) 10).2.Prepared 10 ↔
      ((prepareCalls (lzbCctxNew thirdRefused) []).chain.isSome ∨
        (prepareCalls (lzbCctxNew thirdRefused) []).chainCap < 10) ∧
      10 ≤ chainRoom (max 10 (prepareCalls (lzbCctxNew thirdRefused) []).chainCap) :=
  cctxPrepare_prepared_iff thirdRefused [] 10 (by decide +kernel)

end Xq
