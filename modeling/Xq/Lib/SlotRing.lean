import Mathlib.Data.Int.ModEq
import Mathlib.Data.List.Forall2
import Mathlib.Logic.Function.Basic
import Mathlib.Tactic.Linarith

/-! A ring of slots between one producer and several workers: inputs are submitted in order, each
of them is claimed, worked on and stored by one worker, and outputs are released in order. -/

namespace Xq.Lib

structure RingSlot (β ω : Type) where
  input : β
  output : ω
  done : Bool

/-- Three counters over the slots of a ring; `held` says which submission a worker has claimed, and
whether it has made the output. -/
structure SlotRing (β ω ι : Type) where
  size : Nat
  slots : Nat → RingSlot β ω
  fill : Nat
  work : Nat
  emit : Nat
  held : ι → Option (Nat × Bool)

namespace SlotRing

variable {β ω ι : Type}

/-- The slot of a submission. -/
def slot (r : SlotRing β ω ι) (seq : Nat) : RingSlot β ω := r.slots (seq % r.size)

/-- The slot of a submission is written. -/
def put (r : SlotRing β ω ι) (seq : Nat) (s : RingSlot β ω) : SlotRing β ω ι :=
  { r with slots := Function.update r.slots (seq % r.size) s }

/-- What a worker holds is changed. -/
def hold [DecidableEq ι] (r : SlotRing β ω ι) (i : ι) (claim : Option (Nat × Bool)) :
    SlotRing β ω ι :=
  { r with held := Function.update r.held i claim }

/-- The ring has taken `inputs` and released `outputs`; `Made` is what working on an input may
make of it. -/
structure Inv (Made : β → ω → Prop) (r : SlotRing β ω ι) (inputs : List β)
    (outputs : List ω) : Prop where
  taken : inputs.length = r.fill
  emit_le : r.emit ≤ r.work
  work_le : r.work ≤ r.fill
  room : r.fill ≤ r.emit + r.size
  input : ∀ seq, r.emit ≤ seq → seq < r.fill → inputs[seq]? = some (r.slot seq).input
  holding : ∀ i seq made, r.held i = some (seq, made) →
    r.emit ≤ seq ∧ seq < r.work ∧ (r.slot seq).done = false ∧
      (made = true → Made (r.slot seq).input (r.slot seq).output)
  alone : ∀ i j seq made made', r.held i = some (seq, made) → r.held j = some (seq, made') → i = j
  claimed : ∀ seq, r.emit ≤ seq → seq < r.work → (r.slot seq).done = false →
    ∃ i made, r.held i = some (seq, made)
  stored : ∀ seq, r.emit ≤ seq → seq < r.fill → (r.slot seq).done = true →
    seq < r.work ∧ Made (r.slot seq).input (r.slot seq).output
  released : List.Forall₂ Made (inputs.take r.emit) outputs

/-- Two live submissions never share a slot. -/
theorem slot_ne {n a b : Nat} (emit : Nat) (first : emit ≤ a) (last : a < emit + n)
    (first' : emit ≤ b) (last' : b < emit + n) (differ : a ≠ b) : a % n ≠ b % n := by
  intro same
  -- Equal remainders put a whole number of rings between the two.
  obtain ⟨k, distance⟩ : (n : Int) ∣ (b : Int) - a :=
    Nat.modEq_iff_dvd.mp (show a ≡ b [MOD n] from same)
  have small : -(n : Int) < n * k ∧ (n : Int) * k < n := by omega
  have positive : (0 : Int) < n := by omega
  have none : k = 0 := by
    have below : k < 1 := by nlinarith
    have above : -1 < k := by nlinarith
    omega
  rw [none, mul_zero] at distance
  omega

section Slots

variable {r : SlotRing β ω ι}

/-- Writing one live slot leaves the others alone. -/
theorem slot_put {seq : Nat} (s : RingSlot β ω) (live : r.emit ≤ seq)
    (inside : seq < r.emit + r.size) {other : Nat} (live' : r.emit ≤ other)
    (inside' : other < r.emit + r.size) :
    (r.put seq s).slot other = if other = seq then s else r.slot other := by
  -- Two live numbers are less than a round apart, so they have different slots.
  show Function.update r.slots (seq % r.size) s (other % r.size) = _
  by_cases same : other = seq
  · rw [if_pos same, same, Function.update_self]
  · rw [if_neg same, Function.update_of_ne (slot_ne _ live' inside' live inside same)]
    rfl

end Slots

section Steps

variable {Made : β → ω → Prop} {r : SlotRing β ω ι} {inputs : List β} {outputs : List ω}

/-- The slot behind the last submission may be written at will. -/
theorem Inv.scribble (inv : r.Inv Made inputs outputs) (room : r.fill < r.emit + r.size)
    (s : RingSlot β ω) : (r.put r.fill s).Inv Made inputs outputs := by
  -- No number that the invariant speaks of has that slot.
  have emit_le := inv.emit_le
  have work_le := inv.work_le
  have same (seq : Nat) (live : r.emit ≤ seq) (there : seq < r.fill) :
      (r.put r.fill s).slot seq = r.slot seq := by
    rw [slot_put s (by omega) room live (by omega), if_neg (by omega)]
  refine ⟨inv.taken, emit_le, work_le, inv.room, fun seq live there => ?_,
    fun i seq made held => ?_, inv.alone, fun seq live there => ?_, fun seq live there => ?_,
    inv.released⟩
  · rw [same seq live there]
    exact inv.input seq live there
  · obtain ⟨live, there, rest⟩ := inv.holding i seq made held
    rw [same seq live (there.trans_le work_le)]
    exact ⟨live, there, rest⟩
  · rw [same seq live (Nat.lt_of_lt_of_le there work_le)]
    exact inv.claimed seq live there
  · rw [same seq live there]
    exact inv.stored seq live there

/-- The producer submits the input it has put into the next slot. -/
theorem Inv.submit (inv : r.Inv Made inputs outputs) (room : r.fill < r.emit + r.size)
    {s : RingSlot β ω} (fresh : s.done = false) :
    Inv Made { r.put r.fill s with fill := r.fill + 1 } (inputs ++ [s.input]) outputs := by
  -- The number submitted is new; for all others the slot and the input are as before.
  have emit_le := inv.emit_le
  have work_le := inv.work_le
  have taken := inv.taken
  have slots (seq : Nat) (live : r.emit ≤ seq) (there : seq < r.fill + 1) :
      SlotRing.slot { r.put r.fill s with fill := r.fill + 1 } seq =
        if seq = r.fill then s else r.slot seq :=
    slot_put s (by omega) room live (by omega)
  refine ⟨?_, emit_le, work_le.trans (Nat.le_succ _), room, fun seq live there => ?_,
    fun i seq made held => ?_, inv.alone, fun seq live there => ?_, fun seq live there => ?_, ?_⟩
  · -- One more input, and one more number.
    rw [List.length_append, List.length_singleton, taken]
  · rw [slots seq live there]
    by_cases new : seq = r.fill
    · -- The new number stands for the new input.
      rw [if_pos new, new, ← taken, List.getElem?_concat_length]
    · have before : seq < r.fill := by
        have : seq < r.fill + 1 := there
        omega
      rw [if_neg new, List.getElem?_append_left (by omega)]
      exact inv.input seq live before
  · obtain ⟨live, there, rest⟩ := inv.holding i seq made held
    rw [slots seq live (by omega), if_neg (by omega)]
    exact ⟨live, there, rest⟩
  · have before : seq < r.work := there
    rw [slots seq live (by omega), if_neg (by omega)]
    exact inv.claimed seq live before
  · rw [slots seq live there]
    by_cases new : seq = r.fill
    · -- Nothing has been made of the new input.
      rw [if_pos new, fresh]
      exact fun wrong => by cases wrong
    · have before : seq < r.fill := by
        have : seq < r.fill + 1 := there
        omega
      rw [if_neg new]
      exact inv.stored seq live before
  · show List.Forall₂ Made ((inputs ++ [s.input]).take r.emit) outputs
    rw [List.take_append_of_le_length (by omega)]
    exact inv.released

/-- The output at the front is released, and its slot is free again. -/
theorem Inv.release (inv : r.Inv Made inputs outputs) (some_left : r.emit < r.fill)
    (done : (r.slot r.emit).done = true) (s : RingSlot β ω) :
    Inv Made { r.put r.emit s with emit := r.emit + 1 } inputs
      (outputs ++ [(r.slot r.emit).output]) := by
  -- The front is done, so it has been claimed, and what stands in its slot was made of its input.
  have room := inv.room
  have work_le := inv.work_le
  obtain ⟨claimed, made⟩ := inv.stored r.emit le_rfl some_left done
  have same (seq : Nat) (live : r.emit + 1 ≤ seq) (there : seq < r.fill) :
      SlotRing.slot { r.put r.emit s with emit := r.emit + 1 } seq = r.slot seq := by
    have kept := slot_put (r := r) s le_rfl (by omega) (show r.emit ≤ seq by omega) (by omega)
    rw [if_neg (by omega)] at kept
    exact kept
  refine ⟨inv.taken, claimed, work_le, ?_, fun seq live there => ?_, fun i seq made held => ?_,
    inv.alone, fun seq live there => ?_, fun seq live there => ?_, ?_⟩
  · show r.fill ≤ r.emit + 1 + r.size
    omega
  · rw [same seq live there]
    exact inv.input seq (Nat.le_of_succ_le live) there
  · obtain ⟨live, there, idle, rest⟩ := inv.holding i seq made held
    -- Nobody holds a submission that is done.
    have other : seq ≠ r.emit := by
      rintro rfl
      rw [done] at idle
      cases idle
    have later : r.emit + 1 ≤ seq := by omega
    rw [same seq later (by omega)]
    exact ⟨later, there, idle, rest⟩
  · rw [same seq live (Nat.lt_of_lt_of_le there work_le)]
    exact inv.claimed seq (Nat.le_of_succ_le live) there
  · rw [same seq live there]
    exact inv.stored seq (Nat.le_of_succ_le live) there
  · -- The front's output joins those released, in its place.
    have front := inv.input r.emit le_rfl some_left
    show List.Forall₂ Made (inputs.take (r.emit + 1)) _
    rw [List.take_add_one, front]
    exact List.rel_append inv.released (.cons made .nil)

/-- While the front is not done, it is still to be claimed, or a worker holds it. -/
theorem Inv.progress (inv : r.Inv Made inputs outputs) (idle : (r.slot r.emit).done = false) :
    r.work = r.emit ∨ ∃ i made, r.held i = some (r.emit, made) := by
  -- The front has either been claimed or not.
  rcases Nat.eq_or_lt_of_le inv.emit_le with unclaimed | claimed
  · exact .inl unclaimed.symm
  · exact .inr (inv.claimed r.emit le_rfl claimed idle)

variable [DecidableEq ι]

/-- A worker claims the next submission. -/
theorem Inv.claim (inv : r.Inv Made inputs outputs) (some_work : r.work < r.fill) {i : ι}
    (free : r.held i = none) :
    Inv Made { r.hold i (some (r.work, false)) with work := r.work + 1 } inputs outputs := by
  -- The next submission is not done, since only claimed ones are.
  have emit_le := inv.emit_le
  have idle : (r.slot r.work).done = false := by
    by_contra done
    have early := inv.stored r.work emit_le some_work (by simpa using done)
    exact Nat.lt_irrefl _ early.1
  refine ⟨inv.taken, emit_le.trans (Nat.le_succ _), some_work, inv.room, inv.input,
    fun j seq made held => ?_, fun j k seq made made' held held' => ?_, fun seq live there => ?_,
    fun seq live there done => ?_, inv.released⟩
  · simp only [hold, Function.update_apply] at held
    by_cases own : j = i
    · -- The worker holds the number it has just claimed.
      rw [if_pos own] at held
      cases held
      exact ⟨emit_le, Nat.lt_succ_self _, idle, fun wrong => by cases wrong⟩
    · rw [if_neg own] at held
      obtain ⟨live, there, rest⟩ := inv.holding j seq made held
      exact ⟨live, Nat.lt_succ_of_lt there, rest⟩
  · -- The claimed number was nobody's before.
    have before {k : ι} {made : Bool} (held : r.held k = some (r.work, made)) : False :=
      Nat.lt_irrefl _ (inv.holding k r.work made held).2.1
    simp only [hold, Function.update_apply] at held held'
    by_cases own : j = i
    · by_cases own' : k = i
      · rw [own, own']
      · rw [if_pos own] at held
        rw [if_neg own'] at held'
        cases held
        exact (before held').elim
    · by_cases own' : k = i
      · rw [if_neg own] at held
        rw [if_pos own'] at held'
        cases held'
        exact (before held).elim
      · rw [if_neg own] at held
        rw [if_neg own'] at held'
        exact inv.alone j k seq made made' held held'
  · intro waits
    simp only [hold, Function.update_apply]
    rcases Nat.lt_succ_iff_lt_or_eq.mp there with early | rfl
    · -- A number claimed before has the holder it had.
      obtain ⟨j, made, held⟩ := inv.claimed seq live early waits
      have other : j ≠ i := by
        rintro rfl
        rw [free] at held
        cases held
      exact ⟨j, made, by rw [if_neg other, held]⟩
    · -- The new one is held by this worker.
      exact ⟨i, false, by rw [if_pos rfl]⟩
  · obtain ⟨early, made⟩ := inv.stored seq live there done
    exact ⟨Nat.lt_succ_of_lt early, made⟩

/-- A worker makes the output of the submission it has claimed. -/
theorem Inv.make (inv : r.Inv Made inputs outputs) {i : ι} {seq : Nat}
    (held : r.held i = some (seq, false)) {output : ω} (made : Made (r.slot seq).input output) :
    Inv Made ((r.put seq { r.slot seq with output := output }).hold i (some (seq, true))) inputs
      outputs := by
  -- The slot of the claim gets an output, and nothing else of it changes.
  obtain ⟨live, there, idle, _⟩ := inv.holding i seq false held
  have work_le := inv.work_le
  have room := inv.room
  have slots (other : Nat) (live' : r.emit ≤ other) (there' : other < r.fill) :
      SlotRing.slot ((r.put seq { r.slot seq with output := output }).hold i (some (seq, true)))
        other = if other = seq then { r.slot seq with output := output } else r.slot other :=
    slot_put _ live (by omega) live' (by omega)
  -- A worker holds what it held before, and only this one has made more of it.
  have before {j : ι} {seq' : Nat} {made' : Bool}
      (held' : Function.update r.held i (some (seq, true)) j = some (seq', made')) :
      ∃ made₀, r.held j = some (seq', made₀) ∧ (j ≠ i → made₀ = made') ∧ (j = i ↔ seq' = seq) := by
    simp only [Function.update_apply] at held'
    by_cases own : j = i
    · rw [if_pos own] at held'
      cases held'
      exact ⟨false, own ▸ held, fun other => (other own).elim, iff_of_true own rfl⟩
    · rw [if_neg own] at held'
      refine ⟨made', held', fun _ => rfl, iff_of_false own ?_⟩
      rintro rfl
      exact own (inv.alone j i seq' _ _ held' held)
  refine ⟨inv.taken, inv.emit_le, work_le, room, fun seq' live' there' => ?_,
    fun j seq' made' held' => ?_, fun j k seq' made₁ made₂ held₁ held₂ => ?_,
    fun seq' live' there' => ?_, fun seq' live' there' => ?_, inv.released⟩
  · -- The inputs are where they were.
    rw [slots seq' live' there', inv.input seq' live' there']
    split
    · rename_i same
      rw [same]
    · rfl
  · -- What a worker has made is an output of its input.
    obtain ⟨made₀, held₀, kept, own⟩ := before held'
    obtain ⟨live', there', idle', made_before⟩ := inv.holding j seq' made₀ held₀
    rw [slots seq' live' (by omega)]
    refine ⟨live', there', ?_⟩
    by_cases same : seq' = seq
    · rw [if_pos same]
      exact ⟨idle, fun _ => made⟩
    · rw [if_neg same, ← kept fun mine => same (own.mp mine)]
      exact ⟨idle', made_before⟩
  · obtain ⟨_, before₁, _⟩ := before held₁
    obtain ⟨_, before₂, _⟩ := before held₂
    exact inv.alone j k seq' _ _ before₁ before₂
  · -- A number that is not done still has its holder.
    have there'' : seq' < r.work := there'
    rw [slots seq' live' (by omega)]
    intro waits
    by_cases same : seq' = seq
    · exact ⟨i, true, by rw [same]; exact Function.update_self _ _ _⟩
    · rw [if_neg same] at waits
      obtain ⟨j, made', held'⟩ := inv.claimed seq' live' there'' waits
      have other : j ≠ i := by
        rintro rfl
        rw [held] at held'
        cases held'
        exact same rfl
      exact ⟨j, made', (Function.update_of_ne other _ _).trans held'⟩
  · -- The slot is not marked done yet.
    rw [slots seq' live' there']
    by_cases same : seq' = seq
    · rw [if_pos same]
      intro wrong
      exact absurd (idle.symm.trans wrong) (by decide)
    · rw [if_neg same]
      exact inv.stored seq' live' there'

/-- A worker stores the output it has made, and holds nothing any more. -/
theorem Inv.store (inv : r.Inv Made inputs outputs) {i : ι} {seq : Nat}
    (held : r.held i = some (seq, true)) :
    Inv Made ((r.put seq { r.slot seq with done := true }).hold i none) inputs outputs := by
  -- The slot of the claim is marked done, and nothing else of it changes.
  obtain ⟨live, there, idle, made⟩ := inv.holding i seq true held
  have work_le := inv.work_le
  have room := inv.room
  have slots (other : Nat) (live' : r.emit ≤ other) (there' : other < r.fill) :
      SlotRing.slot ((r.put seq { r.slot seq with done := true }).hold i none) other =
        if other = seq then { r.slot seq with done := true } else r.slot other :=
    slot_put _ live (by omega) live' (by omega)
  -- The others hold what they held, and none of them this submission.
  have others {j : ι} {seq' : Nat} {made' : Bool}
      (held' : Function.update r.held i none j = some (seq', made')) :
      r.held j = some (seq', made') ∧ seq' ≠ seq := by
    simp only [Function.update_apply] at held'
    by_cases own : j = i
    · rw [if_pos own] at held'
      cases held'
    · rw [if_neg own] at held'
      refine ⟨held', ?_⟩
      rintro rfl
      exact own (inv.alone j i seq' _ _ held' held)
  refine ⟨inv.taken, inv.emit_le, work_le, room, fun seq' live' there' => ?_,
    fun j seq' made' held' => ?_, fun j k seq' made₁ made₂ held₁ held₂ => ?_,
    fun seq' live' there' => ?_, fun seq' live' there' => ?_, inv.released⟩
  · -- The inputs are where they were.
    rw [slots seq' live' there', inv.input seq' live' there']
    split
    · rename_i same
      rw [same]
    · rfl
  · -- The other workers' slots are untouched.
    obtain ⟨held₀, other⟩ := others held'
    obtain ⟨live', there', rest⟩ := inv.holding j seq' made' held₀
    rw [slots seq' live' (by omega), if_neg other]
    exact ⟨live', there', rest⟩
  · exact inv.alone j k seq' _ _ (others held₁).1 (others held₂).1
  · -- The number stored is done, and needs no holder.
    have there'' : seq' < r.work := there'
    rw [slots seq' live' (by omega)]
    by_cases same : seq' = seq
    · rw [if_pos same]
      exact fun wrong => by cases wrong
    · rw [if_neg same]
      intro waits
      obtain ⟨j, made', held'⟩ := inv.claimed seq' live' there'' waits
      have other : j ≠ i := by
        rintro rfl
        rw [held] at held'
        cases held'
        exact same rfl
      exact ⟨j, made', (Function.update_of_ne other _ _).trans held'⟩
  · rw [slots seq' live' there']
    by_cases same : seq' = seq
    · -- What the worker had made is now the number's output.
      rw [if_pos same, same]
      exact fun _ => ⟨there, made rfl⟩
    · rw [if_neg same]
      exact inv.stored seq' live' there'

end Steps

/-- An empty ring. -/
def start (size : Nat) (slots : Nat → RingSlot β ω) : SlotRing β ω ι :=
  { size := size, slots := slots, fill := 0, work := 0, emit := 0, held := fun _ => none }

theorem Inv.start {Made : β → ω → Prop} (size : Nat) (slots : Nat → RingSlot β ω) :
    (SlotRing.start size slots : SlotRing β ω ι).Inv Made [] [] :=
  ⟨rfl, le_rfl, le_rfl, Nat.zero_le _, fun _ _ there => absurd there (Nat.not_lt_zero _),
    fun _ _ _ held => (by cases held), fun _ _ _ _ _ held => (by cases held),
    fun _ _ there => absurd there (Nat.not_lt_zero _),
    fun _ _ there => absurd there (Nat.not_lt_zero _), .nil⟩

end SlotRing

end Xq.Lib
