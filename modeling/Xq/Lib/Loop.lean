import Mathlib.Logic.Basic

/-! Loops whose body goes round again or returns: which runs end, and within how many rounds. -/

namespace Xq.Lib

/-- What one round of a loop comes to. -/
inductive Round (σ ρ : Type)
  | again (s : σ)
  | done (r : ρ)

/-- From `s` the loop returns `r` after finitely many rounds. -/
inductive Ends {σ ρ : Type} (body : σ → Round σ ρ) : σ → ρ → Prop
  | done {s : σ} {r : ρ} : body s = .done r → Ends body s r
  | again {s s' : σ} {r : ρ} : body s = .again s' → Ends body s' r → Ends body s r

/-- From `s` the loop comes to the start of a round in `s'`. -/
inductive Comes {σ ρ : Type} (body : σ → Round σ ρ) (s : σ) : σ → Prop
  | start : Comes body s s
  | again {s' s'' : σ} : Comes body s s' → body s' = .again s'' → Comes body s s''

/-- `loop` runs `body` for as many rounds as its bound allows. -/
def Unrolls {σ ρ : Type} (body : σ → Round σ ρ) (loop : Nat → σ → ρ) : Prop :=
  ∀ fuel s, loop (fuel + 1) s =
    match body s with
    | .again s' => loop fuel s'
    | .done r => r

section Loop

variable {σ ρ : Type} {body : σ → Round σ ρ} {loop : Nat → σ → ρ}

/-- A loop returns one result. -/
theorem Ends.unique {s : σ} {r r' : ρ} (ends : Ends body s r) (ends' : Ends body s r') :
    r = r' := by
  -- By induction on one run; the first round decides what the other run begins with.
  induction ends with
  | done returned =>
    cases ends' with
    | done returned' => exact Round.done.inj (returned.symm.trans returned')
    | again round' _ => cases returned.symm.trans round'
  | again round _ ih =>
    cases ends' with
    | done returned' => cases round.symm.trans returned'
    | again round' rest' =>
      obtain rfl := Round.again.inj (round.symm.trans round')
      exact ih rest'

/-- What every round keeps holds wherever the loop comes. -/
theorem Comes.keeps {I : σ → Prop} {s s' : σ} (comes : Comes body s s')
    (keeps : ∀ s s', I s → body s = .again s' → I s') (start : I s) : I s' := by
  -- The induction is on the rounds that have been made.
  induction comes with
  | start => exact start
  | again _ round ih => exact keeps _ _ ih round

/-- What every round keeps and the last one turns into `Q` holds of the result. -/
theorem Ends.result {I : σ → Prop} {Q : ρ → Prop} {s : σ} {r : ρ} (ends : Ends body s r)
    (keeps : ∀ s s', I s → body s = .again s' → I s')
    (returns : ∀ s r, I s → body s = .done r → Q r) (start : I s) : Q r := by
  -- The induction is on the rounds up to the one that returns.
  induction ends with
  | done returned => exact returns _ _ start returned
  | again round _ ih => exact ih (keeps _ _ start round)

/-- A loop whose rounds come nearer to its end by a measure ends, within as many rounds. -/
theorem Unrolls.ends (unrolls : Unrolls body loop) {I : σ → Prop} {m : σ → Nat}
    (nearer : ∀ s s', I s → body s = .again s' → I s' ∧ m s' < m s) {fuel : Nat}
    {s : σ} (start : I s) (enough : m s < fuel) : Ends body s (loop fuel s) := by
  -- By induction on the fuel, which stays above the measure.
  induction fuel generalizing s with
  | zero => omega
  | succ fuel ih =>
    rw [unrolls fuel s]
    cases round : body s with
    | done r => exact .done round
    | again s' =>
      obtain ⟨start', less⟩ := nearer s s' start round
      exact .again round (ih start' (by omega))

/-- Where a loop returns at measure zero what it gives up with, that many rounds are enough. -/
theorem Unrolls.ends_exact (unrolls : Unrolls body loop) {I : σ → Prop} {m : σ → Nat}
    (nearer : ∀ s s', I s → body s = .again s' → I s' ∧ m s' < m s)
    (stops : ∀ s, I s → m s = 0 → body s = .done (loop 0 s)) {fuel : Nat} {s : σ} (start : I s)
    (enough : m s ≤ fuel) : Ends body s (loop fuel s) := by
  -- As before, but the last round may come when no fuel is left.
  induction fuel generalizing s with
  | zero => exact .done (stops s start (Nat.le_zero.mp enough))
  | succ fuel ih =>
    rw [unrolls fuel s]
    cases round : body s with
    | done r => exact .done round
    | again s' =>
      obtain ⟨start', less⟩ := nearer s s' start round
      exact .again round (ih start' (by omega))

end Loop

end Xq.Lib
