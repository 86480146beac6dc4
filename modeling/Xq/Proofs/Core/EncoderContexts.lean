import Xq.Proofs.Codec.TakesBack
import Xq.Proofs.Core.WellFormed

/-! The contexts of a run: every block that is compressed fits the block size, so that contexts only
have to stay good on such blocks. -/

namespace Xq

open Lib

section Parallel

variable {γ : Type} {nthreads : Nat} {e₀ : Encoder} {issued : List EncCall}
  {compress compress' : γ → Bytes → EncJob × γ} {cctxs : Fin nthreads → γ}

/-- A worker is only ever busy with a block of what is written. -/
theorem EncMt.Sound.busy_block {Good : γ → Prop} {Made : Bytes → EncJob → Prop}
    {inputs : List Bytes} {outputs : List EncJob} {s : EncMt γ nthreads}
    (sound : s.Sound Good Made e₀ issued inputs outputs) {i : Fin nthreads} {seq : Nat}
    (busy : s.workers i = .busy seq) :
    (s.slot seq).block ∈ allBlocks e₀.blockSize (writtenBy issued) := by
  -- A busy worker holds a block that has been submitted.
  have held : s.ring.held i = some (seq, false) := by
    show (s.workers i).claim = _
    rw [busy]
    rfl
  obtain ⟨live, early, _⟩ := sound.lively.ring.holding i seq false held
  have there := sound.lively.ring.input seq live
    (Nat.lt_of_lt_of_le early sound.lively.ring.work_le)
  exact sound.within.subset (List.mem_of_getElem? there)

/-- Two ways to compress that agree on blocks of the block size lead to the same states. -/
theorem EncMt.Reachable.congr [NeZero nthreads] (ready : e₀.Ready)
    (no_free : EncCall.free ∉ issued)
    (same : ∀ cctx block, block.length ≤ e₀.blockSize → compress' cctx block = compress cctx block)
    {s : EncMt γ nthreads} (reached : EncMt.Reachable compress (EncMt.init e₀ cctxs issued) s) :
    EncMt.Reachable compress' (EncMt.init e₀ cctxs issued) s := by
  -- The induction is on the steps; only those of a busy worker compress.
  induction reached with
  | refl => exact .refl
  | @step s s' a before stepped ih =>
    refine .step a ih ?_
    rw [← stepped]
    cases a with
    | worker i =>
      show s.workerStep compress' i = s.workerStep compress i
      unfold EncMt.workerStep
      cases place : s.workers i with
      | busy seq =>
        have anything : Xq.Compresses compress (fun _ => True) fun _ _ => True :=
          fun _ _ _ => ⟨trivial, trivial⟩
        obtain ⟨_, _, sound⟩ := before.sound anything ready no_free fun _ => trivial
        have fits := (mem_allBlocks _ (sound.busy_block place) ready.positive).2
        dsimp only
        rw [same _ _ fits]
      | _ => rfl
    | _ => rfl

end Parallel

section Runs

variable {zstd : Option CodecVt} {sink : Nat → Bytes → Bytes → XqStatus} {p : XqParams}
  {rawSizeHint : UInt64} {e e' : Encoder} {record : Option FileDict} {Good : Cctx → Prop}
  {Made : Bytes → EncJob → Prop} {issued : List EncCall} {results : List XqStatus} {broken : Prop}

/-- Working on blocks of up to `n` bytes in good contexts makes jobs of a kind, and leaves the contexts
good. -/
def Encoder.CompressesWithin (e : Encoder) (n : Nat) (Good : Cctx → Prop)
    (Made : Bytes → EncJob → Prop) : Prop :=
  ∀ cctx block, Good cctx → block.length ≤ n →
    Made block (compressJob e block cctx).1 ∧ Good (compressJob e block cctx).2

theorem Encoder.jobsFrom_madeWithin {n : Nat} (compresses : e.CompressesWithin n Good Made)
    {cctx : Cctx} (good : Good cctx) {blocks : List Bytes} (fit : ∀ b ∈ blocks, b.length ≤ n) :
    List.Forall₂ Made blocks (e.jobsFrom cctx blocks).1 := by
  -- The induction is on the blocks, and the context stays good.
  induction blocks generalizing cctx with
  | nil => exact .nil
  | cons block rest ih =>
    obtain ⟨one, later⟩ := List.forall_mem_cons.mp fit
    obtain ⟨made, kept⟩ := compresses cctx block good one
    exact .cons made (ih kept later)

/-- Jobs of blocks that all fit are made as those that fit are. -/
theorem forall₂_within {n : Nat} {blocks : List Bytes} {jobs : List EncJob}
    (made : List.Forall₂ (fun block j => block.length ≤ n → Made block j) blocks jobs)
    (fit : ∀ b ∈ blocks, b.length ≤ n) : List.Forall₂ Made blocks jobs := by
  -- The induction is on the blocks.
  induction made with
  | nil => exact .nil
  | cons here _ ih =>
    obtain ⟨one, rest⟩ := List.forall_mem_cons.mp fit
    exact .cons (here one) (ih rest)

/-- A run whose contexts stay good on blocks that fit has finished with their jobs, or it reports a
failure from then on. -/
theorem Encoder.Run.outcomeWithin (fresh : e.Created zstd sink p rawSizeHint record)
    (compresses : e.CompressesWithin e.blockSize Good Made) (own : Good e.cctx)
    (no_free : .free ∉ issued) (run : e.Run Good issued results e' broken) :
    StickyReports issued results e'.sticky ∨ e.Ended Made (writtenBy issued) e' := by
  have ready := fresh.ready
  have fit : ∀ b ∈ allBlocks e.blockSize (writtenBy issued), b.length ≤ e.blockSize :=
    fun b member => (mem_allBlocks _ member ready.positive).2
  cases run with
  | single n =>
    -- The single-threaded encoder goes from call to call.
    have anything : e.Compresses (fun _ => True) fun _ _ => True :=
      fun _ _ _ => ⟨trivial, trivial⟩
    have alone := Encoder.answers_alone anything trivial ready fresh.raw no_free n
    obtain ⟨rest, issues⟩ := List.take_prefix n issued
    generalize (e.answers (issued.take n)).1 = results at alone ⊢
    generalize (e.answers (issued.take n)).2 = e' at alone ⊢
    cases alone with
    | @going pieces _ writes gathered =>
      rw [writes] at issues
      exact .inl ⟨pieces, rest, 0, issues.symm, (List.append_nil _).symm,
        fun wrong => absurd wrong (Nat.not_lt_zero 0)⟩
    | @failed pieces later m _ broken writes came =>
      refine .inl ⟨pieces, later ++ rest, m, ?_, rfl, fun _ => broken⟩
      rw [← List.append_assoc, ← writes, issues]
    | finished fine closed fed tail =>
      exact .inr ⟨fine, _, _, Encoder.jobsFrom_madeWithin compresses own fit, fed, tail⟩
  | @parallel nthreads cctxs s many contexts reached =>
    have : NeZero nthreads := ⟨by omega⟩
    -- Outside the blocks that occur, compression may as well do nothing.
    let idle (block : Bytes) : EncJob :=
      { raw := block, cbuf := [], stored := true, ck := [], st := .ok }
    let compress' (cctx : Cctx) (block : Bytes) : EncJob × Cctx :=
      if block.length ≤ e.blockSize then compressJob e block cctx else (idle block, cctx)
    have same (cctx : Cctx) (block : Bytes) (fits : block.length ≤ e.blockSize) :
        compress' cctx block = compressJob e block cctx := if_pos fits
    have compresses' : Xq.Compresses compress' Good
        fun block j => block.length ≤ e.blockSize → Made block j := by
      intro cctx block good
      by_cases fits : block.length ≤ e.blockSize
      · obtain ⟨made, kept⟩ := compresses cctx block good fits
        have raw := compressJob_raw e block cctx
        rw [same cctx block fits]
        generalize compressJob e block cctx = r at made kept raw
        obtain ⟨j, cctx'⟩ := r
        obtain rfl : j.raw = block := raw
        exact ⟨fun _ => made, kept⟩
      · rw [show compress' cctx block = (idle block, cctx) from if_neg fits]
        exact ⟨fun fits' => (fits fits').elim, good⟩
    obtain ⟨_, _, sound⟩ :=
      (reached.congr ready no_free same).sound compresses' ready no_free contexts
    rcases sound.outcome with reports | ⟨ended, _⟩
    · exact .inl reports
    · obtain ⟨jobs, e₁, made, fed, tail⟩ := ended.ran
      exact .inr ⟨ended.sticky, jobs, e₁, forall₂_within made fit, fed, tail⟩

/-- Contexts may be better than they have to be. -/
theorem Encoder.Run.mono {Better : Cctx → Prop} (better : ∀ c, Better c → Good c)
    (run : e.Run Better issued results e' broken) : e.Run Good issued results e' broken := by
  -- Only the parallel run asks for good contexts.
  cases run with
  | single n => exact .single n
  | parallel many contexts reached => exact .parallel many (fun i => better _ (contexts i)) reached

end Runs

end Xq
