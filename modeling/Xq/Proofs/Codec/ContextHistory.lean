import Xq.Codec.Table
import Xq.Proofs.Codec.LzbExpansion

/-! What a compression context remembers of earlier calls: the capacity of its staging buffer. -/

namespace Xq

section Contexts

/-- The largest input of an earlier call. -/
def historyMax : Nat := 2 ^ 28

/-- The contexts that earlier calls lead to, on inputs of up to 256 MiB and an allocator that grants
every request; a codec without contexts is passed a null pointer. -/
inductive CctxReached (codec : CodecVt) : Cctx → Prop
  | fresh (heap : Heap) : (∀ k, heap.grants k = true) →
    CctxReached codec ((codec.cctxNew.map fun cctxNew => cctxNew heap).getD .null)
  | compress {c : Cctx} {src : Bytes} (cap : Nat) (level : Int) (cdict : Option Cdict) :
    CctxReached codec c → src.length ≤ historyMax →
    CctxReached codec (codec.compress c cap src level cdict).2

end Contexts

section Lzb

/-- A granted context stays one. -/
theorem lzbCompress_keeps {c : LzbCctx} (granted : c.Granted) (cap : Nat) (src : Bytes)
    (level : Int) (cdict : Option LzbCdict) : (lzbCompress c cap src level cdict).2.Granted := by
  rw [lzbCompress]
  split
  · exact granted
  obtain ⟨c', prepared, granted'⟩ := cctxPrepare_granted granted src.length
  rw [prepared]
  dsimp only
  -- Every way out stores tables in arrays that are there, and asks for nothing.
  split
  · exact granted'
  · split
    · exact granted'
    · exact granted'

/-- The contexts of the lzb codec. -/
theorem CctxReached.lzb {c : Cctx} (reached : CctxReached lzbVt c) :
    ∃ l : LzbCctx, c = .lzb l ∧ l.Granted := by
  -- The induction is on the uses of the context.
  induction reached with
  | fresh heap granted => exact ⟨lzbCctxNew heap, rfl, granted⟩
  | compress cap level cdict _ _ ih =>
    obtain ⟨l, rfl, granted⟩ := ih
    exact ⟨_, rfl, lzbCompress_keeps granted cap _ level _⟩

/-- Granted contexts answer alike. -/
theorem lzbCompress_same {c c' : LzbCctx} (granted : c.Granted) (granted' : c'.Granted) (cap : Nat)
    (src : Bytes) (level : Int) (cdict : Option LzbCdict) :
    (lzbCompress c cap src level cdict).1 = (lzbCompress c' cap src level cdict).1 := by
  -- Once its tables are granted, nothing else of a context shows in the answer.
  by_cases empty : src.length = 0
  · rw [lzbCompress, lzbCompress, if_pos empty, if_pos empty]
  · rw [lzbCompress_granted granted _ _ _ empty, lzbCompress_granted granted' _ _ _ empty]

end Lzb

section Lze

/-- The capacity of the staging buffer once an input has asked for its own. -/
def stagingAfter (midCap n : Nat) : Nat := max midCap (lzbBound n + 32)

/-- A context of the lze codec whose allocators grant every request. -/
structure LzeCctx.Granted (c : LzeCctx) : Prop where
  heap : ∀ k, c.heap.grants k = true
  lzb : c.lzb.Granted

theorem LzeCctx.Granted.reserve {c : LzeCctx} (granted : c.Granted) (n : Nat) :
    ∃ c', c.reserve (lzbBound n + 32) = (true, c') ∧ c'.Granted ∧
      c'.midCap = stagingAfter c.midCap n := by
  rw [LzeCctx.reserve]
  by_cases enough : c.midCap ≥ lzbBound n + 32
  · -- The buffer is large enough already.
    rw [if_pos enough]
    exact ⟨c, rfl, granted, (Nat.max_eq_left enough).symm⟩
  · -- A new buffer of the size asked for replaces it.
    have below : c.midCap ≤ lzbBound n + 32 := by omega
    rw [if_neg enough, Heap.malloc, if_pos (granted.heap _)]
    exact ⟨_, rfl, ⟨granted.heap, granted.lzb⟩, (Nat.max_eq_right below).symm⟩

/-- The context after a call: still granted, and with the capacity that the call has asked for. -/
theorem lzeCompress_keeps {c : LzeCctx} (granted : c.Granted) (cap : Nat) (src : Bytes)
    (level : Int) (cdict : Option LzbCdict) :
    (lzeCompress c cap src level cdict).2.Granted ∧
      (lzeCompress c cap src level cdict).2.midCap =
        if src.length = 0 then c.midCap else stagingAfter c.midCap src.length := by
  rw [lzeCompress]
  by_cases empty : src.length = 0
  · -- An empty input returns before anything is reserved.
    rw [if_pos empty, if_pos empty]
    exact ⟨granted, rfl⟩
  rw [if_neg empty, if_neg empty]
  obtain ⟨c', reserved, granted', size⟩ := granted.reserve src.length
  have lzb := lzbCompress_keeps granted'.lzb c'.midCap src level cdict
  rw [reserved]
  dsimp only
  generalize lzbCompress c'.lzb c'.midCap src level cdict = r at lzb ⊢
  obtain ⟨⟨st, mid⟩, l⟩ := r
  -- Whatever the stage answers, the context keeps its buffers.
  cases st
  all_goals exact ⟨⟨granted'.heap, lzb⟩, size⟩

/-- The largest capacity that earlier calls lead to. -/
def stagingMax : Nat := lzbBound historyMax + 32

theorem lzbBound_mono {a b : Nat} (less : a ≤ b) : lzbBound a ≤ lzbBound b := by
  -- Both summands grow with the size.
  have quotient := Nat.div_le_div_right less (c := 255)
  rw [lzbBound, lzbBound]
  omega

/-- The contexts of the lze codec. -/
theorem CctxReached.lze {c : Cctx} (reached : CctxReached lzeVt c) :
    ∃ l : LzeCctx, c = .lze l ∧ l.Granted ∧ l.midCap ≤ stagingMax := by
  -- By induction on the calls made; each one brings the capacity to what its input asks for at
  -- most.
  induction reached with
  | fresh heap granted =>
    exact ⟨lzeCctxNew heap, rfl, ⟨granted, granted⟩, Nat.zero_le _⟩
  | @compress _ src cap level cdict _ short ih =>
    obtain ⟨l, rfl, granted, bounded⟩ := ih
    obtain ⟨kept, size⟩ := lzeCompress_keeps granted cap src level (cdict.bind Cdict.asLzb)
    refine ⟨(lzeCompress l cap src level (cdict.bind Cdict.asLzb)).2, rfl, kept, ?_⟩
    rw [size]
    split
    · exact bounded
    · exact Nat.max_le.mpr ⟨bounded, Nat.add_le_add_right (lzbBound_mono short) 32⟩

end Lze

end Xq
