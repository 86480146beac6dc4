import Xq.Codec.Lzb

/-! The match search: whatever the tables hold, a match it reports is a match. -/

namespace Xq

/-- Equal words are equal byte by byte. -/
theorem ld8_of_ld64le {a b : Bytes} {i j : Nat} (same : ld64le a i = ld64le b j) {k : Nat}
    (within : k < 8) : ld8 a (i + k) = ld8 b (j + k) := by
  -- The words store back as the bytes that they were loaded from.
  have bytes : (List.range 8).map (fun k => ld8 a (i + k)) =
      (List.range 8).map fun k => ld8 b (j + k) := by
    rw [← st64le_ld64le, ← st64le_ld64le, same]
  exact List.map_inj_left.mp bytes k (List.mem_range.mpr within)

/-- The byte loop counts bytes that agree, and no more than it was allowed. -/
theorem matchLenBytes_agree (a b : Bytes) (left i j : Nat) :
    matchLenBytes a i b j left ≤ left ∧
      ∀ k < matchLenBytes a i b j left, ld8 a (i + k) = ld8 b (j + k) := by
  -- The induction is on the bytes left to compare.
  induction left generalizing i j with
  | zero => exact ⟨Nat.le_refl 0, fun k within => absurd within (Nat.not_lt_zero k)⟩
  | succ left ih =>
    rw [matchLenBytes]
    split
    · -- The first bytes agree, and the rest is counted behind them.
      rename_i same
      refine ⟨Nat.succ_le_succ (ih _ _).1, fun k within => ?_⟩
      cases k with
      | zero => exact same
      | succ k =>
        have next := (ih (i + 1) (j + 1)).2 k (Nat.lt_of_succ_lt_succ within)
        rwa [Nat.add_right_comm i, Nat.add_right_comm j] at next
    · exact ⟨Nat.zero_le _, fun k within => absurd within (Nat.not_lt_zero k)⟩

/-- So does the loop over words in front of it. -/
theorem matchLenFrom_agree (a b : Bytes) (fuel i j left : Nat) :
    matchLenFrom a i b j fuel left ≤ left ∧
      ∀ k < matchLenFrom a i b j fuel left, ld8 a (i + k) = ld8 b (j + k) := by
  -- The induction is on the words; where one differs, the bytes are compared one by one.
  induction fuel generalizing i j left with
  | zero => exact matchLenBytes_agree a b left i j
  | succ fuel ih =>
    rw [matchLenFrom]
    split
    · rename_i word
      obtain ⟨bound, agree⟩ := ih (i + 8) (j + 8) (left - 8)
      refine ⟨by omega, fun k within => ?_⟩
      -- The byte lies in the word just compared, or behind it.
      rcases Nat.lt_or_ge k 8 with inside | behind
      · exact ld8_of_ld64le word.2 inside
      · have next := agree (k - 8) (by omega)
        rwa [Nat.add_assoc, Nat.add_assoc, Nat.add_sub_cancel' behind] at next
    · exact matchLenBytes_agree a b left i j

theorem matchLen_le (a : Bytes) (i : Nat) (b : Bytes) (j limit : Nat) :
    matchLen a i b j limit ≤ limit :=
  (matchLenFrom_agree a b (limit / 8) i j limit).1

theorem matchLen_agree {a b : Bytes} {i j limit k : Nat} (within : k < matchLen a i b j limit) :
    ld8 a (i + k) = ld8 b (j + k) :=
  (matchLenFrom_agree a b (limit / 8) i j limit).2 k within

/-- The bytes in front of a block: the dictionary, if there is one. -/
def Searcher.dict (s : Searcher) : Bytes := (s.d.map LzbCdict.data).getD []

/-- At `pos`, the next `m` bytes of the block repeat those `d` bytes before, in the dictionary
followed by the block. -/
structure MatchAt (dict src : Bytes) (pos m d : Nat) : Prop where
  back : 1 ≤ d
  reach : d ≤ pos + dict.length
  inside : pos + m ≤ src.length
  agree : ∀ k < m, ld8 (dict ++ src) (dict.length + pos + k - d) = ld8 src (pos + k)

/-- What a search holds so far: nothing, or a match. -/
def Found (dict src : Bytes) (pos : Nat) (found : Nat × Nat) : Prop :=
  found.1 = 0 ∨ MatchAt dict src pos found.1 found.2

/-- A match with an earlier position of the block itself. -/
theorem MatchAt.inBlock (dict : Bytes) {src : Bytes} {p pos limit : Nat} (before : p < pos)
    (room : pos + limit ≤ src.length) :
    MatchAt dict src pos (matchLen src p src pos limit) (pos - p) where
  back := by omega
  reach := by omega
  inside := by
    have := matchLen_le src p src pos limit
    omega
  -- Behind the dictionary, the text is the block.
  agree k within := by
    have position : dict.length + pos + k - (pos - p) = dict.length + (p + k) := by omega
    rw [position, ld8_append_right]
    exact matchLen_agree within

/-- A match with the dictionary's tail, which ends at the dictionary's last byte. -/
theorem MatchAt.inDict {dict src : Bytes} {p pos limit : Nat} (before : p < dict.length)
    (room : pos + limit ≤ src.length) :
    MatchAt dict src pos (matchLen dict p src pos (min (dict.length - p) limit))
      (pos + (dict.length - p)) where
  back := by omega
  reach := by omega
  inside := by
    have := matchLen_le dict p src pos (min (dict.length - p) limit)
    omega
  -- The match stays inside the dictionary by its length limit.
  agree k within := by
    have bound := matchLen_le dict p src pos (min (dict.length - p) limit)
    have position : dict.length + pos + k - (pos + (dict.length - p)) = p + k := by omega
    rw [position, ld8_append_left (by omega)]
    exact matchLen_agree within

/-- Walking the block's chain keeps a match, for any table contents. -/
theorem findInBlock_found {s : Searcher} {t : LzbTables} {pos limit : Nat}
    (room : pos + limit ≤ s.src.length) (tries : Nat) (cand : UInt32) (best bestd : Nat)
    (found : Found s.dict s.src pos (best, bestd)) :
    Found s.dict s.src pos (findInBlock s t pos limit tries cand best bestd) := by
  -- The induction is on the tries left; the best match so far is one all along.
  induction tries generalizing cand best bestd with
  | zero => exact found
  | succ tries ih =>
    rw [findInBlock]
    split
    · exact found
    · dsimp only
      split
      · exact found
      · rename_i before
        have candidate := MatchAt.inBlock s.dict (Nat.not_le.mp before) room
        -- A longer candidate replaces the best so far; it may end the walk.
        split
        · split
          · exact .inr candidate
          · exact ih _ _ _ (.inr candidate)
        · exact ih _ _ _ found

/-- So does walking the dictionary's chain. -/
theorem findInDict_found {s : Searcher} {d : LzbCdict} {pos limit : Nat} (digest : s.d = some d)
    (room : pos + limit ≤ s.src.length) (tries : Nat) (cand : UInt32) (best bestd : Nat)
    (found : Found s.dict s.src pos (best, bestd)) :
    Found s.dict s.src pos (findInDict s d pos limit tries cand best bestd) := by
  -- As in the block, with the tail of the dictionary as the limit.
  have dict : s.dict = d.data := by rw [Searcher.dict, digest]; rfl
  induction tries generalizing cand best bestd with
  | zero => exact found
  | succ tries ih =>
    rw [findInDict]
    split
    · exact found
    · dsimp only
      split
      · rename_i longer
        -- A candidate beyond the dictionary has no bytes to match, so it is never longer.
        have bound := matchLen_le d.data (cand.toNat - 1) s.src pos
          (min (d.data.length - (cand.toNat - 1)) limit)
        have before : cand.toNat - 1 < d.data.length := by omega
        have candidate := MatchAt.inDict before room
        rw [← dict] at candidate before
        split
        · exact .inr (dict ▸ candidate)
        · exact ih _ _ _ (.inr (dict ▸ candidate))
      · exact ih _ _ _ found

/-- The two chains of a search, one after the other, before the minimum length is applied. -/
def walkChains (s : Searcher) (t : LzbTables) (pos limit : Nat) : Nat × Nat :=
  let v := read32 s.src pos
  let found := findInBlock s t pos limit s.depth (t.head (hash4 v s.hlog)) 0 0
  match s.d with
  | none => found
  | some d =>
    if d.data.length ≥ lzbMinMatch ∧ found.1 < limit then
      findInDict s d pos limit s.depth (d.head (hash4 v d.hlog)) found.1 found.2
    else found

/-- How many bytes a match at `pos` may have. -/
def matchLimit (s : Searcher) (pos : Nat) : Nat :=
  if s.src.length - pos > 65535 then 65535 else s.src.length - pos

theorem findMatch_eq (s : Searcher) (t : LzbTables) (pos : Nat) :
    findMatch s t pos =
      if s.src.length - pos < lzbMinMatch then (0, 0)
      else if (walkChains s t pos (matchLimit s pos)).1 < lzbMinMatch then (0, 0)
      else walkChains s t pos (matchLimit s pos) := rfl

theorem walkChains_found {s : Searcher} {pos limit : Nat} (t : LzbTables)
    (room : pos + limit ≤ s.src.length) :
    Found s.dict s.src pos (walkChains s t pos limit) := by
  have block := findInBlock_found (t := t) room s.depth (t.head (hash4 (read32 s.src pos) s.hlog))
    0 0 (.inl rfl)
  rw [walkChains]
  -- The dictionary's chain is walked after the block's, when it is walked at all.
  cases digest : s.d with
  | none => exact block
  | some d =>
    dsimp only
    split
    · exact findInDict_found digest room _ _ _ _ block
    · exact block

/-- A match the search reports has at least the minimum length, and is a match. -/
theorem findMatch_found {s : Searcher} {t : LzbTables} {pos : Nat}
    (reported : (findMatch s t pos).1 ≠ 0) :
    lzbMinMatch ≤ (findMatch s t pos).1 ∧
      MatchAt s.dict s.src pos (findMatch s t pos).1 (findMatch s t pos).2 := by
  -- The search reports what the walks have found, unless it is shorter than the minimum.
  have least : lzbMinMatch = 4 := rfl
  rw [findMatch_eq] at reported ⊢
  by_cases few : s.src.length - pos < lzbMinMatch
  · rw [if_pos few] at reported
    exact absurd rfl reported
  · rw [if_neg few] at reported ⊢
    by_cases short : (walkChains s t pos (matchLimit s pos)).1 < lzbMinMatch
    · rw [if_pos short] at reported
      exact absurd rfl reported
    · rw [if_neg short] at reported ⊢
      have room : pos + matchLimit s pos ≤ s.src.length := by
        rw [matchLimit]
        split <;> omega
      exact ⟨Nat.not_lt.mp short, (walkChains_found t room).resolve_left reported⟩

/-- The lazy step moves at most one position on, and what it settles for is still a match. -/
theorem lazyStep_found {s : Searcher} {r : LzbRun} {m dist : Nat} (long : lzbMinMatch ≤ m)
    (found : MatchAt s.dict s.src r.pos m dist) :
    let (r', m', dist') := lazyStep s r m dist
    r'.anchor = r.anchor ∧ r.pos ≤ r'.pos ∧ lzbMinMatch ≤ m' ∧
      MatchAt s.dict s.src r'.pos m' dist' := by
  rw [lazyStep]
  dsimp only
  split
  · split
    · -- The next position's match is taken.
      rename_i longer
      have reported : (findMatch s (r.tables.insert s.src s.hlog r.pos) (r.pos + 1)).1 ≠ 0 := by
        omega
      exact ⟨rfl, Nat.le_succ _, findMatch_found reported⟩
    · -- This position's match is kept.
      exact ⟨rfl, Nat.le_refl _, long, found⟩
  · exact ⟨rfl, Nat.le_refl _, long, found⟩

end Xq
