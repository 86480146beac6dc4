import Mathlib

/-! Cutting a stream into blocks of one size as it arrives: the blocks that are full, and what is
left over. -/

namespace Xq.Lib

variable {α : Type*}

/-- The full blocks of a stream. -/
def fullBlocks (size : Nat) (xs : List α) : List (List α) :=
  (List.range (xs.length / size)).map fun i => (xs.drop (i * size)).take size

/-- What the full blocks leave over. -/
def leftover (size : Nat) (xs : List α) : List α := xs.drop (xs.length / size * size)

/-- All blocks of a stream that has ended: its leftover is the last one, unless it is empty. -/
def allBlocks (size : Nat) (xs : List α) : List (List α) :=
  fullBlocks size xs ++ (if leftover size xs = [] then [] else [leftover size xs])

section Blocks

variable {size : Nat} (xs : List α)

@[simp] theorem fullBlocks_length : (fullBlocks size xs).length = xs.length / size := by
  rw [fullBlocks, List.length_map, List.length_range]

@[simp] theorem fullBlocks_nil : fullBlocks size ([] : List α) = [] := by
  -- No block fits an empty stream.
  rw [fullBlocks, List.length_nil, Nat.zero_div]
  rfl

@[simp] theorem leftover_nil : leftover size ([] : List α) = [] := by
  rw [leftover, List.drop_nil]

theorem leftover_length : (leftover size xs).length = xs.length % size := by
  -- What the full blocks leave over is the remainder of the division.
  have split := Nat.div_add_mod' xs.length size
  rw [leftover, List.length_drop]
  omega

theorem leftover_short (positive : 0 < size) : (leftover size xs).length < size := by
  -- A remainder is less than its divisor.
  rw [leftover_length]
  exact Nat.mod_lt _ positive

theorem fullBlocks_getElem {i : Nat} (inside : i < (fullBlocks size xs).length) :
    (fullBlocks size xs)[i] = (xs.drop (i * size)).take size := by
  -- The block is the piece at its multiple of the size.
  simp only [fullBlocks, List.getElem_map, List.getElem_range]

/-- A full block ends within the stream. -/
theorem fullBlocks_within {i : Nat} (inside : i < xs.length / size) :
    i * size + size ≤ xs.length := by
  -- The end of the block is a multiple of the size that is not above the last.
  have last : (i + 1) * size ≤ xs.length / size * size := Nat.mul_le_mul_right size inside
  have whole := Nat.div_mul_le_self xs.length size
  rw [Nat.add_mul, Nat.one_mul] at last
  omega

theorem mem_fullBlocks_length {block : List α} (member : block ∈ fullBlocks size xs) :
    block.length = size := by
  -- The piece ends within the stream, so it is whole.
  obtain ⟨i, inside, rfl⟩ := List.mem_map.mp member
  have within := fullBlocks_within xs (List.mem_range.mp inside)
  rw [List.length_take, List.length_drop]
  omega

/-- A stream that goes on keeps the full blocks it has. -/
theorem fullBlocks_append (ys : List α) :
    fullBlocks size xs = (fullBlocks size (xs ++ ys)).take (xs.length / size) := by
  have fewer : xs.length / size ≤ (xs ++ ys).length / size := by
    rw [List.length_append]
    exact Nat.div_le_div_right (Nat.le_add_right _ _)
  refine List.ext_getElem ?_ fun i inside _ => ?_
  · rw [List.length_take, fullBlocks_length, fullBlocks_length]
    omega
  · -- A block of the shorter stream lies in front of what is appended.
    rw [fullBlocks_length] at inside
    have within := fullBlocks_within xs inside
    rw [List.getElem_take, fullBlocks_getElem, fullBlocks_getElem,
      List.drop_append_of_le_length (by omega),
      List.take_append_of_le_length (by rw [List.length_drop]; omega)]

theorem fullBlocks_front (ys : List α) :
    fullBlocks size xs <+: fullBlocks size (xs ++ ys) := by
  -- More of the stream only adds blocks behind those there are.
  rw [fullBlocks_append xs ys]
  exact List.take_prefix _ _

/-- A piece that does not fill the block stays in the leftover. -/
theorem blocks_short {piece : List α} (short : (leftover size xs).length + piece.length < size) :
    fullBlocks size (xs ++ piece) = fullBlocks size xs ∧
      leftover size (xs ++ piece) = leftover size xs ++ piece := by
  -- The number of full blocks does not change.
  have count : (xs ++ piece).length / size = xs.length / size := by
    have split := Nat.div_add_mod' xs.length size
    rw [leftover_length] at short
    rw [List.length_append]
    refine Nat.div_eq_of_lt_le ?_ ?_
    · omega
    · rw [Nat.add_mul, Nat.one_mul]
      omega
  constructor
  · rw [fullBlocks_append xs piece, ← count, ← fullBlocks_length, List.take_length]
  · rw [leftover, leftover, count,
      List.drop_append_of_le_length (Nat.div_mul_le_self xs.length size)]

/-- A piece that fills the block makes it the next full one. -/
theorem blocks_filled (positive : 0 < size) {piece : List α}
    (fills : (leftover size xs).length + piece.length = size) :
    fullBlocks size (xs ++ piece) = fullBlocks size xs ++ [leftover size xs ++ piece] ∧
      leftover size (xs ++ piece) = [] := by
  -- The piece completes one more block, and the lists are compared block by block.
  have split := Nat.div_add_mod' xs.length size
  rw [leftover_length] at fills
  have total : (xs ++ piece).length = (xs.length / size + 1) * size := by
    rw [List.length_append, Nat.add_mul, Nat.one_mul]
    omega
  have count : (xs ++ piece).length / size = xs.length / size + 1 := by
    rw [total, Nat.mul_div_cancel _ positive]
  constructor
  · refine List.ext_getElem ?_ fun i inside _ => ?_
    · rw [List.length_append, fullBlocks_length, fullBlocks_length, count, List.length_singleton]
    · rw [fullBlocks_length, count] at inside
      rw [fullBlocks_getElem]
      rcases Nat.lt_or_ge i (xs.length / size) with old | last
      · -- A block that was full before.
        have within := fullBlocks_within xs old
        rw [List.getElem_append_left (by rwa [fullBlocks_length]), fullBlocks_getElem,
          List.drop_append_of_le_length (by omega),
          List.take_append_of_le_length (by rw [List.length_drop]; omega)]
      · -- The block that the piece fills.
        have here : i = xs.length / size := by omega
        subst here
        rw [List.getElem_append_right (by rw [fullBlocks_length]), List.getElem_singleton,
          List.drop_append_of_le_length (Nat.div_mul_le_self xs.length size), ← leftover]
        refine List.take_of_length_le ?_
        rw [List.length_append, leftover_length]
        omega
  · rw [leftover, count, ← total, List.drop_length]

/-- Behind a stream that fills its blocks, another one is cut as if it stood alone. -/
theorem blocks_aligned (aligned : leftover size xs = []) (ys : List α) :
    fullBlocks size (xs ++ ys) = fullBlocks size xs ++ fullBlocks size ys ∧
      leftover size (xs ++ ys) = leftover size ys := by
  -- The first stream is a whole number of blocks, so the cuts of the second only move by its
  -- length.
  have none_left : (leftover size xs).length = xs.length % size := leftover_length xs
  rw [aligned, List.length_nil] at none_left
  have whole : xs.length = xs.length / size * size := by
    have split := Nat.div_add_mod' xs.length size
    omega
  rcases Nat.eq_zero_or_pos size with rfl | positive
  · -- Without a block size there are no full blocks at all.
    obtain rfl : xs = [] := List.length_eq_zero_iff.mp (by omega)
    rw [List.nil_append, fullBlocks_nil, List.nil_append]
    exact ⟨rfl, rfl⟩
  have count : (xs ++ ys).length / size = xs.length / size + ys.length / size := by
    rw [List.length_append, whole, Nat.mul_div_cancel _ positive, Nat.add_comm,
      Nat.add_mul_div_right _ _ positive, Nat.add_comm]
  constructor
  · refine List.ext_getElem ?_ fun i inside inside' => ?_
    · rw [List.length_append, fullBlocks_length, fullBlocks_length, fullBlocks_length, count]
    · rw [fullBlocks_getElem]
      rcases Nat.lt_or_ge i (xs.length / size) with old | later
      · -- A block of the first stream ends before the second starts.
        have within := fullBlocks_within xs old
        rw [List.getElem_append_left (by rwa [fullBlocks_length]), fullBlocks_getElem,
          List.drop_append_of_le_length (by omega),
          List.take_append_of_le_length (by rw [List.length_drop]; omega)]
      · -- A block of the second one is found that far behind the first.
        have place : i * size = xs.length + (i - xs.length / size) * size := by
          rw [whole, Nat.mul_div_cancel _ positive, ← Nat.add_mul, Nat.add_sub_cancel' later]
        rw [List.getElem_append_right (by rwa [fullBlocks_length]), fullBlocks_getElem, place,
          fullBlocks_length, ← List.drop_drop, List.drop_left]
  · rw [leftover, leftover, count, Nat.add_mul, ← whole, ← List.drop_drop, List.drop_left]

/-- The blocks are the stream, cut. -/
theorem allBlocks_flatten : (allBlocks size xs).flatten = xs := by
  -- The full blocks are the front of the stream, and what is left over is the rest of it.
  have full (n : Nat) (enough : n * size ≤ xs.length) :
      ((List.range n).map fun i => (xs.drop (i * size)).take size).flatten = xs.take (n * size) := by
    -- Each further block takes up where the ones before it end.
    induction n with
    | zero => rw [Nat.zero_mul, List.take_zero, List.range_zero, List.map_nil, List.flatten_nil]
    | succ n ih =>
      rw [Nat.add_mul, Nat.one_mul] at enough
      rw [List.range_succ, List.map_append, List.flatten_append, ih (by omega), List.map_singleton,
        List.flatten_singleton, Nat.add_mul, Nat.one_mul, List.take_add]
  have tail : (if leftover size xs = [] then [] else [leftover size xs]).flatten =
      leftover size xs := by
    split
    · rename_i empty
      rw [empty, List.flatten_nil]
    · rw [List.flatten_singleton]
  rw [allBlocks, List.flatten_append, tail, fullBlocks, full _ (Nat.div_mul_le_self _ _), leftover,
    List.take_append_drop]

/-- The blocks of a stream that goes on start with its full ones. -/
theorem fullBlocks_front_all (ys : List α) : fullBlocks size xs <+: allBlocks size (xs ++ ys) :=
  (fullBlocks_front xs ys).trans (List.prefix_append _ _)

theorem mem_allBlocks {block : List α} (member : block ∈ allBlocks size xs)
    (positive : 0 < size) :
    0 < block.length ∧ block.length ≤ size := by
  -- A block is full, or it is the last one and not empty.
  rcases List.mem_append.mp member with full | last
  · have := mem_fullBlocks_length xs full
    omega
  · split at last
    · cases last
    · rename_i some_left
      obtain rfl := List.mem_singleton.mp last
      exact ⟨List.length_pos_iff.mpr some_left, (leftover_short xs positive).le⟩

/-- Every block but the last is full. -/
theorem allBlocks_getElem_length {i : Nat} (inside : i + 1 < (allBlocks size xs).length) :
    (allBlocks size xs)[i].length = size := by
  -- With another block behind it, the block is not the leftover.
  have full : i < (fullBlocks size xs).length := by
    rw [allBlocks, List.length_append] at inside
    split at inside
    · rw [List.length_nil] at inside
      omega
    · rw [List.length_singleton] at inside
      omega
  have here : (allBlocks size xs)[i] = (fullBlocks size xs)[i] := by
    simp only [allBlocks]
    exact List.getElem_append_left full
  rw [here]
  exact mem_fullBlocks_length xs (List.getElem_mem full)

/-- The blocks in front of one of them are full. -/
theorem allBlocks_offset {i : Nat} (inside : i < (allBlocks size xs).length) :
    (((allBlocks size xs).take i).map List.length).sum = i * size := by
  -- The induction is on the block, and those in front of it have the full size.
  induction i with
  | zero => rw [List.take_zero, Nat.zero_mul]; rfl
  | succ i ih =>
    rw [List.take_succ_eq_append_getElem (by omega), List.map_append, List.sum_append,
      ih (by omega), List.map_singleton, List.sum_singleton, allBlocks_getElem_length xs inside,
      Nat.add_mul, Nat.one_mul]

/-- A block ends within the stream. -/
theorem allBlocks_within {i : Nat} (inside : i < (allBlocks size xs).length) :
    i * size + (allBlocks size xs)[i].length ≤ xs.length := by
  -- The block and those in front of it are a front of the stream.
  have front := ((allBlocks size xs).take_sublist (i + 1)).flatten.length_le
  rw [allBlocks_flatten, List.length_flatten, List.take_succ_eq_append_getElem inside,
    List.map_append, List.sum_append, allBlocks_offset xs inside, List.map_singleton,
    List.sum_singleton] at front
  exact front

/-- A block ends where the next one begins, and the last at the end of the stream. -/
theorem allBlocks_ends {i : Nat} (inside : i < (allBlocks size xs).length) :
    i * size + (allBlocks size xs)[i].length =
      if i + 1 < (allBlocks size xs).length then (i + 1) * size else xs.length := by
  split
  · rename_i next
    rw [allBlocks_getElem_length xs next, Nat.add_mul, Nat.one_mul]
  · -- The last block ends where the lengths of all blocks add up to.
    have whole := congrArg List.length (@allBlocks_flatten _ size xs)
    have last : (allBlocks size xs).take i ++ [(allBlocks size xs)[i]] = allBlocks size xs := by
      rw [← List.take_succ_eq_append_getElem inside]
      exact List.take_of_length_le (by omega)
    rw [← allBlocks_offset xs inside, ← whole, List.length_flatten]
    conv_rhs => rw [← last]
    rw [List.map_append, List.sum_append, List.map_singleton, List.sum_singleton]

/-- The blocks hold no more than their number allows. -/
theorem length_le_allBlocks (positive : 0 < size) :
    xs.length ≤ (allBlocks size xs).length * size := by
  -- The stream is as long as its blocks together, and no block is longer than the size.
  conv_lhs => rw [← @allBlocks_flatten _ size xs, List.length_flatten]
  have each := List.sum_le_card_nsmul ((allBlocks size xs).map List.length) size
    (by
      intro n member
      obtain ⟨block, here, rfl⟩ := List.mem_map.mp member
      exact (mem_allBlocks xs here positive).2)
  rwa [List.length_map, smul_eq_mul] at each

/-- The first blocks of a stream are the front of it. -/
theorem allBlocks_take (positive : 0 < size) (i : Nat) :
    ((allBlocks size xs).take i).flatten = xs.take (i * size) := by
  rcases Nat.lt_or_ge i (allBlocks size xs).length with inside | all
  · -- As many symbols as stand in front of the block, and they are the stream's own.
    have length : ((allBlocks size xs).take i).flatten.length = i * size := by
      rw [List.length_flatten, allBlocks_offset xs inside]
    conv_rhs => rw [← @allBlocks_flatten _ size xs, ← List.take_append_drop i (allBlocks size xs),
      List.flatten_append, ← length, List.take_left]
  · -- All blocks are taken, and all of the stream.
    rw [List.take_of_length_le all, allBlocks_flatten, List.take_of_length_le
      ((length_le_allBlocks xs positive).trans (Nat.mul_le_mul_right size all))]

/-- Each block is the piece of the stream at its place. -/
theorem allBlocks_piece (positive : 0 < size) {i : Nat} {block : List α}
    (here : (allBlocks size xs)[i]? = some block) : block = (xs.drop (i * size)).take size := by
  obtain ⟨inside, rfl⟩ := List.getElem?_eq_some_iff.mp here
  -- One block more is `size` more of the stream.
  have more := allBlocks_take xs positive (i + 1)
  rw [List.take_succ_eq_append_getElem inside, List.flatten_append, List.flatten_singleton,
    allBlocks_take xs positive, Nat.add_mul, Nat.one_mul, List.take_add] at more
  exact List.append_cancel_left more

/-- The lengths of the blocks. -/
theorem map_length_allBlocks (positive : 0 < size) : (allBlocks size xs).map List.length =
    (List.range (allBlocks size xs).length).map fun i => min size (xs.length - i * size) := by
  -- Each block is the piece at its place, cut off by the end of the stream.
  refine List.ext_getElem (by simp) fun i inside _ => ?_
  rw [List.length_map] at inside
  have piece := allBlocks_piece xs positive (List.getElem?_eq_getElem inside)
  rw [List.getElem_map, List.getElem_map, List.getElem_range, piece, List.length_take,
    List.length_drop]

end Blocks

end Xq.Lib
