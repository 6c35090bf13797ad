import Mathlib.Data.List.Basic
import Mathlib.Tactic.Common

/-!
# Lists in blocks of one size

Every list is a sequence of full blocks and a remainder shorter than a block. The split
of a longer list begins with the split of its front.
-/

namespace Codec

variable {α : Type}

/-- A number of blocks from the front. -/
def firstBlocks (size : Nat) : (count : Nat) → List α → List (List α)
  | 0, _ => []
  | count + 1, xs => xs.take size :: firstBlocks size count (xs.drop size)

/-- The full blocks. -/
def blocks (size : Nat) (xs : List α) : List (List α) := firstBlocks size (xs.length / size) xs

/-- What is left behind the full blocks. -/
def remainder (size : Nat) (xs : List α) : List α := xs.drop (size * (xs.length / size))

variable {size : Nat} {xs : List α}

theorem blocks_of_lt (short : xs.length < size) : blocks size xs = [] := by
  rw [blocks, Nat.div_eq_of_lt short, firstBlocks]

theorem remainder_of_lt (short : xs.length < size) : remainder size xs = xs := by
  rw [remainder, Nat.div_eq_of_lt short, Nat.mul_zero, List.drop_zero]

theorem length_div (positive : 0 < size) (long : size ≤ xs.length) :
    xs.length / size = (xs.drop size).length / size + 1 := by
  rw [List.length_drop]
  exact Nat.div_eq_sub_div positive long

/-- The first block stands at the front. -/
theorem blocks_of_le (positive : 0 < size) (long : size ≤ xs.length) :
    blocks size xs = xs.take size :: blocks size (xs.drop size) := by
  rw [blocks, length_div positive long, firstBlocks, blocks]

/-- The first block has no part in the remainder. -/
theorem remainder_of_le (positive : 0 < size) (long : size ≤ xs.length) :
    remainder size xs = remainder size (xs.drop size) := by
  rw [remainder, length_div positive long, remainder, List.drop_drop, Nat.mul_succ, Nat.add_comm]

/-- Induction along the blocks of a list. -/
theorem blocks_induction (positive : 0 < size) {motive : List α → Prop}
    (short : ∀ xs, xs.length < size → motive xs)
    (block : ∀ xs, size ≤ xs.length → motive (xs.drop size) → motive xs)
    (xs : List α) : motive xs := by
  induction length : xs.length using Nat.strongRecOn generalizing xs with
  | ind _ ih =>
      by_cases long : size ≤ xs.length
      · apply block xs long
        exact ih (xs.drop size).length (by rw [List.length_drop]; omega) (xs.drop size) rfl
      · exact short xs (Nat.lt_of_not_le long)

/-- Blocks and remainder are the whole list. -/
theorem flatten_blocks_append_remainder (positive : 0 < size) (xs : List α) :
    (blocks size xs).flatten ++ remainder size xs = xs := by
  induction xs using blocks_induction positive with
  | short xs short =>
      rw [blocks_of_lt short, remainder_of_lt short]
      rfl
  | block xs long ih =>
      rw [blocks_of_le positive long, remainder_of_le positive long, List.flatten_cons,
        List.append_assoc, ih, List.take_append_drop]

/-- Blocks are full. -/
theorem length_of_mem_blocks (positive : 0 < size) {block : List α}
    (member : block ∈ blocks size xs) :
    block.length = size := by
  induction xs using blocks_induction positive with
  | short xs short =>
      rw [blocks_of_lt short] at member
      cases member
  | block xs long ih =>
      rw [blocks_of_le positive long] at member
      rcases List.mem_cons.mp member with rfl | later
      · exact List.length_take_of_le long
      · exact ih later

/-- The remainder is shorter than a block. -/
theorem length_remainder_lt (positive : 0 < size) (xs : List α) :
    (remainder size xs).length < size := by
  induction xs using blocks_induction positive with
  | short xs short => rwa [remainder_of_lt short]
  | block xs long ih => rwa [remainder_of_le positive long]

/-- More symbols continue the remainder. -/
theorem blocks_append (positive : 0 < size) (xs ys : List α) :
    blocks size (xs ++ ys) = blocks size xs ++ blocks size (remainder size xs ++ ys) := by
  induction xs using blocks_induction positive with
  | short xs short => rw [blocks_of_lt short, remainder_of_lt short, List.nil_append]
  | block xs long ih =>
      have longer : size ≤ (xs ++ ys).length := by
        rw [List.length_append]
        omega
      rw [blocks_of_le positive longer, blocks_of_le positive long, remainder_of_le positive long,
        List.take_append_of_le_length long, List.drop_append_of_le_length long, ih,
        List.cons_append]

/-- Of the front of a list only its remainder matters for what remains in the end. -/
theorem remainder_append (positive : 0 < size) (xs ys : List α) :
    remainder size (xs ++ ys) = remainder size (remainder size xs ++ ys) := by
  induction xs using blocks_induction positive with
  | short xs short => rw [remainder_of_lt short]
  | block xs long ih =>
      have longer : size ≤ (xs ++ ys).length := by
        rw [List.length_append]
        omega
      rw [remainder_of_le positive longer, remainder_of_le positive long,
        List.drop_append_of_le_length long, ih]

/-- The blocks, and the remainder unless it is empty. -/
def chunks (size : Nat) (xs : List α) : List (List α) :=
  blocks size xs ++ if (remainder size xs).isEmpty then [] else [remainder size xs]

/-- The chunks are the whole list. -/
theorem flatten_chunks (positive : 0 < size) (xs : List α) : (chunks size xs).flatten = xs := by
  rw [chunks, List.flatten_append]
  split
  · rename_i empty
    have whole := flatten_blocks_append_remainder positive xs
    rwa [List.isEmpty_iff.mp empty] at whole
  · rw [List.flatten_singleton]
    exact flatten_blocks_append_remainder positive xs

theorem ne_nil_of_mem_chunks (positive : 0 < size) {chunk : List α}
    (member : chunk ∈ chunks size xs) :
    chunk ≠ [] := by
  rcases List.mem_append.mp member with full | last
  · apply List.ne_nil_of_length_pos
    rwa [length_of_mem_blocks positive full]
  · split at last
    · cases last
    · rename_i nonempty
      rw [List.mem_singleton.mp last]
      exact fun empty => nonempty (List.isEmpty_iff.mpr empty)

/-- All chunks but the last are full. -/
theorem length_of_mem_dropLast_chunks (positive : 0 < size) {chunk : List α}
    (member : chunk ∈ (chunks size xs).dropLast) : chunk.length = size := by
  apply length_of_mem_blocks positive
  rw [chunks] at member
  split at member
  · rw [List.append_nil] at member
    exact List.dropLast_subset _ member
  · rwa [List.dropLast_concat] at member

/-- No chunk is longer than a block. -/
theorem length_le_of_mem_chunks (positive : 0 < size) {chunk : List α}
    (member : chunk ∈ chunks size xs) :
    chunk.length ≤ size := by
  rcases List.mem_append.mp member with full | last
  · exact Nat.le_of_eq (length_of_mem_blocks positive full)
  · split at last
    · cases last
    · rw [List.mem_singleton.mp last]
      exact Nat.le_of_lt (length_remainder_lt positive xs)

/-- A single block. -/
theorem chunks_of_length (positive : 0 < size) (length : xs.length = size) :
    chunks size xs = [xs] := by
  have long : size ≤ xs.length := Nat.le_of_eq length.symm
  have nothing : (xs.drop size).length < size := by
    rw [List.length_drop, length, Nat.sub_self]
    exact positive
  rw [chunks, blocks_of_le positive long, remainder_of_le positive long, blocks_of_lt nothing,
    remainder_of_lt nothing, ← length, List.take_length, List.drop_length]
  rfl

end Codec
