import Mathlib

/-!
# Ring buffers

A buffer of `n` cells with two indices, `head` for the next cell to fill and `tail` for the next cell
to read. One cell stays free, so that equal indices mean that the buffer is empty.

The abstract value is `contents`, the list of what was put in and not yet taken out. Putting a value
appends it, taking one removes the first.
-/

namespace Ring

variable {α : Type} {n head tail : ℕ} {buf : ℕ → α}

/-! ## Indices -/

/-- The index after `i`. -/
def next (n i : ℕ) : ℕ := (i + 1) % n

theorem next_lt (h : head < n) : next n head < n := Nat.mod_lt _ (by omega)

/-- An index wraps once. -/
theorem next_eq (h : head < n) : next n head = if head + 1 = n then 0 else head + 1 := by
  rw [next]
  split_ifs with hn
  · rw [hn, Nat.mod_self]
  · exact Nat.mod_eq_of_lt (by omega)

/-- How many cells are filled. -/
def count (n head tail : ℕ) : ℕ := (head + n - tail) % n

theorem count_lt (h : head < n) : count n head tail < n := Nat.mod_lt _ (by omega)

theorem count_eq (hh : head < n) (ht : tail < n) :
    count n head tail = if tail ≤ head then head - tail else head + n - tail := by
  rw [count]
  split_ifs with hle
  · rw [show head + n - tail = head - tail + n by omega, Nat.add_mod_right]
    exact Nat.mod_eq_of_lt (by omega)
  · exact Nat.mod_eq_of_lt (by omega)

@[simp] theorem count_self (ht : tail < n) : count n tail tail = 0 := by
  rw [count_eq ht ht]
  simp

/-- A value is put into a buffer that is not full. -/
theorem count_put (hh : head < n) (ht : tail < n) (hfull : next n head ≠ tail) :
    count n (next n head) tail = count n head tail + 1 := by
  have hlt := next_lt hh
  rw [next_eq hh] at hfull hlt
  rw [count_eq (next_lt hh) ht, count_eq hh ht, next_eq hh]
  split_ifs at * <;> omega

/-- A value is taken out of a buffer that is not empty. -/
theorem count_take (hh : head < n) (ht : tail < n) (hempty : head ≠ tail) :
    count n head tail = count n head (next n tail) + 1 := by
  rw [count_eq hh ht, count_eq hh (next_lt ht), next_eq ht]
  split_ifs <;> omega

/-! ## Contents -/

/-- What was put in and not yet taken out, oldest first. -/
def contents (n : ℕ) (buf : ℕ → α) (head tail : ℕ) : List α :=
  (List.range (count n head tail)).map fun i ↦ buf ((tail + i) % n)

@[simp] theorem length_contents : (contents n buf head tail).length = count n head tail := by
  simp [contents]

@[simp] theorem contents_self (ht : tail < n) : contents n buf tail tail = [] := by
  simp [contents, ht]

/-- The cell at `head` is behind the filled ones. -/
theorem add_count (hh : head < n) (ht : tail < n) : (tail + count n head tail) % n = head := by
  rw [count_eq hh ht]
  split_ifs with hle
  · rw [Nat.add_sub_cancel' hle]
    exact Nat.mod_eq_of_lt hh
  · rw [show tail + (head + n - tail) = head + n by omega, Nat.add_mod_right]
    exact Nat.mod_eq_of_lt hh

/-- The cell at `head` is not one of the filled ones. -/
theorem add_ne (hh : head < n) (ht : tail < n) {i : ℕ} (hi : i < count n head tail) :
    (tail + i) % n ≠ head := by
  rw [count_eq hh ht] at hi
  by_cases hlt : tail + i < n
  · rw [Nat.mod_eq_of_lt hlt]
    split_ifs at hi <;> omega
  · have hsub : (tail + i) % n = tail + i - n := by
      rw [Nat.mod_eq_sub_mod (by omega)]
      refine Nat.mod_eq_of_lt ?_
      split_ifs at hi <;> omega
    rw [hsub]
    split_ifs at hi <;> omega

/-- Putting a value appends it. -/
theorem contents_put (hh : head < n) (ht : tail < n) (hfull : next n head ≠ tail) (c : α) :
    contents n (Function.update buf head c) (next n head) tail = contents n buf head tail ++ [c] := by
  rw [contents, count_put hh ht hfull, List.range_succ, List.map_append, List.map_singleton,
    add_count hh ht, Function.update_self, contents]
  congr 1
  refine List.map_congr_left fun i hi ↦ Function.update_of_ne ?_ ..
  exact add_ne hh ht (List.mem_range.mp hi)

/-- Taking a value removes the first. -/
theorem contents_take (hh : head < n) (ht : tail < n) (hempty : head ≠ tail) :
    contents n buf head tail = buf tail :: contents n buf head (next n tail) := by
  rw [contents, count_take hh ht hempty, List.range_succ_eq_map, List.map_cons, contents,
    List.map_map, Nat.add_zero, Nat.mod_eq_of_lt ht]
  congr 1
  refine List.map_congr_left fun i _ ↦ ?_
  have hidx : (next n tail + i) % n = (tail + (i + 1)) % n := by
    rw [next, Nat.mod_add_mod]
    congr 1
    omega
  rw [hidx]
  rfl

end Ring
