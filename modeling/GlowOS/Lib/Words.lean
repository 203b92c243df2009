import Mathlib

/-!
# Words between separators

The words of a list are its maximal runs without the separator: the pieces between separators that
are not empty. `words_eq` is the loop that takes them off one by one, skipping the separators in
front of each.
-/

namespace Words

variable {α : Type} [DecidableEq α]

/-- The maximal runs of a list without the separator. -/
def words (sep : α) (l : List α) : List (List α) := (l.splitOnP (· == sep)).filter (· ≠ [])

/-- The word behind the leading separators. -/
def firstWord (sep : α) (l : List α) : List α := (l.dropWhile (· == sep)).takeWhile (· != sep)

/-- What follows the first word. -/
def afterWord (sep : α) (l : List α) : List α := (l.dropWhile (· == sep)).dropWhile (· != sep)

variable {sep : α} {l m w : List α}

theorem words_append (l m : List α) : words sep (l ++ sep :: m) = words sep l ++ words sep m := by
  rw [words, List.splitOnP_append_cons l m (by simp), List.filter_append]
  rfl

@[simp] theorem words_nil : words sep [] = [] := rfl

theorem words_sep (l : List α) : words sep (sep :: l) = words sep l := by
  have h : words sep ([] ++ sep :: l) = words sep [] ++ words sep l := words_append [] l
  rwa [List.nil_append, words_nil, List.nil_append] at h

/-- A word is the only word of itself. -/
theorem words_word (hw : ∀ x ∈ w, x ≠ sep) (hne : w ≠ []) : words sep w = [w] := by
  rw [words, List.splitOnP_eq_singleton (fun x hx ↦ by simpa using hw x hx)]
  simp [hne]

theorem words_dropWhile (l : List α) : words sep (l.dropWhile (· == sep)) = words sep l := by
  induction l with
  | nil => rfl
  | cons x l ih =>
    rw [List.dropWhile_cons]
    split_ifs with hx
    · rw [ih, beq_iff_eq.mp hx, words_sep]
    · rfl

theorem ne_sep_of_mem_firstWord : ∀ x ∈ firstWord sep l, x ≠ sep := by
  intro x hx
  simpa using List.mem_takeWhile_imp hx

/-- What follows the first word is empty or starts with a separator. -/
theorem afterWord_eq (sep : α) (l : List α) : afterWord sep l = [] ∨ ∃ m, afterWord sep l = sep :: m := by
  cases h : afterWord sep l with
  | nil => exact Or.inl rfl
  | cons x m =>
    have hx := List.head?_dropWhile_not (· != sep) (l.dropWhile (· == sep))
    rw [afterWord] at h
    rw [h] at hx
    exact Or.inr ⟨m, by simpa using hx⟩

theorem dropWhile_eq (l : List α) :
    l.dropWhile (· == sep) = firstWord sep l ++ afterWord sep l :=
  (List.takeWhile_append_dropWhile ..).symm

/-- Without a first word there are only separators. -/
theorem dropWhile_eq_nil_of_firstWord (h : firstWord sep l = []) :
    l.dropWhile (· == sep) = [] := by
  cases hl : l.dropWhile (· == sep) with
  | nil => rfl
  | cons x m =>
    have hx := List.head?_dropWhile_not (· == sep) l
    rw [hl] at hx
    rw [firstWord, hl, List.takeWhile_cons, if_pos (by simpa using hx)] at h
    cases h

/-- The words of a list are its first word and the words of what follows. -/
theorem words_eq (l : List α) :
    words sep l =
      if firstWord sep l = [] then [] else firstWord sep l :: words sep (afterWord sep l) := by
  rw [← words_dropWhile, dropWhile_eq]
  split_ifs with hword
  · rw [← dropWhile_eq, dropWhile_eq_nil_of_firstWord hword, words_nil]
  · rcases afterWord_eq sep l with h | ⟨m, h⟩
    · rw [h, List.append_nil, words_word ne_sep_of_mem_firstWord hword, words_nil]
    · rw [h, words_append, words_word ne_sep_of_mem_firstWord hword, words_sep]
      rfl

theorem ne_nil_of_mem_words (hw : w ∈ words sep l) : w ≠ [] := by
  simpa using (List.mem_filter.mp hw).2

theorem words_eq_nil_iff : words sep l = [] ↔ firstWord sep l = [] := by
  rw [words_eq]
  split_ifs with h <;> simp [h]

end Words
