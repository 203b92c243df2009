import Mathlib

/-!
# Linear search

`firstFrom p n k` is the first of the `n` indices `k`, `k + 1`, … that satisfies `p`: the loop that
increments an index until a test succeeds or a bound is reached.
-/

namespace Scan

/-- The first index in `[k, k + n)` satisfying `p`. -/
def firstFrom (p : ℕ → Bool) : ℕ → ℕ → Option ℕ
  | 0, _ => none
  | n + 1, k => if p k then some k else firstFrom p n (k + 1)

variable {p q : ℕ → Bool} {n k i : ℕ}

theorem firstFrom_eq_some :
    firstFrom p n k = some i ↔
      k ≤ i ∧ i < k + n ∧ p i = true ∧ ∀ j, k ≤ j → j < i → p j = false := by
  induction n generalizing k with
  | zero =>
    simp only [firstFrom, reduceCtorEq, false_iff]
    omega
  | succ n ih =>
    rw [firstFrom]
    by_cases hk : p k = true
    · rw [if_pos hk, Option.some.injEq]
      constructor
      · rintro rfl
        exact ⟨le_refl k, by omega, hk, fun j h1 h2 ↦ by omega⟩
      · rintro ⟨h1, -, -, h4⟩
        by_contra hne
        have := h4 k (le_refl k) (by omega)
        simp [hk] at this
    · rw [if_neg hk, ih]
      have hkf : p k = false := by simpa using hk
      constructor
      · rintro ⟨h1, h2, h3, h4⟩
        refine ⟨by omega, by omega, h3, fun j hj1 hj2 ↦ ?_⟩
        rcases Nat.eq_or_lt_of_le hj1 with rfl | hlt
        · exact hkf
        · exact h4 j hlt hj2
      · rintro ⟨h1, h2, h3, h4⟩
        have hik : i ≠ k := fun h ↦ by simp [h, hkf] at h3
        exact ⟨by omega, by omega, h3, fun j hj1 hj2 ↦ h4 j (by omega) hj2⟩

theorem firstFrom_eq_none :
    firstFrom p n k = none ↔ ∀ j, k ≤ j → j < k + n → p j = false := by
  induction n generalizing k with
  | zero =>
    simp only [firstFrom, true_iff]
    omega
  | succ n ih =>
    rw [firstFrom]
    by_cases hk : p k = true
    · rw [if_pos hk]
      simp only [reduceCtorEq, false_iff, not_forall]
      exact ⟨k, le_refl k, by omega, by simp [hk]⟩
    · rw [if_neg hk, ih]
      have hkf : p k = false := by simpa using hk
      constructor
      · intro h j hj1 hj2
        rcases Nat.eq_or_lt_of_le hj1 with rfl | hlt
        · exact hkf
        · exact h j hlt (by omega)
      · intro h j hj1 hj2
        exact h j (by omega) (by omega)

end Scan
