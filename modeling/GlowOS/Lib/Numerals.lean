import Mathlib

/-!
# Positional numerals

The digits of a natural number, the most significant one first, as a printer produces them: zero has
one digit, and no other numeral starts with a zero. `numeral_eq` is the recursion on the quotient,
and `valueOf` reads a numeral back.
-/

namespace Numerals

/-- The digits of `n` in base `b`, the most significant one first. -/
def numeral (b n : ℕ) : List ℕ := if n = 0 then [0] else (Nat.digits b n).reverse

/-- The value of a sequence of digits. -/
def valueOf (b : ℕ) (ds : List ℕ) : ℕ := ds.foldl (fun v d ↦ b * v + d) 0

theorem valueOf_append_singleton (b : ℕ) (ds : List ℕ) (d : ℕ) :
    valueOf b (ds ++ [d]) = b * valueOf b ds + d := by
  rw [valueOf, List.foldl_append, List.foldl_cons, List.foldl_nil, valueOf]

variable {b n : ℕ}

/-- The last digit is the remainder, the others are those of the quotient. -/
theorem numeral_eq (hb : 2 ≤ b) :
    numeral b n = if n / b = 0 then [n % b] else numeral b (n / b) ++ [n % b] := by
  by_cases hn : n = 0
  · subst hn
    simp [numeral]
  · rw [numeral, if_neg hn, Nat.digits_def' hb (Nat.pos_of_ne_zero hn), List.reverse_cons]
    split_ifs with hq
    · rw [hq, Nat.digits_zero, List.reverse_nil, List.nil_append]
    · rw [numeral, if_neg hq]

theorem div_lt_of_div_ne_zero (hb : 2 ≤ b) (hq : n / b ≠ 0) : n / b < n := by
  have hn : n ≠ 0 := by
    rintro rfl
    exact hq (Nat.zero_div b)
  exact Nat.div_lt_self (Nat.pos_of_ne_zero hn) hb

theorem numeral_ne_nil (hb : 2 ≤ b) : numeral b n ≠ [] := by
  rw [numeral_eq hb]
  split_ifs <;> simp

theorem lt_of_mem_numeral (hb : 2 ≤ b) : ∀ d ∈ numeral b n, d < b := by
  induction n using Nat.strong_induction_on with
  | _ n ih =>
    intro d hd
    have hmod : n % b < b := Nat.mod_lt n (by omega)
    rw [numeral_eq hb] at hd
    split_ifs at hd with hq
    · rwa [List.mem_singleton.mp hd]
    · rcases List.mem_append.mp hd with hd | hd
      · exact ih _ (div_lt_of_div_ne_zero hb hq) d hd
      · rwa [List.mem_singleton.mp hd]

/-- The numeral of a number other than zero does not start with a zero. -/
theorem head?_numeral_ne (hb : 2 ≤ b) (hn : n ≠ 0) : (numeral b n).head? ≠ some 0 := by
  induction n using Nat.strong_induction_on with
  | _ n ih =>
    rw [numeral_eq hb]
    split_ifs with hq
    · have hmod : n % b = n := Nat.mod_eq_of_lt ((Nat.div_eq_zero_iff_lt (by omega)).mp hq)
      rw [hmod, List.head?_cons]
      exact fun h ↦ hn (Option.some.inj h)
    · rw [List.head?_append_of_ne_nil _ (numeral_ne_nil hb)]
      exact ih _ (div_lt_of_div_ne_zero hb hq) hq

/-- Reading a numeral back gives the number. -/
theorem valueOf_numeral (hb : 2 ≤ b) : valueOf b (numeral b n) = n := by
  induction n using Nat.strong_induction_on with
  | _ n ih =>
    have hdiv := Nat.div_add_mod n b
    rw [numeral_eq hb]
    split_ifs with hq
    · rw [hq, Nat.mul_zero, Nat.zero_add] at hdiv
      simpa [valueOf] using hdiv
    · rw [valueOf_append_singleton, ih _ (div_lt_of_div_ne_zero hb hq)]
      exact hdiv

/-- Each digit is a quotient's remainder. -/
theorem numeral_eq_map (hb : 2 ≤ b) (hn : n ≠ 0) :
    numeral b n = (List.range (Nat.digits b n).length).map fun j ↦
      n / b ^ ((Nat.digits b n).length - 1 - j) % b := by
  rw [numeral, if_neg hn]
  refine List.ext_getElem (by simp) fun j h1 h2 ↦ ?_
  rw [List.getElem_reverse, List.getElem_map, List.getElem_range, ← Nat.getD_digits n _ hb,
    List.getD_eq_getElem]

/-- The leading digit, and what stands in front of it. -/
theorem div_pow_mod_ne_zero (hb : 2 ≤ b) (hn : n ≠ 0) :
    n / b ^ ((Nat.digits b n).length - 1) % b ≠ 0 := by
  have hlast := Nat.getLast_digit_ne_zero b hn
  have hne : Nat.digits b n ≠ [] := Nat.digits_ne_nil_iff_ne_zero.mpr hn
  rw [List.getLast_eq_getElem] at hlast
  rw [← Nat.getD_digits n _ hb, List.getD_eq_getElem]
  exact hlast

theorem div_pow_mod_eq_zero (hb : 2 ≤ b) {i : ℕ} (hi : (Nat.digits b n).length ≤ i) :
    n / b ^ i % b = 0 := by
  rw [← Nat.getD_digits n i hb, List.getD_eq_default _ _ hi]
end Numerals
