import Mathlib
import GlowOS.Lib.CStrings
import GlowOS.Lib.Scan

/-!
# String functions

The functions of `lib/string.c` that walk through a string of unknown length. Strings that are only
read are given by their characters. `fuel` bounds how far a walk over the memory may go; a walk that
comes upon a NUL within the bound has the same result for every larger one.
-/

namespace GlowOS.Stdio

open Bytes CStrings Scan

/-- `strlen`. -/
def strlen (fuel : ℕ) (mem : Image) (str : ℕ) : Option ℕ :=
  (firstFrom (fun i ↦ mem i == 0) fuel str).map (· - str)

/-- `strcpy`, which copies the NUL as well. -/
def strcpy (mem : Image) (dsc : ℕ) (src : List UInt8) : Image :=
  ((⟨mem, dsc⟩ : Out).puts (src ++ [0])).mem

/-- `strcat`. -/
def strcat (fuel : ℕ) (mem : Image) (dsc : ℕ) (src : List UInt8) : Option Image :=
  (strlen fuel mem dsc).map fun n ↦ strcpy mem (dsc + n) src

/-- `strrchr`: the address of the last `ch`. `last` is the one found so far. -/
def strrchr (mem : Image) (ch : UInt8) : ℕ → ℕ → Option ℕ → Option (Option ℕ)
  | 0, _, _ => none
  | fuel + 1, str, last =>
    if mem str ≠ 0 then strrchr mem ch fuel (str + 1) (if ch = mem str then some str else last)
    else some last

variable {mem : Image} {str fuel : ℕ} {s t : List UInt8}

theorem firstFrom_nul (h : HoldsString mem str s) (hfuel : s.length < fuel) :
    firstFrom (fun i ↦ mem i == 0) fuel str = some (str + s.length) := by
  rw [firstFrom_eq_some]
  refine ⟨by omega, by omega, by simpa using h.terminated, fun j h1 h2 ↦ ?_⟩
  obtain ⟨i, rfl⟩ := Nat.exists_eq_add_of_le h1
  simpa using h.ne_zero (show i < s.length by omega)

theorem strlen_eq (h : HoldsString mem str s) (hfuel : s.length < fuel) :
    strlen fuel mem str = some s.length := by
  rw [strlen, firstFrom_nul h hfuel, Option.map_some, Nat.add_sub_cancel_left]

/-- A copied string stands where it was copied to. -/
theorem holdsString_strcpy (hs : (0 : UInt8) ∉ s) : HoldsString (strcpy mem str s) str s := by
  have h := Out.spells_puts (w := ⟨mem, str⟩) (s := s ++ [0])
  obtain ⟨hspells, hnul⟩ := spells_append.mp h
  exact ⟨hspells, hnul.1, hs⟩

theorem strcpy_of_outside {i : ℕ} (h : i < str ∨ str + s.length < i) :
    strcpy mem str s i = mem i := by
  refine Out.mem_puts_of_outside (w := ⟨mem, str⟩) ?_
  rw [List.length_append, List.length_singleton]
  dsimp only
  omega

/-- Concatenation leaves the two strings one behind the other. -/
theorem strcat_eq (h : HoldsString mem str s) (ht : (0 : UInt8) ∉ t) (hfuel : s.length < fuel) :
    ∃ mem', strcat fuel mem str t = some mem' ∧ HoldsString mem' str (s ++ t) ∧
      ∀ i, i < str ∨ str + s.length + t.length < i → mem' i = mem i := by
  refine ⟨strcpy mem (str + s.length) t, ?_, ?_, fun i hi ↦ strcpy_of_outside (by omega)⟩
  · rw [strcat, strlen_eq h hfuel, Option.map_some]
  · have hcopy : HoldsString (strcpy mem (str + s.length) t) (str + s.length) t :=
      holdsString_strcpy ht
    refine ⟨spells_append.mpr ⟨?_, hcopy.spells⟩, ?_, ?_⟩
    · exact h.spells.congr fun i _ h2 ↦ strcpy_of_outside (Or.inl h2)
    · rw [List.length_append, ← Nat.add_assoc]
      exact hcopy.terminated
    · rw [List.mem_append, not_or]
      exact ⟨h.noNul, ht⟩

/-- A character that does not come again is the last one. -/
theorem strrchr_of_notMem {ch : UInt8} {last : Option ℕ} (h : HoldsString mem str s) (hch : ch ∉ s)
    (hfuel : s.length < fuel) : strrchr mem ch fuel str last = some last := by
  induction s generalizing str fuel with
  | nil =>
    obtain ⟨fuel, rfl⟩ := Nat.exists_eq_add_of_lt hfuel
    have hterm : mem str = 0 := h.terminated
    rw [strrchr, if_neg (not_not.mpr hterm)]
  | cons c s ih =>
    obtain ⟨fuel, rfl⟩ := Nat.exists_eq_add_of_lt hfuel
    simp only [List.mem_cons, not_or] at hch
    have hc : mem str = c := h.spells.1
    have hne : mem str ≠ 0 := h.ne_zero (i := 0) (by simp)
    rw [strrchr, if_pos hne, hc, if_neg hch.1]
    refine ih (HoldsString.drop (s := [c]) h) hch.2 ?_
    rw [List.length_cons]
    omega

/-- The last `ch` of a string in two parts is the one between them. -/
theorem strrchr_eq {ch : UInt8} (last : Option ℕ) (h : HoldsString mem str (s ++ ch :: t))
    (hch : ch ∉ t) (hfuel : (s ++ ch :: t).length < fuel) :
    strrchr mem ch fuel str last = some (some (str + s.length)) := by
  induction s generalizing str fuel last with
  | nil =>
    obtain ⟨fuel, rfl⟩ := Nat.exists_eq_add_of_lt hfuel
    have hc : mem str = ch := h.spells.1
    have hne : mem str ≠ 0 := h.ne_zero (i := 0) (by simp)
    rw [strrchr, if_pos hne, if_pos hc.symm]
    refine strrchr_of_notMem (HoldsString.drop (s := [ch]) h) hch ?_
    rw [List.nil_append, List.length_cons]
    omega
  | cons c s ih =>
    obtain ⟨fuel, rfl⟩ := Nat.exists_eq_add_of_lt hfuel
    have hne : mem str ≠ 0 := h.ne_zero (i := 0) (by simp)
    have htail : HoldsString mem (str + 1) (s ++ ch :: t) := HoldsString.drop (s := [c]) h
    rw [strrchr, if_pos hne, ih _ htail]
    · rw [List.length_cons, Nat.add_right_comm, Nat.add_assoc]
    · rw [List.cons_append, List.length_cons]
      omega

end GlowOS.Stdio
