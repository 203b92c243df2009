import Mathlib
import GlowOS.Lib.Bytes

/-!
# Strings in memory

A string of a C program is a sequence of bytes other than NUL with a NUL behind it. `Spells f o s`
says that the image `f` has the bytes `s` from the offset `o` on, and `HoldsString` adds the NUL.

`Out` is a memory that is written through a moving pointer, one byte after the other; what `puts`
wrote is spelled where it was written, and nothing else has changed.
-/

namespace CStrings

open Bytes

/-! ## Reading -/

/-- The image has the bytes `s` from the offset on. -/
def Spells (f : Image) : ℕ → List UInt8 → Prop
  | _, [] => True
  | o, c :: s => f o = c ∧ Spells f (o + 1) s

variable {f g : Image} {o : ℕ} {s t : List UInt8}

@[simp] theorem spells_nil : Spells f o [] := trivial

@[simp] theorem spells_cons {c : UInt8} : Spells f o (c :: s) ↔ f o = c ∧ Spells f (o + 1) s :=
  Iff.rfl

theorem spells_append : Spells f o (s ++ t) ↔ Spells f o s ∧ Spells f (o + s.length) t := by
  induction s generalizing o with
  | nil => simp
  | cons c s ih =>
    rw [List.cons_append, spells_cons, ih, spells_cons, List.length_cons, and_assoc,
      Nat.add_assoc o 1, Nat.add_comm 1]

/-- Only the range of the bytes matters. -/
theorem Spells.congr (h : Spells f o s) (hfg : ∀ i, o ≤ i → i < o + s.length → g i = f i) :
    Spells g o s := by
  induction s generalizing o with
  | nil => trivial
  | cons c s ih =>
    rw [List.length_cons] at hfg
    refine ⟨(hfg o (Nat.le_refl o) (by omega)).trans h.1, ih h.2 fun i h1 h2 ↦ ?_⟩
    exact hfg i (by omega) (by omega)

theorem Spells.get (h : Spells f o s) {i : ℕ} (hi : i < s.length) : f (o + i) = s[i] := by
  induction s generalizing o i with
  | nil => simp at hi
  | cons c s ih =>
    cases i with
    | zero => exact h.1
    | succ i =>
      have hi' : i < s.length := by simpa using hi
      have hget := ih h.2 hi'
      rw [List.getElem_cons_succ, ← hget]
      congr 1
      omega

/-- The image holds the string `s` at the offset. -/
structure HoldsString (f : Image) (o : ℕ) (s : List UInt8) : Prop where
  spells : Spells f o s
  terminated : f (o + s.length) = 0
  noNul : (0 : UInt8) ∉ s

theorem HoldsString.ne_zero (h : HoldsString f o s) {i : ℕ} (hi : i < s.length) :
    f (o + i) ≠ 0 := by
  rw [h.spells.get hi]
  intro h0
  exact h.noNul (h0 ▸ List.getElem_mem hi)

theorem HoldsString.congr (h : HoldsString f o s)
    (hfg : ∀ i, o ≤ i → i ≤ o + s.length → g i = f i) : HoldsString g o s :=
  ⟨h.spells.congr fun i h1 h2 ↦ hfg i h1 (by omega),
    (hfg _ (by omega) (Nat.le_refl _)).trans h.terminated, h.noNul⟩

theorem HoldsString.drop (h : HoldsString f o (s ++ t)) : HoldsString f (o + s.length) t := by
  refine ⟨(spells_append.mp h.spells).2, ?_, fun h0 ↦ h.noNul (List.mem_append_right _ h0)⟩
  have hterm := h.terminated
  rwa [List.length_append, ← Nat.add_assoc] at hterm

/-! ## Writing -/

/-- A memory and the pointer through which it is written. -/
structure Out where
  mem : Image
  ptr : ℕ

/-- Store a byte and advance the pointer. -/
@[simps] def Out.put (w : Out) (c : UInt8) : Out := ⟨Function.update w.mem w.ptr c, w.ptr + 1⟩

/-- Store bytes one after the other. -/
def Out.puts (w : Out) (s : List UInt8) : Out := s.foldl Out.put w

variable {w : Out}

@[simp] theorem Out.puts_nil : w.puts [] = w := rfl

@[simp] theorem Out.puts_cons {c : UInt8} : w.puts (c :: s) = (w.put c).puts s := rfl

theorem Out.puts_append : w.puts (s ++ t) = (w.puts s).puts t := List.foldl_append

theorem Out.puts_append_singleton {c : UInt8} : w.puts (s ++ [c]) = (w.puts s).put c :=
  Out.puts_append

@[simp] theorem Out.ptr_puts : (w.puts s).ptr = w.ptr + s.length := by
  induction s generalizing w with
  | nil => rfl
  | cons c s ih =>
    rw [Out.puts_cons, ih, List.length_cons, Out.put_ptr]
    omega

/-- What lies outside the range that is written stays. -/
theorem Out.mem_puts_of_outside {i : ℕ} (h : i < w.ptr ∨ w.ptr + s.length ≤ i) :
    (w.puts s).mem i = w.mem i := by
  induction s generalizing w with
  | nil => rfl
  | cons c s ih =>
    rw [List.length_cons] at h
    rw [Out.puts_cons, ih (by rw [Out.put_ptr]; omega), Out.put_mem]
    exact Function.update_of_ne (by omega) _ _

theorem Out.spells_puts : Spells (w.puts s).mem w.ptr s := by
  induction s generalizing w with
  | nil => trivial
  | cons c s ih =>
    refine ⟨?_, ih⟩
    rw [Out.puts_cons, Out.mem_puts_of_outside (Or.inl (Nat.lt_succ_self w.ptr)), Out.put_mem,
      Function.update_self]

end CStrings
