import Mathlib
import GlowOS.Lib.Bytes

/-!
# Words on a stack

A list of 32-bit words laid out upwards from an address of a byte image. On a stack that grows
downwards the head of the list is the top: pushing puts a word in front, popping takes it off.

`WordsAt f a ws` says that the image `f` holds the words `ws` from `a` on. The words only depend on
the bytes they stand in, so they move along with a copy (`WordsAt.congr`) and survive writes that go
elsewhere.
-/

namespace Bytes

/-- The words `ws` stand in `f` from `a` on. -/
def WordsAt (f : Image) : ℕ → List (BitVec 32) → Prop
  | _, [] => True
  | a, w :: ws => le32 f a = w.toNat ∧ WordsAt f (a + 4) ws

namespace WordsAt

variable {f g : Image} {a b : ℕ} {w : BitVec 32} {ws vs : List (BitVec 32)}

/-- The words move along with the bytes they stand in. -/
theorem congr (h : WordsAt f a ws) (hfg : ∀ i < 4 * ws.length, g (b + i) = f (a + i)) :
    WordsAt g b ws := by
  induction ws generalizing a b with
  | nil => trivial
  | cons w ws ih =>
    rw [List.length_cons] at hfg
    refine ⟨(le32_congr fun i hi ↦ hfg i (by omega)).trans h.1, ih h.2 fun i hi ↦ ?_⟩
    rw [Nat.add_assoc, Nat.add_assoc]
    exact hfg (4 + i) (by omega)

theorem agree (h : WordsAt f a ws) (hfg : Agree f g a (4 * ws.length)) : WordsAt g a ws :=
  h.congr hfg

/-- A word pushed. -/
theorem push (h : WordsAt f (a + 4) ws) (w : BitVec 32) :
    WordsAt (setWord f a w.toNat) a (w :: ws) :=
  ⟨le32_setWord w.isLt, h.congr fun _ _ ↦ splice_of_ge (by omega)⟩

/-- A word overwritten. -/
theorem set (h : WordsAt f a ws) {i : ℕ} (hi : i < ws.length) (w : BitVec 32) :
    WordsAt (setWord f (a + 4 * i) w.toNat) a (ws.set i w) := by
  induction ws generalizing a i with
  | nil => cases hi
  | cons v vs ih =>
    cases i with
    | zero => exact push h.2 w
    | succ i =>
      refine ⟨?_, ?_⟩
      · rw [setWord, le32_splice_of_disjoint (by omega)]
        exact h.1
      · rw [show a + 4 * (i + 1) = a + 4 + 4 * i by omega]
        exact ih h.2 (Nat.lt_of_succ_lt_succ hi)

/-- The words behind the first ones. -/
theorem drop (h : WordsAt f a ws) (n : ℕ) : WordsAt f (a + 4 * n) (ws.drop n) := by
  induction n generalizing a ws with
  | zero => exact h
  | succ n ih =>
    cases ws with
    | nil => trivial
    | cons v vs =>
      rw [show a + 4 * (n + 1) = a + 4 + 4 * n by omega]
      exact ih h.2

/-- The word at an index. -/
theorem get (h : WordsAt f a ws) {i : ℕ} (hi : ws[i]? = some w) : le32 f (a + 4 * i) = w.toNat := by
  obtain ⟨hlt, rfl⟩ := List.getElem?_eq_some_iff.mp hi
  have hd := h.drop i
  rw [List.drop_eq_getElem_cons hlt] at hd
  exact hd.1

end WordsAt

end Bytes
