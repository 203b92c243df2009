import Mathlib

/-!
# Byte images and little-endian words

A byte image is a function from offsets to bytes: a disk, a buffer, a record. Only finitely many
offsets of a buffer mean anything, and every statement below says which.

* `splice f o n g` is the image `f` after copying the first `n` bytes of `g` to offset `o`;
* `le32 f o` reads the 32-bit little-endian word at offset `o`;
* `ofWords w` is the image whose `k`-th word is `w k`.

Words are natural numbers. Reading always gives a number below `2 ^ 32`, and `le32_ofWords` says that
writing keeps a number of that size exactly.
-/

namespace Bytes

/-- Bytes by offset. -/
abbrev Image := ℕ → UInt8

/-! ## Copying a range -/

/-- The image `f` after the first `n` bytes of `g` have been copied to offset `o`. -/
def splice (f : Image) (o n : ℕ) (g : Image) : Image :=
  fun i ↦ if o ≤ i ∧ i < o + n then g (i - o) else f i

theorem splice_of_mem {f g : Image} {o n i : ℕ} (h₁ : o ≤ i) (h₂ : i < o + n) :
    splice f o n g i = g (i - o) := if_pos ⟨h₁, h₂⟩

theorem splice_of_lt {f g : Image} {o n i : ℕ} (h : i < o) : splice f o n g i = f i :=
  if_neg (by omega)

theorem splice_of_ge {f g : Image} {o n i : ℕ} (h : o + n ≤ i) : splice f o n g i = f i :=
  if_neg (by omega)

theorem splice_of_disjoint {f g : Image} {o n i : ℕ} (h : i < o ∨ o + n ≤ i) :
    splice f o n g i = f i := if_neg (by omega)

@[simp] theorem splice_zero (f g : Image) (o : ℕ) : splice f o 0 g = f :=
  funext fun _ ↦ splice_of_disjoint (by omega)

/-- Two ranges that follow each other are one range. -/
theorem splice_splice (f g : Image) (o m n : ℕ) :
    splice (splice f o m g) (o + m) n (fun i ↦ g (m + i)) = splice f o (m + n) g := by
  funext i
  by_cases h1 : o + m ≤ i ∧ i < o + m + n
  · rw [splice_of_mem h1.1 h1.2, splice_of_mem (by omega) (by omega)]
    congr 1
    omega
  · rw [splice_of_disjoint (by omega : i < o + m ∨ o + m + n ≤ i)]
    by_cases h2 : o ≤ i ∧ i < o + m
    · rw [splice_of_mem h2.1 h2.2, splice_of_mem (by omega) (by omega)]
    · rw [splice_of_disjoint (by omega), splice_of_disjoint (by omega)]

@[simp] theorem splice_add (f g : Image) (o n i : ℕ) :
    splice f o n g (o + i) = if i < n then g i else f (o + i) := by
  by_cases h : i < n
  · rw [splice_of_mem (by omega) (by omega), if_pos h, Nat.add_sub_cancel_left]
  · rw [splice_of_ge (by omega), if_neg h]

/-- Writing what is there changes nothing. -/
theorem splice_id (f : Image) (o n : ℕ) : (splice f o n fun i ↦ f (o + i)) = f := by
  funext i
  by_cases hi : o ≤ i ∧ i < o + n
  · rw [splice_of_mem hi.1 hi.2, Nat.add_sub_cancel' hi.1]
  · rw [splice_of_disjoint (by omega)]

theorem splice_congr {f g g' : Image} {o n : ℕ} (h : ∀ i < n, g i = g' i) :
    splice f o n g = splice f o n g' := by
  funext i
  by_cases hi : o ≤ i ∧ i < o + n
  · rw [splice_of_mem hi.1 hi.2, splice_of_mem hi.1 hi.2, h _ (by omega)]
  · rw [splice_of_disjoint (by omega), splice_of_disjoint (by omega)]

/-- A range that is read, changed in a part and written back is changed in that part. -/
theorem splice_read (f g : Image) {o m p n : ℕ} (h : p + n ≤ m) :
    splice f o m (splice (fun i ↦ f (o + i)) p n g) = splice f (o + p) n g := by
  funext i
  by_cases hin : o + p ≤ i ∧ i < o + p + n
  · rw [splice_of_mem (by omega) (by omega), splice_of_mem hin.1 hin.2,
      splice_of_mem (by omega) (by omega)]
    congr 1
    omega
  · rw [splice_of_disjoint (by omega : i < o + p ∨ o + p + n ≤ i)]
    by_cases hout : o ≤ i ∧ i < o + m
    · rw [splice_of_mem hout.1 hout.2, splice_of_disjoint (by omega)]
      congr 1
      omega
    · exact splice_of_disjoint (by omega)

/-! ## Words -/

/-- The 32-bit little-endian word at offset `o`. -/
def le32 (f : Image) (o : ℕ) : ℕ :=
  (f o).toNat + 2 ^ 8 * (f (o + 1)).toNat + 2 ^ 16 * (f (o + 2)).toNat
    + 2 ^ 24 * (f (o + 3)).toNat

theorem le32_lt (f : Image) (o : ℕ) : le32 f o < 2 ^ 32 := by
  have h0 := (f o).toNat_lt
  have h1 := (f (o + 1)).toNat_lt
  have h2 := (f (o + 2)).toNat_lt
  have h3 := (f (o + 3)).toNat_lt
  rw [le32]
  omega

/-- A word depends on its four bytes only. -/
theorem le32_congr {f g : Image} {o p : ℕ} (h : ∀ i < 4, f (o + i) = g (p + i)) :
    le32 f o = le32 g p := by
  have h0 : f o = g p := h 0 (by omega)
  rw [le32, le32, h0, h 1 (by omega), h 2 (by omega), h 3 (by omega)]

/-- A word determines its four bytes. -/
theorem le32_inj {f g : Image} {o p : ℕ} (h : le32 f o = le32 g p) :
    ∀ i < 4, f (o + i) = g (p + i) := by
  have hf := fun i ↦ (f (o + i)).toNat_lt
  have hg := fun i ↦ (g (p + i)).toNat_lt
  have hf0 := hf 0
  have hf1 := hf 1
  have hf2 := hf 2
  have hf3 := hf 3
  have hg0 := hg 0
  have hg1 := hg 1
  have hg2 := hg 2
  have hg3 := hg 3
  rw [Nat.add_zero] at hf0 hg0
  rw [le32, le32] at h
  intro i hi
  refine UInt8.toNat_inj.mp ?_
  obtain rfl | rfl | rfl | rfl : i = 0 ∨ i = 1 ∨ i = 2 ∨ i = 3 := by omega
  · rw [Nat.add_zero, Nat.add_zero]
    omega
  all_goals omega

theorem le32_splice_of_disjoint {f g : Image} {o n p : ℕ} (h : p + 4 ≤ o ∨ o + n ≤ p) :
    le32 (splice f o n g) p = le32 f p :=
  le32_congr fun i hi ↦ splice_of_disjoint (by omega)

theorem le32_splice_of_mem {f g : Image} {o n p : ℕ} (h₁ : o ≤ p) (h₂ : p + 4 ≤ o + n) :
    le32 (splice f o n g) p = le32 g (p - o) :=
  le32_congr fun i hi ↦ by
    rw [splice_of_mem (by omega) (by omega), show p + i - o = p - o + i by omega]

/-- Two images hold the same `n` bytes at offset `o`. -/
def Agree (f g : Image) (o n : ℕ) : Prop := ∀ i < n, g (o + i) = f (o + i)

theorem Agree.refl (f : Image) (o n : ℕ) : Agree f f o n := fun _ _ ↦ rfl

theorem Agree.trans {f g h : Image} {o n : ℕ} (h₁ : Agree f g o n) (h₂ : Agree g h o n) :
    Agree f h o n := fun i hi ↦ (h₂ i hi).trans (h₁ i hi)

theorem agree_splice {f g : Image} {o n p m : ℕ} (h : p + m ≤ o ∨ o + n ≤ p) :
    Agree f (splice f o n g) p m := fun i hi ↦ splice_of_disjoint (by omega)

theorem Agree.sub {f g : Image} {o n p m : ℕ} (h : Agree f g o n) (h₁ : o ≤ p)
    (h₂ : p + m ≤ o + n) : Agree f g p m := fun i hi ↦ by
  have := h (p - o + i) (by omega)
  rwa [show o + (p - o + i) = p + i by omega] at this

theorem Agree.le32 {f g : Image} {o n p : ℕ} (h : Agree f g o n) (h₁ : o ≤ p)
    (h₂ : p + 4 ≤ o + n) : le32 g p = Bytes.le32 f p :=
  le32_congr fun i hi ↦ by
    have := h (p - o + i) (by omega)
    rwa [show o + (p - o + i) = p + i by omega] at this

/-- The image whose `k`-th little-endian word is `w k`. -/
def ofWords (w : ℕ → ℕ) : Image := fun i ↦ UInt8.ofNat (w (i / 4) / 2 ^ (8 * (i % 4)))

theorem le32_ofWords {w : ℕ → ℕ} {k : ℕ} (h : w k < 2 ^ 32) : le32 (ofWords w) (4 * k) = w k := by
  have hbyte : ∀ i < 4, (ofWords w (4 * k + i)).toNat = w k / 2 ^ (8 * i) % 2 ^ 8 := by
    intro i hi
    have hdiv : (4 * k + i) / 4 = k := by omega
    have hmod : (4 * k + i) % 4 = i := by omega
    rw [ofWords, hdiv, hmod, UInt8.toNat_ofNat']
  have h0 := hbyte 0 (by omega)
  have h1 := hbyte 1 (by omega)
  have h2 := hbyte 2 (by omega)
  have h3 := hbyte 3 (by omega)
  rw [Nat.add_zero] at h0
  rw [le32, h0, h1, h2, h3]
  norm_num
  omega

/-! ## Writing a word -/

/-- The image with the word `w` at `a`. -/
def setWord (f : Image) (a w : ℕ) : Image := splice f a 4 (ofWords fun _ ↦ w)

section Words

variable {f : Image} {a b w : ℕ}

theorem le32_setWord (hw : w < 2 ^ 32) : le32 (setWord f a w) a = w := by
  rw [setWord, le32_splice_of_mem (le_refl a) (le_refl _), Nat.sub_self]
  exact le32_ofWords (k := 0) (w := fun _ ↦ w) hw

theorem le32_setWord_of_ne (ha : a % 4 = 0) (hb : b % 4 = 0) (h : b ≠ a) :
    le32 (setWord f a w) b = le32 f b :=
  le32_splice_of_disjoint (by omega)

end Words

/-! ## Writes within a range -/

/-- The images differ between `lo` and `hi` only. -/
def DiffersIn (lo hi : ℕ) (f g : Image) : Prop := ∀ i, i < lo ∨ hi ≤ i → g i = f i

namespace DiffersIn

variable {lo hi o n : ℕ} {f g h : Image}

theorem refl (lo hi : ℕ) (f : Image) : DiffersIn lo hi f f := fun _ _ ↦ rfl

theorem trans (h₁ : DiffersIn lo hi f g) (h₂ : DiffersIn lo hi g h) : DiffersIn lo hi f h :=
  fun i hi ↦ (h₂ i hi).trans (h₁ i hi)

theorem splice (ho : lo ≤ o) (hn : o + n ≤ hi) : DiffersIn lo hi f (Bytes.splice f o n g) :=
  fun i hi ↦ splice_of_disjoint (by omega)

theorem setWord {w : ℕ} (ho : lo ≤ o) (hn : o + 4 ≤ hi) : DiffersIn lo hi f (Bytes.setWord f o w) :=
  DiffersIn.splice ho hn

theorem agree (h : DiffersIn lo hi f g) (ho : o + n ≤ lo ∨ hi ≤ o) : Agree f g o n :=
  fun i hi ↦ h (o + i) (by omega)

end DiffersIn

end Bytes
