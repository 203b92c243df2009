import Mathlib
import GlowOS.Lib.Bytes

/-!
# Two-level page tables

Virtual addresses of 32 bits, translated by a page directory and page tables of 1024 entries each,
which stand in the same byte image as everything else. An entry is a 32-bit word: bit 0 says whether
it is present, and the upper 20 bits are the frame it points to.

* `walk f d va` is the physical address that `va` translates to under the directory at `d`;
* `Reads f d va a` says that this walk reads the word at `a`, and `walk_congr` that nothing else
  matters;
* a directory that is its own last page table (`SelfMap`) shows its tables, and itself, at the upper
  end of the address space.
-/

namespace Paging

open Bytes

/-! ## Entries -/

/-- The index into the directory: the upper ten bits. -/
def pdeIdx (va : ℕ) : ℕ := va / 2 ^ 22

/-- The index into the page table: the ten bits below. -/
def pteIdx (va : ℕ) : ℕ := va / 2 ^ 12 % 2 ^ 10

/-- The entry is present. -/
def present (w : ℕ) : Bool := w % 2 = 1

/-- The frame an entry points to. -/
def frame (w : ℕ) : ℕ := w / 2 ^ 12 * 2 ^ 12

theorem pteIdx_lt (va : ℕ) : pteIdx va < 1024 := Nat.mod_lt _ (by decide)

theorem frame_mod (w : ℕ) : frame w % 4096 = 0 := Nat.mul_mod_left ..

theorem frame_of_aligned {p k : ℕ} (hp : p % 4096 = 0) (hk : k < 4096) : frame (p + k) = p := by
  rw [frame]
  omega

/-! ## The walk -/

/-- Where the directory entry of an address stands. -/
def pdeAddr (d va : ℕ) : ℕ := d + 4 * pdeIdx va

/-- Where the page-table entry of an address stands. -/
def pteAddr (f : Image) (d va : ℕ) : ℕ := frame (le32 f (pdeAddr d va)) + 4 * pteIdx va

/-- The physical address. -/
def walk (f : Image) (d va : ℕ) : Option ℕ :=
  if present (le32 f (pdeAddr d va)) then
    if present (le32 f (pteAddr f d va)) then
      some (frame (le32 f (pteAddr f d va)) + va % 4096)
    else none
  else none

/-- The walk of `va` reads the word at `a`. -/
def Reads (f : Image) (d va a : ℕ) : Prop :=
  a = pdeAddr d va ∨ present (le32 f (pdeAddr d va)) = true ∧ a = pteAddr f d va

section Walks

variable {f g : Image} {d va vb i o a : ℕ}

theorem walk_of_pde (h : present (le32 f (pdeAddr d va)) = false) : walk f d va = none := by
  rw [walk, if_neg (by rw [h]; decide)]

theorem walk_of_pte (h : present (le32 f (pdeAddr d va)) = true)
    (h' : present (le32 f (pteAddr f d va)) = false) : walk f d va = none := by
  rw [walk, if_pos h, if_neg (by rw [h']; decide)]

theorem walk_of_present (h : present (le32 f (pdeAddr d va)) = true)
    (h' : present (le32 f (pteAddr f d va)) = true) :
    walk f d va = some (frame (le32 f (pteAddr f d va)) + va % 4096) := by
  rw [walk, if_pos h, if_pos h']

theorem walk_eq_some : walk f d va = some a ↔ present (le32 f (pdeAddr d va)) = true ∧
    present (le32 f (pteAddr f d va)) = true ∧
      a = frame (le32 f (pteAddr f d va)) + va % 4096 := by
  constructor
  · intro h
    by_cases h1 : present (le32 f (pdeAddr d va)) = true
    · by_cases h2 : present (le32 f (pteAddr f d va)) = true
      · rw [walk_of_present h1 h2] at h
        exact ⟨h1, h2, (Option.some.inj h).symm⟩
      · rw [walk_of_pte h1 (by simpa using h2)] at h
        cases h
    · rw [walk_of_pde (by simpa using h1)] at h
      cases h
  · rintro ⟨h1, h2, rfl⟩
    exact walk_of_present h1 h2

theorem walk_eq_none : walk f d va = none ↔ present (le32 f (pdeAddr d va)) = true →
    present (le32 f (pteAddr f d va)) = false := by
  constructor
  · intro h h1
    by_contra h2
    rw [walk_of_present h1 (by simpa using h2)] at h
    cases h
  · intro h
    cases h1 : present (le32 f (pdeAddr d va)) with
    | false => exact walk_of_pde h1
    | true => exact walk_of_pte h1 (h h1)

/-- A walk depends on the words it reads only. -/
theorem walk_congr (h : ∀ a, Reads f d va a → le32 g a = le32 f a) :
    walk g d va = walk f d va ∧ (present (le32 f (pdeAddr d va)) = true →
      pteAddr g d va = pteAddr f d va) := by
  have hpde : le32 g (pdeAddr d va) = le32 f (pdeAddr d va) := h _ (.inl rfl)
  have hpte : pteAddr g d va = pteAddr f d va := by rw [pteAddr, pteAddr, hpde]
  refine ⟨?_, fun _ ↦ hpte⟩
  cases h1 : present (le32 f (pdeAddr d va)) with
  | false => rw [walk_of_pde h1, walk_of_pde (by rw [hpde, h1])]
  | true =>
    have hword : le32 g (pteAddr f d va) = le32 f (pteAddr f d va) := h _ (.inr ⟨h1, rfl⟩)
    rw [walk, walk, hpde, hpte, hword]

/-- The words of a walk are aligned. -/
theorem reads_mod (hd : d % 4096 = 0) (h : Reads f d va a) : a % 4 = 0 := by
  rcases h with rfl | ⟨-, rfl⟩
  · rw [pdeAddr]
    omega
  · have hf := frame_mod (le32 f (pdeAddr d va))
    rw [pteAddr]
    omega

/-- All addresses of a page go through the same entries. -/
theorem pdeIdx_add (hva : va % 4096 = 0) (ho : o < 4096) : pdeIdx (va + o) = pdeIdx va := by
  rw [pdeIdx, pdeIdx]
  omega

theorem pteIdx_add (hva : va % 4096 = 0) (ho : o < 4096) : pteIdx (va + o) = pteIdx va := by
  rw [pteIdx, pteIdx]
  omega

theorem pdeAddr_add (hva : va % 4096 = 0) (ho : o < 4096) : pdeAddr d (va + o) = pdeAddr d va := by
  rw [pdeAddr, pdeAddr, pdeIdx_add hva ho]

theorem pteAddr_add (hva : va % 4096 = 0) (ho : o < 4096) :
    pteAddr f d (va + o) = pteAddr f d va := by
  rw [pteAddr, pteAddr, pdeAddr_add hva ho, pteIdx_add hva ho]

theorem walk_add (hva : va % 4096 = 0) (ho : o < 4096) :
    walk f d (va + o) = (walk f d va).map (· + o) := by
  rw [walk, walk, pdeAddr_add hva ho, pteAddr_add hva ho]
  split_ifs
  · rw [Option.map_some, show (va + o) % 4096 = o by omega, hva,
      Nat.add_zero]
  · rfl
  · rfl

theorem walk_mod (h : walk f d va = some a) (hva : va % 4096 = 0) : a % 4096 = 0 := by
  obtain ⟨-, -, rfl⟩ := walk_eq_some.mp h
  rw [hva, Nat.add_zero]
  exact frame_mod _

end Walks

/-! ## A directory that maps itself -/

/-- The last entry of the directory points to the directory. -/
structure SelfMap (f : Image) (d : ℕ) : Prop where
  present : present (le32 f (d + 4 * 1023)) = true
  frame : frame (le32 f (d + 4 * 1023)) = d

namespace SelfMap

variable {f : Image} {d i o : ℕ} (h : SelfMap f d)
include h

theorem aligned : d % 4096 = 0 := by
  rw [← h.frame]
  exact frame_mod _

/-- The directory is seen at the last page. -/
theorem walk_dir (ho : o < 4096) : walk f d (0xfffff000 + o) = some (d + o) := by
  have hpde : pdeAddr d (0xfffff000 + o) = d + 4 * 1023 := by
    rw [pdeAddr, pdeIdx]
    omega
  have hpte : pteAddr f d (0xfffff000 + o) = d + 4 * 1023 := by
    rw [pteAddr, hpde, h.frame, pteIdx]
    omega
  rw [walk_of_present (by rw [hpde]; exact h.present) (by rw [hpte]; exact h.present), hpte,
    h.frame, show (0xfffff000 + o) % 4096 = o by omega]

/-- The table of entry `i` is seen at page `i` of the last four megabytes. -/
theorem walk_table (hi : i < 1024) (ho : o < 4096) :
    walk f d (0xffc00000 + 4096 * i + o) =
      if Paging.present (le32 f (d + 4 * i)) then some (Paging.frame (le32 f (d + 4 * i)) + o)
      else none := by
  have hpde : pdeAddr d (0xffc00000 + 4096 * i + o) = d + 4 * 1023 := by
    rw [pdeAddr, pdeIdx]
    omega
  have hpte : pteAddr f d (0xffc00000 + 4096 * i + o) = d + 4 * i := by
    rw [pteAddr, hpde, h.frame, pteIdx]
    omega
  rw [walk, hpde, hpte, if_pos h.present, show (0xffc00000 + 4096 * i + o) % 4096 = o by omega]

end SelfMap

end Paging
