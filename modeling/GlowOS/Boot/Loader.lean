import Mathlib
import GlowOS.Kernel.PageAlloc

/-!
# The first page tables

`setup_page` of the loader, on whatever the memory holds. It writes the directory and a quarter of the
first page table, through which the kernel is seen in the lowest megabyte and at 0xc0000000; the
directory entries of the kernel point to tables that the loader does not clear.
-/

namespace GlowOS.Boot

open Bytes Paging

/-! ## The code -/

/-- `PAGE_DIR_TABLE_POS`. -/
def pageDirTablePos : ℕ := 0x100000

/-- `PG_US_U | PG_RW_W | PG_P`. -/
def pgUser : ℕ := 4 ||| 2 ||| 1

/-- `.clear_page_dir`. -/
def clearPageDir : ℕ → ℕ → Image → Image
  | 0, _, f => f
  | ecx + 1, esi, f => clearPageDir ecx (esi + 1) (Function.update f (pageDirTablePos + esi) 0)

/-- A loop that stores entries for one frame after the other. -/
def fillEntries (ebx : ℕ) : ℕ → ℕ → ℕ → Image → Image
  | 0, _, _, f => f
  | ecx + 1, esi, eax, f => fillEntries ebx ecx (esi + 1) (eax + 0x1000) (setWord f (ebx + esi * 4) eax)

/-- `.create_PTE`: the lowest megabyte. -/
def createPTE (ebx : ℕ) : Image → Image := fillEntries ebx 256 0 pgUser

/-- `.create_kernel_PDE`: the entries 769 to 1022. -/
def createKernelPDE : Image → Image :=
  fillEntries pageDirTablePos 254 769 (pageDirTablePos + 0x2000 ||| pgUser)

/-- `setup_page`. -/
def setupPage (f : Image) : Image :=
  let f := clearPageDir 4096 0 f
  let ebx := pageDirTablePos + 0x1000
  let eax := ebx ||| pgUser
  let f := setWord f (pageDirTablePos + 0x0) eax
  let f := setWord f (pageDirTablePos + 0xc00) eax
  let f := setWord f (pageDirTablePos + 4092) (eax - 0x1000)
  createKernelPDE (createPTE ebx f)

/-! ## The loops -/

section Loops

variable {f : Image} {ebx n esi eax k b : ℕ}

theorem clearPageDir_apply (n esi : ℕ) (f : Image) (i : ℕ) :
    clearPageDir n esi f i =
      if pageDirTablePos + esi ≤ i ∧ i < pageDirTablePos + esi + n then 0 else f i := by
  induction n generalizing esi f with
  | zero => exact (if_neg (by omega)).symm
  | succ n ih =>
    rw [clearPageDir, ih]
    by_cases h : pageDirTablePos + (esi + 1) ≤ i ∧ i < pageDirTablePos + (esi + 1) + n
    · rw [if_pos h, if_pos (by omega)]
    · rw [if_neg h]
      by_cases hi : i = pageDirTablePos + esi
      · rw [hi, Function.update_self, if_pos (by omega)]
      · rw [Function.update_of_ne hi, if_neg (by omega)]

theorem le32_fillEntries_of_ne (hebx : ebx % 4 = 0) (hb : b % 4 = 0)
    (h : ∀ k < n, b ≠ ebx + (esi + k) * 4) : le32 (fillEntries ebx n esi eax f) b = le32 f b := by
  induction n generalizing esi eax f with
  | zero => rfl
  | succ n ih =>
    have h0 := h 0 (Nat.succ_pos n)
    rw [fillEntries, ih fun k hk ↦ ?_, le32_setWord_of_ne (by omega) hb (by simpa using h0)]
    have hk := h (k + 1) (by omega)
    rwa [show esi + (k + 1) = esi + 1 + k by omega] at hk

theorem le32_fillEntries (hebx : ebx % 4 = 0) (heax : eax + 0x1000 * n < 2 ^ 32) (hk : k < n) :
    le32 (fillEntries ebx n esi eax f) (ebx + (esi + k) * 4) = eax + 0x1000 * k := by
  induction n generalizing esi eax f k with
  | zero => omega
  | succ n ih =>
    rw [fillEntries]
    cases k with
    | zero =>
      rw [le32_fillEntries_of_ne hebx (by omega) fun k _ ↦ by omega, Nat.add_zero,
        le32_setWord (by omega), Nat.mul_zero, Nat.add_zero]
    | succ k =>
      rw [show esi + (k + 1) = esi + 1 + k by omega, ih (by omega) (by omega)]
      omega

theorem differsIn_fillEntries {lo hi : ℕ} (hlo : lo ≤ ebx + esi * 4)
    (hhi : ebx + (esi + n) * 4 ≤ hi) : DiffersIn lo hi f (fillEntries ebx n esi eax f) := by
  induction n generalizing esi eax f with
  | zero => exact .refl lo hi f
  | succ n ih =>
    rw [fillEntries]
    exact (DiffersIn.setWord hlo (by omega)).trans (ih (by omega) (by omega))

end Loops

/-! ## The words -/

section Words

variable (f : Image) {k j b : ℕ}

/-- What the memory holds when the directory is cleared. -/
theorem le32_clearPageDir (hk : k < 1024) :
    le32 (clearPageDir 4096 0 f) (pageDirTablePos + 4 * k) = 0 := by
  have hzero : ∀ i < 4, clearPageDir 4096 0 f (pageDirTablePos + 4 * k + i) = 0 := fun i hi ↦ by
    rw [clearPageDir_apply, if_pos (by omega)]
  rw [le32_congr (g := fun _ ↦ 0) (p := 0) fun i hi ↦ hzero i hi]
  rfl

/-- The memory in front of the directory and behind the first quarter of the first table is left alone. -/
theorem differsIn_setupPage : DiffersIn 0x100000 0x101400 f (setupPage f) := by
  have hclear : DiffersIn 0x100000 0x101400 f (clearPageDir 4096 0 f) := by
    intro i hi
    rw [clearPageDir_apply, if_neg (by rw [pageDirTablePos]; omega)]
  have hwords := hclear.trans ((DiffersIn.setWord (o := 0x100000) (w := 0x101007) (by decide)
    (by decide)).trans ((DiffersIn.setWord (o := 0x100c00) (w := 0x101007) (by decide)
      (by decide)).trans (DiffersIn.setWord (o := 0x100ffc) (w := 0x100007) (by decide) (by decide))))
  exact (hwords.trans (differsIn_fillEntries (by decide) (by decide))).trans
    (differsIn_fillEntries (by decide) (by decide))

/-- A word behind what is written. -/
theorem le32_setupPage_behind (hb : 0x101400 ≤ b) : le32 (setupPage f) b = le32 f b :=
  le32_congr fun _ _ ↦ differsIn_setupPage f _ (.inr (by omega))

/-- The first quarter of the first table. -/
theorem le32_setupPage_pte (hj : j < 256) :
    le32 (setupPage f) (0x101000 + 4 * j) = entry (0x1000 * j) := by
  have hpte : ∀ g, le32 (createPTE 0x101000 g) (0x101000 + (0 + j) * 4) = 7 + 0x1000 * j :=
    fun g ↦ le32_fillEntries (by decide) (by decide) hj
  rw [entry_eq (by omega), Nat.add_comm (0x1000 * j),
    show 0x101000 + 4 * j = 0x101000 + (0 + j) * 4 by omega]
  refine (le32_fillEntries_of_ne (by decide) (by omega) fun k hk ↦ ?_).trans (hpte _)
  rw [pageDirTablePos]
  omega

/-- The directory. -/
theorem le32_setupPage_pde (hk : k < 1024) :
    le32 (setupPage f) (0x100000 + 4 * k) =
      if k = 0 ∨ k = 768 then entry 0x101000
      else if 769 ≤ k ∧ k < 1023 then entry (0x101000 + 0x1000 * (k - 768))
      else if k = 1023 then entry 0x100000 else 0 := by
  by_cases hkernel : 769 ≤ k ∧ k < 1023
  · have hpde : ∀ g, le32 (createKernelPDE g) (0x100000 + (769 + (k - 769)) * 4) =
        0x102007 + 0x1000 * (k - 769) :=
      fun g ↦ le32_fillEntries (by decide) (by decide) (by omega)
    rw [if_neg (by omega), if_pos hkernel, entry_eq (by omega),
      show 0x100000 + 4 * k = 0x100000 + (769 + (k - 769)) * 4 by omega]
    refine (hpde _).trans ?_
    omega
  · have hloops : le32 (setupPage f) (0x100000 + 4 * k) =
        le32 (setWord (setWord (setWord (clearPageDir 4096 0 f) 0x100000 0x101007) 0x100c00 0x101007)
          0x100ffc 0x100007) (0x100000 + 4 * k) := by
      refine (le32_fillEntries_of_ne (by decide) (by omega) fun i hi ↦ ?_).trans
        (le32_fillEntries_of_ne (by decide) (by omega) fun i hi ↦ ?_)
      · rw [pageDirTablePos]
        omega
      · rw [pageDirTablePos]
        omega
    have hclear : le32 (clearPageDir 4096 0 f) (0x100000 + 4 * k) = 0 := le32_clearPageDir f hk
    rw [hloops]
    by_cases hlast : k = 1023
    · rw [hlast, if_neg (by decide), if_neg (by decide), if_pos rfl]
      exact le32_setWord (by decide)
    · rw [le32_setWord_of_ne (by decide) (by omega) (by omega)]
      by_cases h768 : k = 768
      · rw [h768, if_pos (.inr rfl)]
        exact le32_setWord (by decide)
      · rw [le32_setWord_of_ne (by decide) (by omega) (by omega)]
        by_cases h0 : k = 0
        · rw [h0, if_pos (.inl rfl)]
          exact le32_setWord (by decide)
        · rw [le32_setWord_of_ne (by decide) (by omega) (by omega), hclear, if_neg (by omega),
            if_neg hkernel, if_neg hlast]

end Words

/-! ## The map -/

/-- The address space under a directory at 0x100000, when the memory held `f` before. -/
structure KernelMap (f g : Image) : Prop where
  /-- The lowest megabyte is mapped to itself, and a second time at 0xc0000000. -/
  low : ∀ va < 0x100000, walk g 0x100000 va = some va
  high : ∀ va < 0x100000, walk g 0x100000 (0xc0000000 + va) = some va
  /-- Nothing is mapped where processes will be. -/
  user : ∀ va, 0x400000 ≤ va → va < 0xc0000000 → walk g 0x100000 va = none
  /-- The rest of the kernel is mapped as the words say that the memory held before. -/
  kernel : ∀ va, 0xc0100000 ≤ va → va < 0xffc00000 → walk g 0x100000 va =
    if present (le32 f (0x101000 + 4 * ((va - 0xc0000000) / 4096))) = true then
      some (frame (le32 f (0x101000 + 4 * ((va - 0xc0000000) / 4096))) + va % 4096)
    else none
  /-- The directory is seen at the last page. -/
  dir : ∀ o < 4096, walk g 0x100000 (0xfffff000 + o) = some (0x100000 + o)
  outside : DiffersIn 0x100000 0x101400 f g

section Map

variable (f : Image) {va k : ℕ}

/-- A walk through one of the tables of the kernel. -/
theorem walk_setupPage (hva : va < 0xffc00000) (h : pdeIdx va = 0 ∧ k = 0 ∨ 768 ≤ pdeIdx va ∧
    k = pdeIdx va - 768) : walk (setupPage f) 0x100000 va =
      if present (le32 (setupPage f) (0x101000 + 0x1000 * k + 4 * pteIdx va)) = true then
        some (frame (le32 (setupPage f) (0x101000 + 0x1000 * k + 4 * pteIdx va)) + va % 4096)
      else none := by
  have hidx : pdeIdx va < 1023 := by
    rw [pdeIdx]
    omega
  have hpde : le32 (setupPage f) (pdeAddr 0x100000 va) = entry (0x101000 + 0x1000 * k) := by
    rw [pdeAddr, le32_setupPage_pde f (by omega)]
    split_ifs with h0 hk
    · rw [show k = 0 by omega]
    · rw [show pdeIdx va - 768 = k by omega]
    · omega
    · omega
  have hpte : pteAddr (setupPage f) 0x100000 va = 0x101000 + 0x1000 * k + 4 * pteIdx va := by
    rw [pteAddr, hpde, frame_entry (by omega)]
  rw [walk, hpde, if_pos (present_entry (by omega)), hpte]

/-- **The map that the loader leaves.** -/
theorem setupPage_kernelMap : KernelMap f (setupPage f) := by
  have hlow : ∀ a, a < 0x100000 → ∀ va, va % 0x400000 = a → va < 0xffc00000 →
      (pdeIdx va = 0 ∨ pdeIdx va = 768) → walk (setupPage f) 0x100000 va = some a := by
    intro a ha va hmod hva hidx
    have hpte : pteIdx va = a / 4096 := by
      rw [pteIdx]
      omega
    rw [walk_setupPage f hva (k := 0) (by omega), hpte, Nat.mul_zero, Nat.add_zero,
      le32_setupPage_pte f (by omega), if_pos (present_entry (by omega)), frame_entry (by omega)]
    congr 1
    omega
  refine ⟨fun va hva ↦ ?_, fun va hva ↦ ?_, fun va h1 h2 ↦ ?_, fun va h1 h2 ↦ ?_, fun o ho ↦ ?_,
    differsIn_setupPage f⟩
  · refine hlow va hva va (by omega) (by omega) (.inl ?_)
    rw [pdeIdx]
    omega
  · refine hlow va hva _ (by omega) (by omega) (.inr ?_)
    rw [pdeIdx]
    omega
  · have hidx : 1 ≤ pdeIdx va ∧ pdeIdx va < 768 := by
      rw [pdeIdx]
      omega
    refine walk_of_pde ?_
    rw [pdeAddr, le32_setupPage_pde f (by omega), if_neg (by omega), if_neg (by omega),
      if_neg (by omega)]
    rfl
  · have haddr : 0x101000 + 0x1000 * (pdeIdx va - 768) + 4 * pteIdx va =
        0x101000 + 4 * ((va - 0xc0000000) / 4096) := by
      rw [pdeIdx, pteIdx]
      omega
    have hidx : 768 ≤ pdeIdx va := by
      rw [pdeIdx]
      omega
    rw [walk_setupPage f h2 (.inr ⟨hidx, rfl⟩), haddr, le32_setupPage_behind f (by omega)]
  · have hself : SelfMap (setupPage f) 0x100000 := by
      have hlast : le32 (setupPage f) (0x100000 + 4 * 1023) = entry 0x100000 :=
        le32_setupPage_pde f (by decide)
      refine ⟨?_, ?_⟩ <;> rw [hlast]
      · exact present_entry (by decide)
      · exact frame_entry (by decide)
    exact hself.walk_dir ho

/-- The directory is the one that the page allocator starts from. -/
theorem setupPage_loaderDirectory {m : Machine} (hphys : m.phys = setupPage f)
    (hcr3 : m.cr3 = pageDirTablePos) : m.LoaderDirectory where
  cr3 := hcr3
  last := by
    rw [hphys]
    exact le32_setupPage_pde f (by decide)
  tables k hk := by
    rw [hphys, le32_setupPage_pde f (by omega)]
    split_ifs with h0 h1
    · rw [show k = 0 by omega]
    · rw [Nat.add_sub_cancel_left]
    · omega
    · omega

end Map

end GlowOS.Boot
