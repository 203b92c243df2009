import Mathlib
import GlowOS.Kernel.PageMap
import GlowOS.Lib.Ranges

/-!
# The page allocator

`malloc_page` and `mfree_page` on the kernel heap keep three structures in step: the bitmap of
virtual pages, the bitmap of frames, and the page tables. The loader has installed all page tables
of the kernel, so the word of heap page `j` stands at a fixed place, four bytes behind the one of
page `j - 1`, and no allocation needs a table of its own.

`PageInv` relates the three through two ghosts: the set of reserved pages, and the frame of each
mapped page. A page is reserved before it is mapped and unmapped before it is given back, so between
calls the two agree.
-/

namespace GlowOS

open Bytes Paging Program Ranges

/-! ## The heap behind the loader's directory -/

/-- Page `j` of the kernel heap. -/
def heapPage (j : ℕ) : ℕ := 0xc0100000 + j * pgSize

/-- The directory of the kernel as the loader leaves it: the last entry points to the directory, and
those from 768 on to page tables that stand behind it. -/
structure Machine.LoaderDirectory (m : Machine) : Prop where
  cr3 : m.cr3 = 0x100000
  last : le32 m.phys (0x100000 + 4 * 1023) = entry 0x100000
  tables : ∀ k < 255, le32 m.phys (0x100000 + 4 * (768 + k)) = entry (0x101000 + 0x1000 * k)

/-- The page-table word of heap page `j`. -/
def Machine.heapWord (m : Machine) (j : ℕ) : ℕ := le32 m.phys (0x101400 + 4 * j)

section Directory

variable {m : Machine} {j k w : ℕ}

theorem heapPage_mod (j : ℕ) : heapPage j % 4096 = 0 := by
  rw [heapPage, pgSize]
  omega

theorem heapPage_pdeIdx (hj : j < 2 ^ 15) : pdeIdx (heapPage j) = 768 + (256 + j) / 1024 := by
  rw [pdeIdx, heapPage, pgSize]
  omega

theorem heapPage_pteIdx (j : ℕ) : pteIdx (heapPage j) = (256 + j) % 1024 := by
  rw [pteIdx, heapPage, pgSize]
  omega

theorem heapPage_inj : heapPage j = heapPage k ↔ j = k := by
  rw [heapPage, heapPage, pgSize]
  omega

namespace Machine.LoaderDirectory

variable (h : m.LoaderDirectory)
include h

theorem selfMap : SelfMap m.phys m.cr3 := by
  refine ⟨?_, ?_⟩ <;> rw [h.cr3, h.last]
  · exact present_entry (by decide)
  · exact frame_entry (by decide)

theorem pde (hj : j < 2 ^ 15) :
    m.pde (heapPage j) = entry (0x101000 + 0x1000 * ((256 + j) / 1024)) := by
  rw [Machine.pde, pdeAddr, heapPage_pdeIdx hj, h.cr3]
  exact h.tables _ (by omega)

theorem pde_present (hj : j < 2 ^ 15) : present (m.pde (heapPage j)) = true := by
  rw [h.pde hj]
  exact present_entry (by omega)

theorem pteAddr (hj : j < 2 ^ 15) : m.pteAddr (heapPage j) = 0x101400 + 4 * j := by
  change frame (m.pde (heapPage j)) + 4 * pteIdx (heapPage j) = _
  rw [h.pde hj, frame_entry (by omega), heapPage_pteIdx]
  omega

/-- A heap page is translated by its word. -/
theorem walk_heapPage (hj : j < 2 ^ 15) :
    m.walk (heapPage j) = if present (m.heapWord j) then some (frame (m.heapWord j)) else none := by
  have hword : le32 m.phys (Paging.pteAddr m.phys m.cr3 (heapPage j)) = m.heapWord j :=
    congrArg (le32 m.phys) (h.pteAddr hj)
  have hp : present (le32 m.phys (pdeAddr m.cr3 (heapPage j))) = true := h.pde_present hj
  rw [Machine.walk, Paging.walk, if_pos hp, hword, heapPage_mod, Nat.add_zero]

/-- Writing the word of a heap page leaves the directory alone. -/
theorem store : (m.store (0x101400 + 4 * j) w).LoaderDirectory where
  cr3 := h.cr3
  last := by
    rw [Machine.store_phys, le32_setWord_of_ne (by omega) (by decide) (by omega)]
    exact h.last
  tables k hk := by
    rw [Machine.store_phys, le32_setWord_of_ne (by omega) (by omega) (by omega)]
    exact h.tables k hk

end Machine.LoaderDirectory

theorem heapWord_store_self (hw : w < 2 ^ 32) : (m.store (0x101400 + 4 * j) w).heapWord j = w :=
  le32_setWord hw

theorem heapWord_store_of_ne (hne : k ≠ j) :
    (m.store (0x101400 + 4 * j) w).heapWord k = m.heapWord k :=
  le32_setWord_of_ne (by omega) (by omega) (by omega)

theorem walk_store_of_ne (h : m.LoaderDirectory) (hk : k < 2 ^ 15) (hne : k ≠ j) :
    (m.store (0x101400 + 4 * j) w).walk (heapPage k) = m.walk (heapPage k) := by
  rw [h.store.walk_heapPage hk, h.walk_heapPage hk, heapWord_store_of_ne hne]

end Directory

/-! ## After `mem_pool_init` -/

/-- The bitmap of the kernel's virtual pages is as long as the one of its frames, all bits of both
are clear, and the frames lie between the page tables and the user pool. -/
structure Machine.PoolsReady (m : Machine) : Prop where
  start : m.kernelPool.phyAddrStart = 0x200000
  few : 8 * m.kernelPool.poolBitmap.btmpBytesLen < 2 ^ 15
  below : 0x200000 + 8 * m.kernelPool.poolBitmap.btmpBytesLen * pgSize ≤ m.userPool.phyAddrStart
  clear : ∀ i < 8 * m.kernelPool.poolBitmap.btmpBytesLen, m.kernelPool.poolBitmap.bit i = false
  vaddrStart : m.kernelVaddr.vaddrStart = 0xc0100000
  vaddrLen : m.kernelVaddr.vaddrBitmap.btmpBytesLen = m.kernelPool.poolBitmap.btmpBytesLen
  vaddrClear : ∀ j < 8 * m.kernelPool.poolBitmap.btmpBytesLen,
    m.kernelVaddr.vaddrBitmap.bit j = false

private theorem bit_clear (f : Image) {len i : ℕ} (hi : i < 8 * len) :
    (⟨len, splice f 0 len fun _ ↦ 0⟩ : Bitmap).bit i = false := by
  change (splice f 0 len (fun _ ↦ 0) (i / 8)).toNat.testBit _ = false
  rw [splice_of_mem (Nat.zero_le _) (by omega)]
  exact Nat.zero_testBit _

theorem memPoolInit_ready {allMem : ℕ} {b m : Machine} {u : PUnit}
    (h : Returns (memPoolInit allMem) b u m) : m.PoolsReady := by
  obtain rfl := returns_modify.mp h
  exact
    { start := rfl
      few := by
        change 8 * (_ % 2 ^ 16 / 2 / 8) < 2 ^ 15
        omega
      below := by
        change 0x200000 + 8 * (_ / 8) * 4096 ≤ 4096 * 256 + 0x100000 + _ * 4096
        omega
      clear := fun i hi ↦ bit_clear _ hi
      vaddrStart := rfl
      vaddrLen := rfl
      vaddrClear := fun j hj ↦ bit_clear _ hj }

/-! ## The invariant -/

/-- What a run of allocations from `m₀` keeps: `reserved` are the pages whose bit is set, `frameOf`
says which frame a mapped page has. -/
structure PageInv (m₀ m : Machine) (reserved : Set ℕ) (frameOf : ℕ → Option ℕ) : Prop where
  dir : m.LoaderDirectory
  poolStart : m.kernelPool.phyAddrStart = m₀.kernelPool.phyAddrStart
  poolLen : m.kernelPool.poolBitmap.btmpBytesLen = m₀.kernelPool.poolBitmap.btmpBytesLen
  user : m.userPool = m₀.userPool
  vaddrStart : m.kernelVaddr.vaddrStart = m₀.kernelVaddr.vaddrStart
  vaddrLen : m.kernelVaddr.vaddrBitmap.btmpBytesLen = m₀.kernelVaddr.vaddrBitmap.btmpBytesLen
  -- the search may find a run that ends one page behind the bitmap
  pages : ∀ j ∈ reserved, j ≤ 8 * m₀.kernelPool.poolBitmap.btmpBytesLen ∧
    m₀.kernelVaddr.vaddrBitmap.bit j = false
  vaddrBit : ∀ j, m.kernelVaddr.vaddrBitmap.bit j = true ↔
    j ∈ reserved ∨ m₀.kernelVaddr.vaddrBitmap.bit j = true
  mapped : ∀ j i, frameOf j = some i → j ∈ reserved ∧
    i < 8 * m₀.kernelPool.poolBitmap.btmpBytesLen ∧
      m.walk (heapPage j) = some (m₀.kernelPool.frameAddr i)
  inj : ∀ j k i, frameOf j = some i → frameOf k = some i → j = k
  poolBit : ∀ i, m.kernelPool.poolBitmap.bit i = true ↔
    (∃ j, frameOf j = some i) ∨ m₀.kernelPool.poolBitmap.bit i = true

namespace PageInv

variable {m₀ m m' : Machine} {reserved : Set ℕ} {frameOf : ℕ → Option ℕ} {i j n va pa : ℕ}

theorem start (hdir : m₀.LoaderDirectory) : PageInv m₀ m₀ ∅ fun _ ↦ none where
  dir := hdir
  poolStart := rfl
  poolLen := rfl
  user := rfl
  vaddrStart := rfl
  vaddrLen := rfl
  pages j hj := absurd hj (Set.notMem_empty j)
  vaddrBit j := by simp
  mapped j i hi := by cases hi
  inj j k i hj := by cases hj
  poolBit i := by simp

theorem lt (h : PageInv m₀ m reserved frameOf) (hr : m₀.PoolsReady) (hj : j ∈ reserved) :
    j < 2 ^ 15 := by
  have hle := (h.pages j hj).1
  have hfew := hr.few
  omega

/-! ### Virtual pages -/

/-- `vaddr_get` reserves pages that were not reserved. -/
theorem vaddrGet {m₀ m m' : Machine} {reserved : Set ℕ} {frameOf : ℕ → Option ℕ} {n va : ℕ}
    (h : PageInv m₀ m reserved frameOf) (hr : m₀.PoolsReady) (hn : 0 < n)
    (hret : Returns (vaddrGet .kernel n) m (some va) m') :
    ∃ s, va = heapPage s ∧ (∀ j, Holds (s, n) j → j ∉ reserved) ∧
      PageInv m₀ m' (reserved ∪ {j | Holds (s, n) j}) frameOf := by
  rw [GlowOS.vaddrGet, returns_get_bind] at hret
  cases hs : (m.vaddr .kernel).vaddrBitmap.scan n with
  | none =>
    rw [hs] at hret
    cases (returns_pure.mp hret).1
  | some s =>
    rw [hs] at hret
    obtain ⟨-, hret⟩ := returns_check_bind.mp (returns_modify_bind.mp hret)
    obtain ⟨hva, rfl⟩ := returns_pure.mp hret
    obtain rfl := Option.some.inj hva
    obtain ⟨hlen, hfree⟩ := Bitmap.scan_spec (b := m.kernelVaddr.vaddrBitmap) hn hs
    have hnew : ∀ j, Holds (s, n) j → ¬(j ∈ reserved ∨ m₀.kernelVaddr.vaddrBitmap.bit j = true) :=
      fun j hj hset ↦ by simpa [hfree j hj.1 hj.2] using (h.vaddrBit j).mpr hset
    refine ⟨s, ?_, fun j hj hres ↦ hnew j hj (.inl hres), ?_⟩
    · change m.kernelVaddr.vaddrStart + s * pgSize = _
      rw [h.vaddrStart, hr.vaddrStart, heapPage]
    · rw [h.vaddrLen, hr.vaddrLen] at hlen
      refine ⟨⟨h.dir.cr3, h.dir.last, h.dir.tables⟩, h.poolStart, h.poolLen, h.user, h.vaddrStart,
        ?_, ?_, ?_, ?_, h.inj, h.poolBit⟩
      · exact (Bitmap.setRun_btmpBytesLen ..).trans h.vaddrLen
      · rintro j (hj | ⟨h1, h2⟩)
        · exact h.pages j hj
        · refine ⟨?_, ?_⟩
          · dsimp only at h2
            omega
          · simpa using fun hb ↦ hnew j ⟨h1, h2⟩ (.inr hb)
      · intro j
        change (m.kernelVaddr.vaddrBitmap.setRun s n true).bit j = true ↔ _
        rw [Bitmap.bit_setRun]
        by_cases hj : s ≤ j ∧ j < s + n
        · rw [if_pos hj]
          exact iff_of_true rfl (.inl (.inr hj))
        · rw [if_neg hj, h.vaddrBit]
          refine or_congr_left ⟨fun hres ↦ .inl hres, ?_⟩
          rintro (hres | hin)
          · exact hres
          · exact absurd hin hj
      · intro j i hi
        obtain ⟨h1, h2, h3⟩ := h.mapped j i hi
        exact ⟨.inl h1, h2, h3⟩

/-- `vaddr_remove` gives back pages that are not mapped any more. -/
theorem vaddrRemove {m₀ m m' : Machine} {reserved : Set ℕ} {frameOf : ℕ → Option ℕ} {n s : ℕ}
    {u : PUnit} (h : PageInv m₀ m reserved frameOf) (hr : m₀.PoolsReady)
    (hin : ∀ j, Holds (s, n) j → j ∈ reserved ∧ frameOf j = none)
    (hret : Returns (vaddrRemove .kernel (heapPage s) n) m u m') :
    PageInv m₀ m' (reserved \ {j | Holds (s, n) j}) frameOf := by
  obtain rfl := returns_modify.mp hret
  have hidx : (heapPage s - m.kernelVaddr.vaddrStart) / pgSize = s := by
    rw [h.vaddrStart, hr.vaddrStart, heapPage, pgSize]
    omega
  refine ⟨⟨h.dir.cr3, h.dir.last, h.dir.tables⟩, h.poolStart, h.poolLen, h.user, h.vaddrStart,
    ?_, fun j hj ↦ h.pages j hj.1, ?_, ?_, h.inj, h.poolBit⟩
  · exact (Bitmap.setRun_btmpBytesLen ..).trans h.vaddrLen
  · intro j
    change (m.kernelVaddr.vaddrBitmap.setRun ((heapPage s - m.kernelVaddr.vaddrStart) / pgSize)
      n false).bit j = true ↔ _
    rw [hidx, Bitmap.bit_setRun]
    by_cases hj : s ≤ j ∧ j < s + n
    · rw [if_pos hj]
      have hfree := (h.pages j (hin j hj).1).2
      refine iff_of_false (by decide) ?_
      rintro (⟨-, hno⟩ | hb)
      · exact hno hj
      · simp [hfree] at hb
    · rw [if_neg hj, h.vaddrBit]
      exact or_congr_left ⟨fun hres ↦ ⟨hres, hj⟩, fun hres ↦ hres.1⟩
  · intro j i hi
    obtain ⟨h1, h2, h3⟩ := h.mapped j i hi
    refine ⟨⟨h1, fun hj ↦ ?_⟩, h2, h3⟩
    rw [(hin j hj).2] at hi
    cases hi

/-! ### Frames -/

theorem frameAddr_mod (hr : m₀.PoolsReady) (i : ℕ) : m₀.kernelPool.frameAddr i % 4096 = 0 := by
  rw [Pool.frameAddr, hr.start, pgSize]
  omega

theorem frameAddr_lt (hr : m₀.PoolsReady) (hi : i < 8 * m₀.kernelPool.poolBitmap.btmpBytesLen) :
    m₀.kernelPool.frameAddr i < m₀.userPool.phyAddrStart := by
  have hbelow := hr.below
  rw [Pool.frameAddr, hr.start]
  rw [pgSize] at *
  omega

theorem frameAddr_inj : m₀.kernelPool.frameAddr i = m₀.kernelPool.frameAddr j ↔ i = j := by
  rw [Pool.frameAddr, Pool.frameAddr, pgSize]
  omega

/-- One round of `malloc_page` maps a reserved page to a free frame. -/
theorem mapPage {t : Machine} (h : PageInv m₀ m reserved frameOf) (hr : m₀.PoolsReady)
    (hj : j ∈ reserved) (hnone : frameOf j = none) {u : PUnit}
    (hret : Returns (palloc .kernel) m (some pa) t)
    (hadd : Returns (pageTableAdd (heapPage j) pa) t u m') :
    ∃ i, PageInv m₀ m' reserved (Function.update frameOf j (some i)) := by
  cases hs : m.kernelPool.poolBitmap.scan 1 with
  | none =>
    cases (hret.unique (returns_palloc_none .kernel hs)).1
  | some i =>
    obtain ⟨hpa, ht⟩ := hret.unique (returns_palloc .kernel hs)
    rw [Machine.pool] at hpa ht
    subst ht
    obtain rfl := Option.some.inj hpa
    obtain ⟨hlen, hfree, -⟩ := Bitmap.scan_one_eq_some.mp hs
    rw [h.poolLen] at hlen
    have hlt := h.lt hr hj
    -- taking the frame does not touch memory
    have hdir : (m.setPoolBitmap (m.kernelPool.poolBitmap.set i true) .kernel).LoaderDirectory :=
      ⟨h.dir.cr3, h.dir.last, h.dir.tables⟩
    have hm' := pageTableAdd_inv hdir.selfMap (by rw [heapPage_pdeIdx hlt]; omega)
      (hdir.pde_present hlt) hadd
    rw [hdir.pteAddr hlt] at hm'
    have hframe : m.kernelPool.frameAddr i = m₀.kernelPool.frameAddr i := by
      rw [Pool.frameAddr, Pool.frameAddr, h.poolStart]
    have hmod := frameAddr_mod hr i
    have hpa : m₀.kernelPool.frameAddr i < 2 ^ 32 := by
      have hfew := hr.few
      rw [Pool.frameAddr, hr.start, pgSize]
      omega
    rw [hframe] at hm'
    have hunused : ∀ k, frameOf k ≠ some i := by
      intro k hk
      have hset := (h.poolBit i).mpr (.inl ⟨k, hk⟩)
      rw [hfree] at hset
      cases hset
    subst hm'
    refine ⟨i, hdir.store, h.poolStart, h.poolLen, h.user, h.vaddrStart, h.vaddrLen, h.pages,
      h.vaddrBit, ?_, ?_, ?_⟩
    · intro k i' hk
      by_cases hkj : k = j
      · subst hkj
        rw [Function.update_self] at hk
        obtain rfl := Option.some.inj hk
        refine ⟨hj, hlen, ?_⟩
        rw [hdir.store.walk_heapPage hlt, heapWord_store_self (entry_lt hmod hpa),
          if_pos (present_entry hmod), frame_entry hmod]
      · rw [Function.update_of_ne hkj] at hk
        obtain ⟨h1, h2, h3⟩ := h.mapped k i' hk
        exact ⟨h1, h2, (walk_store_of_ne hdir (h.lt hr h1) hkj).trans h3⟩
    · intro k l i' hk hl
      by_cases hkj : k = j <;> by_cases hlj : l = j
      · rw [hkj, hlj]
      · rw [hkj, Function.update_self] at hk
        rw [Function.update_of_ne hlj] at hl
        exact absurd (hl.trans hk.symm) (hunused l)
      · rw [Function.update_of_ne hkj] at hk
        rw [hlj, Function.update_self] at hl
        exact absurd (hk.trans hl.symm) (hunused k)
      · rw [Function.update_of_ne hkj] at hk
        rw [Function.update_of_ne hlj] at hl
        exact h.inj k l i' hk hl
    · intro i'
      change (m.kernelPool.poolBitmap.set i true).bit i' = true ↔ _
      rw [Bitmap.bit_set]
      by_cases hi : i' = i
      · rw [if_pos hi, hi]
        exact iff_of_true rfl (.inl ⟨j, Function.update_self ..⟩)
      · rw [if_neg hi, h.poolBit]
        refine or_congr_left (exists_congr fun k ↦ ?_)
        by_cases hkj : k = j
        · rw [hkj, Function.update_self, hnone]
          exact iff_of_false (by simp) (by simpa using Ne.symm hi)
        · rw [Function.update_of_ne hkj]

/-- The loop of `malloc_page`: all pages get frames, and nothing else changes. -/
theorem mapPages {m₀ : Machine} {reserved : Set ℕ} (hr : m₀.PoolsReady) {n s : ℕ} {m m' : Machine}
    {frameOf : ℕ → Option ℕ} (h : PageInv m₀ m reserved frameOf)
    (hin : ∀ j, Holds (s, n) j → j ∈ reserved ∧ frameOf j = none)
    (hret : Returns (mapPages .kernel (heapPage s) n) m true m') :
    ∃ frameOf', PageInv m₀ m' reserved frameOf' ∧
      ∀ j, (frameOf' j).isSome = true ↔ (frameOf j).isSome = true ∨ Holds (s, n) j := by
  induction n generalizing s m frameOf with
  | zero =>
    obtain ⟨-, rfl⟩ := returns_pure.mp hret
    refine ⟨frameOf, h, fun j ↦ ⟨.inl, ?_⟩⟩
    rintro (hj | ⟨h1, h2⟩)
    · exact hj
    · dsimp only at h1 h2
      omega
  | succ n ih =>
    obtain ⟨r, t, h1, hret⟩ := returns_bind.mp hret
    cases r with
    | none => cases (returns_pure.mp hret).1
    | some pa =>
      obtain ⟨u, t', h2, hret⟩ := returns_bind.mp hret
      obtain ⟨hs, hnone⟩ := hin s ⟨le_refl s, by dsimp only; omega⟩
      obtain ⟨i, hinv⟩ := h.mapPage hr hs hnone h1 h2
      have hnext : heapPage s + pgSize = heapPage (s + 1) := by
        rw [heapPage, heapPage, pgSize]
        omega
      rw [hnext] at hret
      obtain ⟨frameOf', hinv', hsome⟩ := ih hinv (by
        intro j hj
        obtain ⟨h3, h4⟩ := hj
        dsimp only at h3 h4
        rw [Function.update_of_ne (by omega)]
        exact hin j ⟨by dsimp only; omega, by dsimp only; omega⟩) hret
      refine ⟨frameOf', hinv', fun j ↦ (hsome j).trans ?_⟩
      by_cases hj : j = s
      · rw [hj, Function.update_self]
        exact iff_of_true (.inl rfl) (.inr ⟨le_refl s, by dsimp only; omega⟩)
      · rw [Function.update_of_ne hj]
        refine or_congr_right ?_
        rw [Holds, Holds]
        dsimp only
        omega

/-- One round of `mfree_page` takes a mapped page and its frame back. -/
theorem unmapPage (h : PageInv m₀ m reserved frameOf) (hr : m₀.PoolsReady)
    (hj : frameOf j = some i) :
    Returns (addrV2p (heapPage j)) m (m₀.kernelPool.frameAddr i) m ∧
      ∃ t m', Returns (pfree (m₀.kernelPool.frameAddr i)) m () t ∧
        Returns (pageTablePteRemove (heapPage j)) t () m' ∧
          PageInv m₀ m' reserved (Function.update frameOf j none) := by
  obtain ⟨hres, hi, hwalk⟩ := h.mapped j i hj
  have hlt := h.lt hr hres
  have hidx : pdeIdx (heapPage j) < 1024 := by
    rw [heapPage_pdeIdx hlt]
    omega
  have hdir : (m.setPoolBitmap (m.kernelPool.poolBitmap.set i false) .kernel).LoaderDirectory :=
    ⟨h.dir.cr3, h.dir.last, h.dir.tables⟩
  have hbit : (m₀.kernelPool.frameAddr i - m.kernelPool.phyAddrStart) / pgSize = i := by
    rw [h.poolStart, Pool.frameAddr, pgSize]
    omega
  have hfree : Returns (pfree (m₀.kernelPool.frameAddr i)) m ()
      (m.setPoolBitmap (m.kernelPool.poolBitmap.set i false) .kernel) := by
    have hbelow := frameAddr_lt hr hi
    rw [pfree, returns_get_bind, h.user, if_neg (by omega)]
    exact returns_modify.mpr (by rw [hbit])
  refine ⟨addrV2p_walk h.dir.selfMap hidx hwalk, _, _, hfree,
    pageTablePteRemove_returns hdir.selfMap hidx (hdir.pde_present hlt), ?_⟩
  have hclear := (walk_store_cleared hdir.selfMap.aligned (w := le32 m.phys (m.pteAddr (heapPage j))) rfl).2
  rw [hdir.pteAddr hlt] at hclear ⊢
  refine ⟨hdir.store, h.poolStart, h.poolLen, h.user, h.vaddrStart, h.vaddrLen, h.pages,
    h.vaddrBit, ?_, ?_, ?_⟩
  · intro k i' hk
    by_cases hkj : k = j
    · rw [hkj, Function.update_self] at hk
      cases hk
    · rw [Function.update_of_ne hkj] at hk
      obtain ⟨h1, h2, h3⟩ := h.mapped k i' hk
      exact ⟨h1, h2, (walk_store_of_ne hdir (h.lt hr h1) hkj).trans h3⟩
  · intro k l i' hk hl
    by_cases hkj : k = j
    · rw [hkj, Function.update_self] at hk
      cases hk
    · by_cases hlj : l = j
      · rw [hlj, Function.update_self] at hl
        cases hl
      · rw [Function.update_of_ne hkj] at hk
        rw [Function.update_of_ne hlj] at hl
        exact h.inj k l i' hk hl
  · intro i'
    change (m.kernelPool.poolBitmap.set i false).bit i' = true ↔ _
    rw [Bitmap.bit_set]
    by_cases hi' : i' = i
    · rw [if_pos hi', hi']
      refine iff_of_false (by decide) ?_
      rintro (⟨k, hk⟩ | hb)
      · by_cases hkj : k = j
        · rw [hkj, Function.update_self] at hk
          cases hk
        · rw [Function.update_of_ne hkj] at hk
          exact hkj (h.inj k j i hk hj)
      · rw [hr.clear i hi] at hb
        cases hb
    · rw [if_neg hi', h.poolBit]
      refine or_congr_left (exists_congr fun k ↦ ?_)
      by_cases hkj : k = j
      · rw [hkj, Function.update_self, hj]
        exact iff_of_false (by simpa using Ne.symm hi') (by simp)
      · rw [Function.update_of_ne hkj]

/-- The loop of `mfree_page` goes through, and unmaps its pages. -/
theorem unmapPages {m₀ : Machine} {reserved : Set ℕ} (hr : m₀.PoolsReady) {n s : ℕ} {m : Machine}
    {frameOf : ℕ → Option ℕ} (h : PageInv m₀ m reserved frameOf)
    (hin : ∀ j, Holds (s, n) j → (frameOf j).isSome = true) :
    ∃ m' frameOf', Returns (unmapPages (fun m pa ↦ m.kernelPool.phyAddrStart ≤ pa ∧
        pa < m.userPool.phyAddrStart) (heapPage s) n) m () m' ∧
      PageInv m₀ m' reserved frameOf' ∧
        ∀ j, (frameOf' j).isSome = true ↔ (frameOf j).isSome = true ∧ ¬Holds (s, n) j := by
  induction n generalizing s m frameOf with
  | zero =>
    refine ⟨m, frameOf, returns_pure.mpr ⟨rfl, rfl⟩, h, fun j ↦ ⟨fun hj ↦ ⟨hj, ?_⟩, And.left⟩⟩
    rintro ⟨h1, h2⟩
    dsimp only at h1 h2
    omega
  | succ n ih =>
    obtain ⟨i, hi⟩ := Option.isSome_iff_exists.mp (hin s ⟨le_refl s, by dsimp only; omega⟩)
    obtain ⟨h1, t, t', h2, h3, hinv⟩ := h.unmapPage hr hi
    obtain ⟨m', frameOf', hret, hinv', hsome⟩ := ih (s := s + 1) hinv (fun j ⟨h4, h5⟩ ↦ by
      dsimp only at h4 h5
      rw [Function.update_of_ne (by omega)]
      exact hin j ⟨by dsimp only; omega, by dsimp only; omega⟩)
    have hnext : heapPage s + pgSize = heapPage (s + 1) := by
      rw [heapPage, heapPage, pgSize]
      omega
    have hlow : m.kernelPool.phyAddrStart ≤ m₀.kernelPool.frameAddr i := by
      rw [h.poolStart, Pool.frameAddr]
      omega
    have hhigh : m₀.kernelPool.frameAddr i < m.userPool.phyAddrStart := by
      rw [h.user]
      exact frameAddr_lt hr (h.mapped s i hi).2.1
    refine ⟨m', frameOf', ?_, hinv', fun j ↦ (hsome j).trans ?_⟩
    · refine returns_bind.mpr ⟨_, m, h1, returns_get_bind.mpr (returns_check_bind.mpr ⟨?_, ?_⟩)⟩
      · exact ⟨frameAddr_mod hr i, decide_eq_true ⟨hlow, hhigh⟩⟩
      · refine returns_bind.mpr ⟨(), t, h2, returns_bind.mpr ⟨(), t', h3, ?_⟩⟩
        rw [hnext]
        exact hret
    · by_cases hj : j = s
      · rw [hj, Function.update_self]
        refine iff_of_false (fun hno ↦ by cases hno.1) ?_
        exact fun hno ↦ hno.2 ⟨le_refl s, by dsimp only; omega⟩
      · rw [Function.update_of_ne hj]
        refine and_congr_right fun _ ↦ not_congr ?_
        rw [Holds, Holds]
        dsimp only
        omega

end PageInv

/-! ## Between calls -/

/-- The ranges `live` of heap pages are handed out, and nothing else is. -/
structure Settled (m₀ m : Machine) (live : List (ℕ × ℕ)) (frameOf : ℕ → Option ℕ) : Prop where
  inv : PageInv m₀ m {j | Covers live j} frameOf
  mapped : ∀ j, (frameOf j).isSome = true ↔ Covers live j
  apart : Apart live
  pos : ∀ r ∈ live, 0 < r.2

/-- The addresses of ranges of heap pages. -/
def heapRange (r : ℕ × ℕ) : ℕ × ℕ := (heapPage r.1, r.2)

theorem heapRange_injective : Function.Injective heapRange := by
  rintro ⟨a, b⟩ ⟨c, d⟩ h
  obtain ⟨h1, h2⟩ := Prod.mk.inj h
  exact Prod.ext (heapPage_inj.mp h1) h2

section Calls

variable {m₀ m m' : Machine} {live : List (ℕ × ℕ)} {frameOf : ℕ → Option ℕ} {n s va : ℕ}

theorem Settled.mallocPage (h : Settled m₀ m live frameOf) (hr : m₀.PoolsReady)
    (hret : Returns (mallocPage .kernel n) m (some va) m') :
    ∃ s frameOf', va = heapPage s ∧ Settled m₀ m' ((s, n) :: live) frameOf' := by
  obtain ⟨⟨hn, -⟩, hret⟩ := returns_check_bind.mp hret
  obtain ⟨r, t, h1, hret⟩ := returns_bind.mp hret
  cases r with
  | none => cases (returns_pure.mp hret).1
  | some v =>
    obtain ⟨ok, t', h2, hret⟩ := returns_bind.mp hret
    obtain ⟨hva, rfl⟩ := returns_pure.mp hret
    cases ok with
    | false => cases hva
    | true =>
      obtain rfl := Option.some.inj hva
      obtain ⟨s, rfl, hnew, hinv⟩ := h.inv.vaddrGet hr hn h1
      obtain ⟨frameOf', hinv', hsome⟩ := hinv.mapPages hr (fun j hj ↦ ⟨.inr hj, by
        by_contra hne
        exact hnew j hj ((h.mapped j).mp (Option.isSome_iff_ne_none.mpr hne))⟩) h2
      have hcov : {j | Covers live j} ∪ {j | Holds (s, n) j} = {j | Covers ((s, n) :: live) j} :=
        Set.ext fun j ↦ or_comm.trans covers_cons.symm
      rw [hcov] at hinv'
      refine ⟨s, frameOf', rfl, hinv', fun j ↦ ?_, h.apart.cons h.pos hn hnew, ?_⟩
      · rw [hsome, h.mapped, covers_cons, or_comm]
      · exact List.forall_mem_cons.mpr ⟨hn, h.pos⟩

/-- Giving a range back does not stop. -/
theorem Settled.mfreePage (h : Settled m₀ m live frameOf) (hr : m₀.PoolsReady)
    (hmem : (s, n) ∈ live) : ∃ m' frameOf', Returns (mfreePage .kernel (heapPage s) n) m () m' ∧
      Settled m₀ m' (live.erase (s, n)) frameOf' := by
  have hn := h.pos _ hmem
  have hheld : ∀ j, Holds (s, n) j → (frameOf j).isSome = true :=
    fun j hj ↦ (h.mapped j).mpr ⟨_, hmem, hj⟩
  obtain ⟨i, hi⟩ := Option.isSome_iff_exists.mp
    (hheld s ⟨le_refl s, Nat.lt_add_of_pos_right hn⟩)
  obtain ⟨haddr, -⟩ := h.inv.unmapPage hr hi
  obtain ⟨t, frameOf', hloop, hinv, hsome⟩ := h.inv.unmapPages hr hheld
  have hfree : ∀ j, Holds (s, n) j → j ∈ {j | Covers live j} ∧ frameOf' j = none := by
    refine fun j hj ↦ ⟨⟨_, hmem, hj⟩, ?_⟩
    by_contra hne
    exact ((hsome j).mp (Option.isSome_iff_ne_none.mpr hne)).2 hj
  have hlow : 0x102000 ≤ m₀.kernelPool.frameAddr i := by
    rw [Pool.frameAddr, hr.start]
    omega
  have hhigh : ¬m.userPool.phyAddrStart ≤ m₀.kernelPool.frameAddr i := by
    rw [h.inv.user]
    exact Nat.not_le_of_lt (PageInv.frameAddr_lt hr (h.inv.mapped s i hi).2.1)
  have hcov : {j | Covers live j} \ {j | Holds (s, n) j} = {j | Covers (live.erase (s, n)) j} :=
    Set.ext fun j ↦ (covers_erase h.apart hmem).symm
  have hremove := hinv.vaddrRemove (u := ()) hr hfree (returns_modify.mpr rfl)
  rw [hcov] at hremove
  refine ⟨_, frameOf', ?_, hremove, fun j ↦ ?_, h.apart.erase,
    fun r hrm ↦ h.pos r (List.mem_of_mem_erase hrm)⟩
  · refine returns_check_bind.mpr ⟨⟨hn, heapPage_mod s⟩, returns_bind.mpr ⟨_, m, haddr, ?_⟩⟩
    refine returns_check_bind.mpr ⟨⟨PageInv.frameAddr_mod hr i, hlow⟩, returns_get_bind.mpr ?_⟩
    rw [if_neg hhigh]
    exact returns_bind.mpr ⟨(), t, hloop, returns_modify.mpr rfl⟩
  · rw [hsome, h.mapped, covers_erase h.apart hmem]

end Calls

/-! ## Runs -/

/-- Runs from `m₀`; `live` lists what was handed out and is not given back. -/
inductive PageRun (m₀ : Machine) : List (ℕ × ℕ) → Machine → Prop
  | start : PageRun m₀ [] m₀
  | malloc {live m m' n va} : PageRun m₀ live m →
      Returns (mallocPage .kernel n) m (some va) m' → PageRun m₀ ((va, n) :: live) m'
  | mfree {live m m' n va} : PageRun m₀ live m → (va, n) ∈ live →
      Returns (mfreePage .kernel va n) m () m' → PageRun m₀ (live.erase (va, n)) m'

/-- `va` is the address of a page of a live range. -/
def LivePage (live : List (ℕ × ℕ)) (va : ℕ) : Prop :=
  ∃ r ∈ live, ∃ k < r.2, va = r.1 + k * pgSize

theorem livePage_map {ranges : List (ℕ × ℕ)} {va : ℕ} :
    LivePage (ranges.map heapRange) va ↔ ∃ j, Covers ranges j ∧ va = heapPage j := by
  constructor
  · rintro ⟨r, hr, k, hk, rfl⟩
    obtain ⟨⟨s, n⟩, hmem, rfl⟩ := List.mem_map.mp hr
    refine ⟨s + k, ⟨_, hmem, Nat.le_add_right .., Nat.add_lt_add_left hk s⟩, ?_⟩
    change heapPage s + k * pgSize = _
    rw [heapPage, heapPage, Nat.add_mul, Nat.add_assoc]
  · rintro ⟨j, ⟨⟨s, n⟩, hmem, h1, h2⟩, rfl⟩
    dsimp only at h1 h2
    refine ⟨_, List.mem_map_of_mem hmem, j - s, ?_, ?_⟩
    · change j - s < n
      omega
    · change heapPage j = heapPage s + (j - s) * pgSize
      rw [heapPage, heapPage, pgSize]
      omega

theorem livePage_heapPage {ranges : List (ℕ × ℕ)} {j : ℕ} :
    LivePage (ranges.map heapRange) (heapPage j) ↔ Covers ranges j := by
  rw [livePage_map]
  constructor
  · rintro ⟨k, hk, heq⟩
    rwa [heapPage_inj.mp heq]
  · exact fun hj ↦ ⟨j, hj, rfl⟩

/-- A run only ever leaves settled states. -/
theorem PageRun.settled {m₀ m : Machine} {live : List (ℕ × ℕ)} (hr : m₀.PoolsReady)
    (hdir : m₀.LoaderDirectory) (h : PageRun m₀ live m) :
    ∃ ranges frameOf, live = ranges.map heapRange ∧ Settled m₀ m ranges frameOf := by
  induction h with
  | start =>
    refine ⟨[], fun _ ↦ none, rfl, ?_, fun j ↦ ?_, List.Pairwise.nil, fun r hr ↦ by cases hr⟩
    · have hempty : {j | Covers [] j} = ∅ := Set.eq_empty_of_forall_notMem fun _ ↦ not_covers_nil
      rw [hempty]
      exact PageInv.start hdir
    · exact iff_of_false (by decide) not_covers_nil
  | malloc _ hret ih =>
    obtain ⟨ranges, frameOf, rfl, hset⟩ := ih
    obtain ⟨s, frameOf', rfl, hset'⟩ := hset.mallocPage hr hret
    exact ⟨(s, _) :: ranges, frameOf', rfl, hset'⟩
  | mfree _ hmem hret ih =>
    obtain ⟨ranges, frameOf, rfl, hset⟩ := ih
    obtain ⟨⟨s, n⟩, hmem', heq⟩ := List.mem_map.mp hmem
    obtain ⟨rfl, rfl⟩ := Prod.mk.inj heq
    obtain ⟨t, frameOf', hret', hset'⟩ := hset.mfreePage hr hmem'
    obtain ⟨-, rfl⟩ := hret.unique hret'
    exact ⟨ranges.erase (s, n), frameOf', (List.map_erase heapRange_injective ranges).symm, hset'⟩

/-- **Conservation of pages.** Over any run of `malloc_page` and `mfree_page` on the kernel heap the
live ranges are disjoint, each of their pages has a frame of its own, the bits that are set are
those of the live pages and their frames, and what is live can be given back; with nothing live, all
bitmaps are what they were. -/
theorem pageRun_conserves {allMem : ℕ} {boot m₀ m : Machine} {live : List (ℕ × ℕ)}
    (hinit : Returns (memPoolInit allMem) boot () m₀) (hdir : m₀.LoaderDirectory)
    (h : PageRun m₀ live m) :
    (live.Pairwise fun r s ↦ r.1 + r.2 * pgSize ≤ s.1 ∨ s.1 + s.2 * pgSize ≤ r.1) ∧
    (∀ va, LivePage live va → ∃ i < 8 * m.kernelPool.poolBitmap.btmpBytesLen,
      m.walk va = some (m.kernelPool.frameAddr i)) ∧
    (∀ va vb, LivePage live va → LivePage live vb → m.walk va = m.walk vb → va = vb) ∧
    (∀ i < 8 * m.kernelPool.poolBitmap.btmpBytesLen, m.kernelPool.poolBitmap.bit i = true ↔
      ∃ va, LivePage live va ∧ m.walk va = some (m.kernelPool.frameAddr i)) ∧
    (∀ j < 8 * m.kernelVaddr.vaddrBitmap.btmpBytesLen, m.kernelVaddr.vaddrBitmap.bit j = true ↔
      LivePage live (m.kernelVaddr.vaddrStart + j * pgSize)) ∧
    (∀ r ∈ live, ∃ m', Returns (mfreePage .kernel r.1 r.2) m () m') ∧
    m.userPool = m₀.userPool ∧
    (live = [] → (∀ i, m.kernelPool.poolBitmap.bit i = m₀.kernelPool.poolBitmap.bit i) ∧
      ∀ j, m.kernelVaddr.vaddrBitmap.bit j = m₀.kernelVaddr.vaddrBitmap.bit j) := by
  have hr := memPoolInit_ready hinit
  obtain ⟨ranges, frameOf, rfl, hset⟩ := h.settled hr hdir
  have hinv := hset.inv
  have hframe : ∀ i, m.kernelPool.frameAddr i = m₀.kernelPool.frameAddr i := by
    intro i
    rw [Pool.frameAddr, Pool.frameAddr, hinv.poolStart]
  have hpage : ∀ j, Covers ranges j → ∃ i, frameOf j = some i ∧
      i < 8 * m₀.kernelPool.poolBitmap.btmpBytesLen ∧
        m.walk (heapPage j) = some (m.kernelPool.frameAddr i) := by
    intro j hj
    obtain ⟨i, hi⟩ := Option.isSome_iff_exists.mp ((hset.mapped j).mpr hj)
    obtain ⟨-, hlt, hwalk⟩ := hinv.mapped j i hi
    exact ⟨i, hi, hlt, by rw [hwalk, hframe]⟩
  refine ⟨?_, ?_, ?_, ?_, ?_, ?_, hinv.user, ?_⟩
  · refine List.pairwise_map.mpr (hset.apart.imp fun hrs ↦ ?_)
    rw [heapRange, heapRange, heapPage, heapPage, pgSize]
    omega
  · intro va hva
    obtain ⟨j, hj, rfl⟩ := livePage_map.mp hva
    obtain ⟨i, -, hlt, hwalk⟩ := hpage j hj
    exact ⟨i, by rwa [hinv.poolLen], hwalk⟩
  · intro va vb hva hvb heq
    obtain ⟨j, hj, rfl⟩ := livePage_map.mp hva
    obtain ⟨k, hk, rfl⟩ := livePage_map.mp hvb
    obtain ⟨i, hi, -, hwi⟩ := hpage j hj
    obtain ⟨l, hl, -, hwl⟩ := hpage k hk
    rw [hwi, hwl, Option.some.injEq, hframe, hframe, PageInv.frameAddr_inj] at heq
    rw [heq] at hi
    rw [hinv.inj j k l hi hl]
  · intro i hi
    rw [hinv.poolLen] at hi
    rw [hinv.poolBit i, hr.clear i hi]
    constructor
    · rintro (⟨j, hj⟩ | hb)
      · obtain ⟨-, -, hwalk⟩ := hinv.mapped j i hj
        refine ⟨heapPage j, livePage_heapPage.mpr ((hset.mapped j).mp ?_), by rw [hwalk, hframe]⟩
        rw [hj]
        rfl
      · cases hb
    · rintro ⟨va, hva, hwalk⟩
      obtain ⟨j, hj, rfl⟩ := livePage_map.mp hva
      obtain ⟨l, hl, -, hwl⟩ := hpage j hj
      rw [hwl, Option.some.injEq, hframe, hframe, PageInv.frameAddr_inj] at hwalk
      exact .inl ⟨j, hwalk ▸ hl⟩
  · intro j hj
    rw [hinv.vaddrLen, hr.vaddrLen] at hj
    rw [hinv.vaddrBit j, hr.vaddrClear j hj, hinv.vaddrStart, hr.vaddrStart]
    change _ ↔ LivePage _ (heapPage j)
    rw [livePage_heapPage]
    exact or_iff_left (by decide)
  · intro r hrm
    obtain ⟨⟨s, n⟩, hmem, rfl⟩ := List.mem_map.mp hrm
    obtain ⟨m', -, hret, -⟩ := hset.mfreePage hr hmem
    exact ⟨m', hret⟩
  · intro hnil
    obtain rfl := List.map_eq_nil_iff.mp hnil
    refine ⟨fun i ↦ Bool.eq_iff_iff.mpr ?_, fun j ↦ Bool.eq_iff_iff.mpr ?_⟩
    · rw [hinv.poolBit i]
      refine or_iff_right ?_
      rintro ⟨j, hj⟩
      exact not_covers_nil ((hset.mapped j).mp (by rw [hj]; rfl))
    · rw [hinv.vaddrBit j]
      exact or_iff_right not_covers_nil

/-! ### The first page of a machine of 32 MB -/

/-- The directory of the loader, with empty page tables behind it. -/
def Machine.loaded : Machine where
  phys := splice (fun _ ↦ 0) 0x100000 4096 (ofWords fun k ↦
    if k = 1023 then entry 0x100000 else entry (0x101000 + 0x1000 * (k - 768)))
  cr3 := 0x100000
  kernelPool := ⟨⟨0, fun _ ↦ 0⟩, 0, 0⟩
  userPool := ⟨⟨0, fun _ ↦ 0⟩, 0, 0⟩
  kernelVaddr := ⟨⟨0, fun _ ↦ 0⟩, 0⟩
  pgdir := none
  userprogVaddr := ⟨⟨0, fun _ ↦ 0⟩, 0⟩

theorem loaded_word {k w : ℕ} (hk : k < 1024) (hlt : w < 2 ^ 32)
    (hw : w = if k = 1023 then entry 0x100000 else entry (0x101000 + 0x1000 * (k - 768))) :
    le32 Machine.loaded.phys (0x100000 + 4 * k) = w := by
  rw [Machine.loaded, le32_splice_of_mem (by omega) (by omega), Nat.add_sub_cancel_left, hw]
  exact le32_ofWords (hw ▸ hlt)

/-- A machine that was loaded, and then went through `mem_pool_init`. -/
theorem loaded_init : ∃ m₀, Returns (memPoolInit 0x2000000) Machine.loaded () m₀ ∧
    m₀.LoaderDirectory ∧ m₀.phys = Machine.loaded.phys := by
  refine ⟨_, returns_modify.mpr rfl, ⟨rfl, loaded_word (by decide) (by decide) rfl, ?_⟩, rfl⟩
  intro k hk
  refine loaded_word (by omega) (entry_lt (by omega) (by omega)) ?_
  rw [if_neg (by omega), Nat.add_sub_cancel_left]

/-- On a fresh heap `malloc_page` hands out the first page. -/
theorem mallocPage_first {m : Machine} (hr : m.PoolsReady) (hdir : m.LoaderDirectory)
    (hlen : 0 < m.kernelPool.poolBitmap.btmpBytesLen) (hun : present (m.heapWord 0) = false) :
    ∃ m', Returns (mallocPage .kernel 1) m (some (heapPage 0)) m' := by
  have hscan : (m.vaddr .kernel).vaddrBitmap.scan 1 = some 0 := by
    rw [Machine.vaddr]
    refine Bitmap.scan_one_eq_some.mpr ⟨?_, hr.vaddrClear 0 (by omega), fun j hj ↦ by omega⟩
    rw [hr.vaddrLen]
    omega
  have hframe : m.kernelPool.poolBitmap.scan 1 = some 0 :=
    Bitmap.scan_one_eq_some.mpr ⟨by omega, hr.clear 0 (by omega), fun j hj ↦ by omega⟩
  have hget : Returns (vaddrGet .kernel 1) m (some (heapPage 0))
      (m.setVaddrBitmap (m.kernelVaddr.vaddrBitmap.setRun 0 1 true) .kernel) := by
    rw [vaddrGet, returns_get_bind, hscan]
    refine returns_modify_bind.mpr (returns_check_bind.mpr ⟨(fun h ↦ by cases h), ?_⟩)
    refine returns_pure.mpr ⟨congrArg some ?_, rfl⟩
    change heapPage 0 = m.kernelVaddr.vaddrStart + 0 * pgSize
    rw [hr.vaddrStart, heapPage]
  have hdir' : ((m.setVaddrBitmap (m.kernelVaddr.vaddrBitmap.setRun 0 1 true) .kernel).setPoolBitmap
      (m.kernelPool.poolBitmap.set 0 true) .kernel).LoaderDirectory :=
    ⟨hdir.cr3, hdir.last, hdir.tables⟩
  have hadd : Returns (pageTableAdd (heapPage 0) (m.kernelPool.frameAddr 0)) _ () _ :=
    pageTableAdd_present hdir'.selfMap (by decide) (hdir'.pde_present (by decide))
    (by rw [hdir'.pteAddr (by decide)]; exact hun)
  have hloop : ∃ m', Returns (mapPages .kernel (heapPage 0) 1)
      (m.setVaddrBitmap (m.kernelVaddr.vaddrBitmap.setRun 0 1 true) .kernel) true m' :=
    exists_returns_bind (returns_palloc .kernel hframe)
      (exists_returns_bind hadd ⟨_, returns_pure.mpr ⟨rfl, rfl⟩⟩)
  obtain ⟨m', hloop⟩ := hloop
  exact exists_returns_bind (returns_check (u := ()).mpr ⟨by decide, rfl⟩)
    (exists_returns_bind hget (exists_returns_bind hloop ⟨m', returns_pure.mpr ⟨rfl, rfl⟩⟩))

/-- One page is handed out, and can be given back. -/
theorem pageRun_conserves_loaded : ∃ m m', (∃ m₀, PageRun m₀ [(heapPage 0, 1)] m) ∧
    Returns (mfreePage .kernel (heapPage 0) 1) m () m' := by
  obtain ⟨m₀, hinit, hdir, hphys⟩ := loaded_init
  have hlen : 0 < m₀.kernelPool.poolBitmap.btmpBytesLen := by
    rw [returns_modify.mp hinit]
    decide
  have hun : present (m₀.heapWord 0) = false := by
    rw [Machine.heapWord, hphys, Machine.loaded, le32_splice_of_disjoint (by decide)]
    rfl
  obtain ⟨m, hret⟩ := mallocPage_first (memPoolInit_ready hinit) hdir hlen hun
  have hrun : PageRun m₀ _ m := PageRun.start.malloc hret
  obtain ⟨m', hfree⟩ := (pageRun_conserves hinit hdir hrun).2.2.2.2.2.1 _ List.mem_cons_self
  exact ⟨m, m', ⟨m₀, hrun⟩, hfree⟩

end GlowOS
