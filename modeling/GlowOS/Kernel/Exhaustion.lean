import Mathlib
import GlowOS.Kernel.PageMap

/-!
# Running out of frames

`malloc_page` reserves the virtual pages first, and then takes a frame for each of them and, on the
way, a frame of the kernel pool for each page table that is missing. When a page finds no frame it
returns `NULL` and leaves behind what it has done so far. When a page table finds no frame it goes
on with the frame at address 0.

So a call is as good as the number of frames that are left: `Machine.Enough` compares it with the
pages of the range and the page tables that are missing there.
-/

namespace GlowOS

open Bytes Paging Program

/-! ## What a call may leave behind -/

/-- Word `j` of the directory. -/
def Machine.dirWord (m : Machine) (j : ℕ) : ℕ := le32 m.phys (m.cr3 + 4 * j)

/-- All bitmaps, the directory and the page tables are the same. -/
def Machine.AsBefore (m m' : Machine) : Prop :=
  (∀ pf, (m'.vaddr pf).vaddrBitmap = (m.vaddr pf).vaddrBitmap) ∧
    (∀ pf, (m'.pool pf).poolBitmap = (m.pool pf).poolBitmap) ∧
    (∀ j < 1024, m'.dirWord j = m.dirWord j) ∧
    ∀ j < 1024, present (m.dirWord j) = true → ∀ k < 1024,
      le32 m'.phys (frame (m.dirWord j) + 4 * k) = le32 m.phys (frame (m.dirWord j) + 4 * k)

/-- Frame `i` of a pool was free, and is taken. -/
def Machine.Takes (m m' : Machine) (pf : PoolFlags) (i : ℕ) : Prop :=
  i < 8 * (m.pool pf).poolBitmap.btmpBytesLen ∧ (m.pool pf).poolBitmap.bit i = false ∧
    (m'.pool pf).poolBitmap.bit i = true

/-- Each page of the range is mapped to a frame of its own that was free. -/
def Machine.Maps (m m' : Machine) (pf : PoolFlags) (va n : ℕ) : Prop :=
  ∃ f : ℕ → ℕ, (∀ k < n, m.Takes m' pf (f k) ∧
    m'.walk (va + k * pgSize) = some ((m.pool pf).frameAddr (f k))) ∧
      ∀ k < n, ∀ l < n, f k = f l → k = l

/-- Each page table that was installed stands in a frame newly taken from the kernel pool. -/
def Machine.OwnTables (m m' : Machine) : Prop :=
  ∀ j < 1023, present (m.dirWord j) = false → present (m'.dirWord j) = true →
    ∃ i, m.Takes m' .kernel i ∧ frame (m'.dirWord j) = m.kernelPool.frameAddr i

/-- What is claimed of a call that returned. -/
def Machine.Faultless (m m' : Machine) (pf : PoolFlags) (n : ℕ) : Option ℕ → Prop
  | none => m.AsBefore m'
  | some va => m.Maps m' pf va n ∧ m.OwnTables m'

/-! ## How many frames a range needs -/

/-- How many of the page tables for `n` pages from `va` on are missing. -/
def Machine.missing (m : Machine) (va n : ℕ) : ℕ :=
  ((Finset.range 1023).filter fun j ↦
    present (m.dirWord j) = false ∧ ∃ k < n, pdeIdx (va + k * pgSize) = j).card

/-- There are frames for `n` pages from `va` on, and for the page tables that are missing. -/
def Machine.Enough (m : Machine) (pf : PoolFlags) (va n : ℕ) : Prop :=
  match pf with
  | .kernel => n + m.missing va n ≤ m.kernelPool.poolBitmap.freeCount
  | .user => n ≤ m.userPool.poolBitmap.freeCount ∧
      m.missing va n ≤ m.kernelPool.poolBitmap.freeCount

/-! ## The invariant -/

/-- The directory maps itself, is the page table of no other entry, and its free frames are not in
use as page tables; address 0 is neither the directory nor a frame. -/
structure Machine.AllocOk (m : Machine) : Prop extends m.PagingOk where
  user : m.userPool.Aligned
  tables : ∀ j < 1023, present (m.dirWord j) = true → frame (m.dirWord j) ≠ m.cr3
  dir_pos : 0 < m.cr3
  start_pos : 0 < m.kernelPool.phyAddrStart

/-- The pages of a bitmap, and the one behind it, lie below the last four megabytes. -/
structure VirtualAddr.Below (v : VirtualAddr) : Prop where
  start : v.vaddrStart % 4096 = 0
  stop : v.vaddrStart + (8 * v.vaddrBitmap.btmpBytesLen + 1) * 4096 ≤ 0xffc00000

/-- What the rounds of `malloc_page` keep. -/
structure Machine.Grows (m m' : Machine) : Prop where
  cr3 : m'.cr3 = m.cr3
  start : ∀ pf, (m'.pool pf).phyAddrStart = (m.pool pf).phyAddrStart
  len : ∀ pf, (m'.pool pf).poolBitmap.btmpBytesLen = (m.pool pf).poolBitmap.btmpBytesLen
  taken : ∀ pf i, (m.pool pf).poolBitmap.bit i = true → (m'.pool pf).poolBitmap.bit i = true
  vaddr : ∀ pf, m'.vaddr pf = m.vaddr pf
  dir : ∀ j < 1023, present (m.dirWord j) = true → m'.dirWord j = m.dirWord j

/-- What is mapped below the last four megabytes stays mapped. -/
def Machine.Stays (m m' : Machine) : Prop :=
  ∀ vb pb, pdeIdx vb < 1023 → m.walk vb = some pb → m'.walk vb = some pb

section Rounds

variable {m m' m'' : Machine}

theorem Machine.Grows.refl (m : Machine) : m.Grows m :=
  ⟨rfl, fun _ ↦ rfl, fun _ ↦ rfl, fun _ _ h ↦ h, fun _ ↦ rfl, fun _ _ _ ↦ rfl⟩

theorem Machine.Grows.trans (h : m.Grows m') (h' : m'.Grows m'') : m.Grows m'' where
  cr3 := h'.cr3.trans h.cr3
  start pf := (h'.start pf).trans (h.start pf)
  len pf := (h'.len pf).trans (h.len pf)
  taken pf i hi := h'.taken pf i (h.taken pf i hi)
  vaddr pf := (h'.vaddr pf).trans (h.vaddr pf)
  dir j hj hp := (h'.dir j hj (by rwa [h.dir j hj hp])).trans (h.dir j hj hp)

theorem Machine.Grows.frameAddr (h : m.Grows m') (pf : PoolFlags) (i : ℕ) :
    (m'.pool pf).frameAddr i = (m.pool pf).frameAddr i := by
  rw [Pool.frameAddr, Pool.frameAddr, h.start]

/-- What a later round takes was free before. -/
theorem Machine.Grows.takes {pf : PoolFlags} {i : ℕ} (h : m.Grows m') (ht : m'.Takes m'' pf i) :
    m.Takes m'' pf i := by
  refine ⟨h.len pf ▸ ht.1, ?_, ht.2.2⟩
  by_contra hb
  have := h.taken pf i (by simpa using hb)
  rw [ht.2.1] at this
  cases this

/-- What an earlier round took is still taken. -/
theorem Machine.Takes.grows {pf : PoolFlags} {i : ℕ} (h : m.Takes m' pf i) (hk : m'.Grows m'') :
    m.Takes m'' pf i := ⟨h.1, h.2.1, hk.taken pf i h.2.2⟩

end Rounds

/-- The invariant holds again if each word of the directory is as it was, or is the entry of a new
page table in a frame that is not free. -/
theorem Machine.AllocOk.of {m m' : Machine} (h : m.AllocOk) (hk : m.Grows m')
    (hdir : ∀ j < 1024, m'.dirWord j = m.dirWord j ∨ j < 1023 ∧ ∃ q, m'.dirWord j = entry q ∧
      q % 4096 = 0 ∧ q ≠ m.cr3 ∧
        ∀ i, (m'.pool .kernel).poolBitmap.bit i = false → m.kernelPool.frameAddr i ≠ q) :
    m'.AllocOk := by
  have hlast : m'.dirWord 1023 = m.dirWord 1023 :=
    (hdir 1023 (by decide)).resolve_right fun hno ↦ absurd hno.1 (by decide)
  have hstart : m'.kernelPool.phyAddrStart = m.kernelPool.phyAddrStart := hk.start .kernel
  have hlen : m'.kernelPool.poolBitmap.btmpBytesLen = m.kernelPool.poolBitmap.btmpBytesLen :=
    hk.len .kernel
  have hframe : ∀ i, m'.kernelPool.frameAddr i = m.kernelPool.frameAddr i :=
    hk.frameAddr .kernel
  refine
    { selfMap := ⟨?_, ?_⟩
      pool := ⟨by rw [hstart]; exact h.pool.start, by rw [hstart, hlen]; exact h.pool.fits⟩
      unused := fun i hi hfree ↦ ?_
      user := ⟨(hk.start .user).symm ▸ h.user.start, ?_⟩
      tables := fun j hj hp ↦ ?_
      dir_pos := by rw [hk.cr3]; exact h.dir_pos
      start_pos := by rw [hstart]; exact h.start_pos }
  · exact (congrArg present hlast).trans h.selfMap.present
  · exact ((congrArg frame hlast).trans h.selfMap.frame).trans hk.cr3.symm
  · have hold : m.kernelPool.poolBitmap.bit i = false := by
      by_contra hb
      have hset := hk.taken .kernel i (eq_true_of_ne_false hb)
      exact absurd (hset.symm.trans hfree) (by decide)
    obtain ⟨h1, h2⟩ := h.unused i (hlen ▸ hi) hold
    rw [hframe, hk.cr3]
    refine ⟨h1, fun j hj hp ↦ ?_⟩
    rw [← hk.cr3] at hp ⊢
    change present (m'.dirWord j) = true at hp
    change frame (m'.dirWord j) ≠ _
    rcases hdir j hj with heq | ⟨-, q, heq, hq, -, hne⟩
    · rw [heq] at hp ⊢
      exact h2 j hj hp
    · rw [heq, frame_entry hq]
      exact (hne i hfree).symm
  · have hfits := h.user.fits
    have hs := hk.start .user
    have hl := hk.len .user
    rw [Machine.pool, Machine.pool] at hs hl
    rwa [hs, hl]
  · rw [hk.cr3]
    rcases hdir j (by omega) with heq | ⟨-, q, heq, hq, hne, -⟩
    · rw [heq] at hp ⊢
      exact h.tables j hj hp
    · rwa [heq, frame_entry hq]

/-! ## One round -/

/-- The machine with frame `i` of a pool taken. -/
def Machine.take (m : Machine) (pf : PoolFlags) (i : ℕ) : Machine :=
  m.setPoolBitmap ((m.pool pf).poolBitmap.set i true) pf

section Take

variable {m : Machine} {pf : PoolFlags} {i : ℕ}

@[simp] theorem Machine.take_phys : (m.take pf i).phys = m.phys := by cases pf <;> rfl

@[simp] theorem Machine.take_cr3 : (m.take pf i).cr3 = m.cr3 := by cases pf <;> rfl

theorem Machine.take_dirWord (j : ℕ) : (m.take pf i).dirWord j = m.dirWord j := by
  rw [Machine.dirWord, take_phys, take_cr3, Machine.dirWord]

theorem Machine.take_walk (va : ℕ) : (m.take pf i).walk va = m.walk va := by
  rw [Machine.walk, take_phys, take_cr3, Machine.walk]

theorem Machine.take_pool_self :
    (m.take pf i).pool pf = { m.pool pf with poolBitmap := (m.pool pf).poolBitmap.set i true } := by
  cases pf <;> rfl

theorem Machine.take_pool_of_ne {pf' : PoolFlags} (h : pf' ≠ pf) :
    (m.take pf i).pool pf' = m.pool pf' := by
  cases pf <;> cases pf' <;> first | rfl | exact absurd rfl h

theorem Machine.take_grows : m.Grows (m.take pf i) := by
  refine ⟨take_cr3, fun pf' ↦ ?_, fun pf' ↦ ?_, fun pf' k hk ↦ ?_,
    fun pf' ↦ by cases pf <;> cases pf' <;> rfl, fun j _ _ ↦ take_dirWord j⟩
  · obtain rfl | hne := eq_or_ne pf' pf
    · rw [take_pool_self]
    · rw [take_pool_of_ne hne]
  · obtain rfl | hne := eq_or_ne pf' pf
    · rw [take_pool_self, Bitmap.set_btmpBytesLen]
    · rw [take_pool_of_ne hne]
  · obtain rfl | hne := eq_or_ne pf' pf
    · rw [take_pool_self, Bitmap.bit_set, hk, ite_self]
    · rwa [take_pool_of_ne hne]

variable (hi : (m.pool pf).poolBitmap.scan 1 = some i)
include hi

theorem Machine.take_takes : m.Takes (m.take pf i) pf i := by
  obtain ⟨hlt, hfree, -⟩ := Bitmap.scan_one_eq_some.mp hi
  refine ⟨hlt, hfree, ?_⟩
  rw [take_pool_self, Bitmap.bit_set, if_pos rfl]

theorem Machine.take_freeCount :
    ((m.take pf i).pool pf).poolBitmap.freeCount + 1 = (m.pool pf).poolBitmap.freeCount := by
  obtain ⟨hlt, hfree, -⟩ := Bitmap.scan_one_eq_some.mp hi
  rw [take_pool_self]
  exact Bitmap.freeCount_set hlt hfree

omit hi in
theorem Machine.AllocOk.take (h : m.AllocOk) : (m.take pf i).AllocOk :=
  h.of take_grows fun j _ ↦ .inl (take_dirWord j)

end Take

section Add

variable {m m' b : Machine} {va pa q : ℕ} {u : PUnit}

theorem Machine.pde_eq (m : Machine) (va : ℕ) : m.pde va = m.dirWord (pdeIdx va) := rfl

/-- The word of an address stands in a table, so it is no word of the directory. -/
theorem Machine.AllocOk.pteAddr_ne (h : m.AllocOk) (hva : pdeIdx va < 1023)
    (hp : present (m.pde va) = true) {j : ℕ} (hj : j < 1024) :
    m.cr3 + 4 * j ≠ m.pteAddr va := by
  have hne := h.tables _ hva hp
  have hd := h.selfMap.aligned
  have hf := frame_mod (m.dirWord (pdeIdx va))
  have hk := pteIdx_lt va
  change _ ≠ frame (m.dirWord (pdeIdx va)) + 4 * pteIdx va
  omega

/-- A page table exists: the directory is not written to. -/
theorem Machine.AllocOk.store_dirWord (h : m.AllocOk) (hva : pdeIdx va < 1023)
    (hp : present (m.pde va) = true) {w j : ℕ} (hj : j < 1024) :
    (m.store (m.pteAddr va) w).dirWord j = m.dirWord j := by
  have hd := h.selfMap.aligned
  have hmod : (m.cr3 + 4 * j) % 4 = 0 := by omega
  exact le32_setWord_of_ne (pteAddr_mod m va) hmod (h.pteAddr_ne hva hp hj)

/-- The word of an address that is not mapped is written. -/
theorem Machine.AllocOk.store_stays (h : m.AllocOk) (hva : pdeIdx va < 1023)
    (hp : present (m.pde va) = true) (hun : present (le32 m.phys (m.pteAddr va)) = false) (w : ℕ) :
    m.Stays (m.store (m.pteAddr va) w) := by
  intro vb pb hvb hw
  obtain ⟨hpb, hptb, -⟩ := walk_eq_some.mp hw
  rw [← hw]
  refine (walk_congr fun a ha ↦ ?_).1
  rcases ha with rfl | ⟨-, rfl⟩
  · exact h.store_dirWord hva hp (by omega)
  · refine le32_setWord_of_ne (pteAddr_mod m va) (pteAddr_mod m vb) fun heq ↦ ?_
    have hword := congrArg (fun a ↦ present (le32 m.phys a)) heq
    exact absurd (hptb.symm.trans (hword.trans hun)) (by decide)

/-- The machine after a page table was installed for `va` in the frame `q`, and the page of `va`
mapped to the frame `pa`. -/
def Machine.install (m : Machine) (va q pa : ℕ) : Machine :=
  (m.tableAt va q).store (q + 4 * pteIdx va) (entry pa)

theorem Machine.install_phys : (m.install va q pa).phys =
    setWord (splice (setWord m.phys (pdeAddr m.cr3 va) (entry q)) q 4096 fun _ ↦ 0)
      (q + 4 * pteIdx va) (entry pa) := rfl

section Install

variable (h : m.AllocOk) (hq : m.Usable q) (hva : pdeIdx va < 1023)
include h hq

theorem Machine.AllocOk.install_dirWord {j : ℕ} (hj : j < 1024) (hne : j ≠ pdeIdx va) :
    (m.install va q pa).dirWord j = m.dirWord j := by
  have hd := h.selfMap.aligned
  have ha := hq.aligned
  have hn := hq.not_dir
  have hk := pteIdx_lt va
  change le32 (setWord (m.tableAt va q).phys _ _) (m.cr3 + 4 * j) = _
  rw [le32_setWord_of_ne (by omega) (by omega) (by omega)]
  exact tableAt_dir h.selfMap hq hj hne

include hva

theorem Machine.AllocOk.install_dirWord_self :
    (m.install va q pa).dirWord (pdeIdx va) = entry q := by
  have hd := h.selfMap.aligned
  have ha := hq.aligned
  have hn := hq.not_dir
  have hk := pteIdx_lt va
  change le32 (setWord (m.tableAt va q).phys _ _) (m.cr3 + 4 * pdeIdx va) = _
  rw [le32_setWord_of_ne (by omega) (by omega) (by omega)]
  exact tableAt_pde h.selfMap hq hva

/-- A frame that is no page table becomes one. -/
theorem Machine.AllocOk.install_stays (hun : present (m.pde va) = false)
    (hfree : ∀ j < 1023, present (m.dirWord j) = true → frame (m.dirWord j) ≠ q) :
    m.Stays (m.install va q pa) := by
  have hd := h.selfMap.aligned
  have ha := hq.aligned
  have hk := pteIdx_lt va
  intro vb pb hvb hw
  obtain ⟨hpb, hptb, -⟩ := walk_eq_some.mp hw
  have hne : pdeIdx vb ≠ pdeIdx va := by
    intro heq
    rw [Machine.pde_eq, ← heq] at hun
    exact absurd (hpb.symm.trans hun) (by decide)
  have htable := hfree _ hvb hpb
  have hdir := h.tables _ hvb hpb
  have hf := frame_mod (m.dirWord (pdeIdx vb))
  have hkb := pteIdx_lt vb
  have hword : ∀ a, a = frame (m.dirWord (pdeIdx vb)) + 4 * pteIdx vb →
      le32 (m.install va q pa).phys a = le32 m.phys a := by
    rintro a rfl
    rw [Machine.install_phys, le32_setWord_of_ne (by omega) (by omega) (by omega),
      le32_splice_of_disjoint (by omega)]
    exact le32_setWord_of_ne (pdeAddr_mod hd) (by omega) (by rw [pdeAddr]; omega)
  rw [← hw]
  refine (walk_congr fun a ha' ↦ ?_).1
  rcases ha' with rfl | ⟨-, rfl⟩
  · exact h.install_dirWord hq (by omega) hne
  · exact hword _ rfl

theorem Machine.AllocOk.install_walk (hmod : va % 4096 = 0) (hpa : pa % 4096 = 0)
    (hlt : pa < 2 ^ 32) : (m.install va q pa).walk va = some pa := by
  have hpte := tableAt_pteAddr h.selfMap hq hva va rfl
  have hpde : (m.tableAt va q).pde va = entry q := tableAt_pde h.selfMap hq hva
  have hn := hq.not_dir
  have ha := hq.aligned
  have hd := h.selfMap.aligned
  have hk := pteIdx_lt va
  have hmap := walk_store_entry (m := m.tableAt va q) hd (by rw [hpde, present_entry ha])
    (by rw [hpte, pdeAddr]; change m.cr3 + _ ≠ _; omega) hpa hlt hmod (o := 0) (by decide)
  rw [hpte] at hmap
  exact hmap.2

end Install

end Add

/-! ### Counting -/

section Counting

variable {m m' : Machine} {va n j : ℕ}

theorem exists_page_succ :
    (∃ k < n + 1, pdeIdx (va + k * pgSize) = j) ↔
      pdeIdx va = j ∨ ∃ k < n, pdeIdx (va + pgSize + k * pgSize) = j := by
  have hshift : ∀ k, va + pgSize + k * pgSize = va + (k + 1) * pgSize := fun k ↦ by
    rw [Nat.add_mul, Nat.one_mul, Nat.add_assoc, Nat.add_comm pgSize]
  simp only [hshift]
  constructor
  · rintro ⟨k, hk, hj⟩
    cases k with
    | zero => exact .inl (by simpa using hj)
    | succ k => exact .inr ⟨k, by omega, hj⟩
  · rintro (hj | ⟨k, hk, hj⟩)
    · exact ⟨0, Nat.succ_pos n, by simpa using hj⟩
    · exact ⟨k + 1, by omega, hj⟩

/-- The first page has its page table. -/
theorem missing_present (hp : present (m.dirWord (pdeIdx va)) = true)
    (hdir : ∀ j < 1023, m'.dirWord j = m.dirWord j) :
    m'.missing (va + pgSize) n = m.missing va (n + 1) := by
  refine congrArg Finset.card (Finset.filter_congr fun j hj ↦ ?_)
  rw [hdir j (Finset.mem_range.mp hj), exists_page_succ]
  refine and_congr_right fun hun ↦ ⟨.inr, ?_⟩
  rintro (rfl | hk)
  · exact absurd (hp.symm.trans hun) (by decide)
  · exact hk

/-- The first page gets its page table. -/
theorem missing_install (hva : pdeIdx va < 1023)
    (hun : present (m.dirWord (pdeIdx va)) = false)
    (hp : present (m'.dirWord (pdeIdx va)) = true)
    (hdir : ∀ j < 1023, j ≠ pdeIdx va → m'.dirWord j = m.dirWord j) :
    m'.missing (va + pgSize) n + 1 = m.missing va (n + 1) := by
  have hmem : pdeIdx va ∈ (Finset.range 1023).filter fun j ↦
      present (m.dirWord j) = false ∧ ∃ k < n + 1, pdeIdx (va + k * pgSize) = j :=
    Finset.mem_filter.mpr ⟨Finset.mem_range.mpr hva, hun, exists_page_succ.mpr (.inl rfl)⟩
  rw [Machine.missing, Machine.missing, ← Finset.card_erase_add_one hmem]
  refine congrArg (Finset.card · + 1) (Finset.ext fun j ↦ ?_)
  rw [Finset.mem_erase, Finset.mem_filter, Finset.mem_filter, exists_page_succ]
  obtain rfl | hne := eq_or_ne j (pdeIdx va)
  · exact iff_of_false (fun h ↦ absurd (hp.symm.trans h.2.1) (by decide)) fun h ↦ h.1 rfl
  · constructor
    · rintro ⟨hj, hf, hk⟩
      exact ⟨hne, hj, by rwa [hdir j (Finset.mem_range.mp hj) hne] at hf, .inr hk⟩
    · rintro ⟨-, hj, hf, hk⟩
      refine ⟨hj, by rwa [hdir j (Finset.mem_range.mp hj) hne], hk.resolve_left fun h ↦ hne h.symm⟩

/-- The free frames of a pool. -/
def Machine.free (m : Machine) (pf : PoolFlags) : ℕ := (m.pool pf).poolBitmap.freeCount

theorem enough_kernel : m.Enough .kernel va n ↔ n + m.missing va n ≤ m.free .kernel := Iff.rfl

theorem enough_user :
    m.Enough .user va n ↔ n ≤ m.free .user ∧ m.missing va n ≤ m.free .kernel := Iff.rfl

/-- A round takes a frame for the page, and `c` frames for page tables. -/
theorem enough_succ {pf : PoolFlags} {c : ℕ}
    (hkernel : pf = .kernel → m'.free .kernel + 1 + c = m.free .kernel)
    (huser : pf = .user → m'.free .user + 1 = m.free .user ∧
      m'.free .kernel + c = m.free .kernel)
    (hmiss : m'.missing (va + pgSize) n + c = m.missing va (n + 1)) :
    m.Enough pf va (n + 1) ↔ m'.Enough pf (va + pgSize) n := by
  cases pf with
  | kernel =>
    have hk := hkernel rfl
    rw [enough_kernel, enough_kernel]
    omega
  | user =>
    obtain ⟨hu, hk⟩ := huser rfl
    rw [enough_user, enough_user]
    omega

end Counting

/-! ### The cases of a round -/

/-- What every round does: a frame is taken for the page. -/
structure Machine.Round (m m' : Machine) (pf : PoolFlags) (i : ℕ) : Prop where
  ok : m'.AllocOk
  grows : m.Grows m'
  takes : m.Takes m' pf i

/-- A round that has the frames it needs maps the page. -/
structure Machine.GoodRound (m m' : Machine) (pf : PoolFlags) (va i : ℕ) : Prop where
  walk : m'.walk va = some ((m.pool pf).frameAddr i)
  stays : m.Stays m'
  own : m.OwnTables m'
  enough : ∀ n, m.Enough pf va (n + 1) ↔ m'.Enough pf (va + pgSize) n

/-- A round that finds no frame for a page table takes the one at address 0. -/
structure Machine.BadRound (m m' : Machine) (pf : PoolFlags) (va : ℕ) : Prop where
  absent : present (m.dirWord (pdeIdx va)) = false
  table : m'.dirWord (pdeIdx va) = entry 0
  short : ∀ n, ¬m.Enough pf va (n + 1)

section Round

variable {m m' : Machine} {pf : PoolFlags} {va i : ℕ} {u : PUnit}

theorem Machine.AllocOk.frameAddr_fits (h : m.AllocOk)
    (hi : i < 8 * (m.pool pf).poolBitmap.btmpBytesLen) :
    (m.pool pf).frameAddr i % 4096 = 0 ∧ (m.pool pf).frameAddr i < 2 ^ 32 := by
  have hp : (m.pool pf).Aligned := by
    cases pf
    · exact h.pool
    · exact h.user
  have hs := hp.start
  have hf := hp.fits
  rw [Pool.frameAddr, pgSize]
  omega

/-- The page table of the page exists. -/
theorem Machine.AllocOk.round_present (h : m.AllocOk) (hva : pdeIdx va < 1023)
    (hmod : va % 4096 = 0) (hi : (m.pool pf).poolBitmap.scan 1 = some i)
    (hp : present (m.dirWord (pdeIdx va)) = true)
    (hret : Returns (pageTableAdd va ((m.pool pf).frameAddr i)) (m.take pf i) u m') :
    m.Round m' pf i ∧ m.GoodRound m' pf va i := by
  have ht : (m.take pf i).AllocOk := h.take
  have hpt : present ((m.take pf i).pde va) = true := by
    rw [pde_eq, take_dirWord]
    exact hp
  have hun := pageTableAdd_unmapped ht.selfMap (by omega) hpt hret
  have hm' := pageTableAdd_inv ht.selfMap (by omega) hpt hret
  obtain ⟨hpa, hlt⟩ := h.frameAddr_fits (take_takes hi).1
  have hpool : ∀ pf', m'.pool pf' = (m.take pf i).pool pf' := fun pf' ↦ by
    rw [hm']
    cases pf' <;> rfl
  have hcr3 : m'.cr3 = (m.take pf i).cr3 := by rw [hm', store_cr3]
  have hdir : ∀ j < 1024, m'.dirWord j = (m.take pf i).dirWord j := fun j hj ↦ by
    rw [hm']
    exact ht.store_dirWord hva hpt hj
  have hkept : (m.take pf i).Grows m' :=
    ⟨hcr3, fun _ ↦ by rw [hpool], fun _ ↦ by rw [hpool], fun _ _ hb ↦ by rwa [hpool],
      fun pf' ↦ by rw [hm']; cases pf' <;> rfl, fun j hj _ ↦ hdir j (by omega)⟩
  have hsame : ∀ j < 1023, m'.dirWord j = m.dirWord j :=
    fun j hj ↦ (hdir j (by omega)).trans (take_dirWord j)
  refine ⟨⟨ht.of hkept fun j hj ↦ .inl (hdir j hj), take_grows.trans hkept,
    (take_takes hi).grows hkept⟩, ?_, fun vb pb hvb hw ↦ ?_, fun j hj hf ht' ↦ ?_, fun n ↦ ?_⟩
  · have hne : pdeAddr (m.take pf i).cr3 va ≠ (m.take pf i).pteAddr va :=
      ht.pteAddr_ne hva hpt (by omega)
    have hw := (walk_store_entry ht.selfMap.aligned hpt hne hpa hlt hmod (o := 0) (by decide)).2
    rw [Nat.add_zero, Nat.add_zero, ← hm'] at hw
    exact hw
  · rw [hm']
    have hstays := ht.store_stays hva hpt hun (entry ((m.pool pf).frameAddr i))
    exact hstays vb pb hvb ((take_walk vb).trans hw)
  · rw [hsame j hj, hf] at ht'
    cases ht'
  · have hmiss := missing_present (n := n) hp hsame
    rw [← Nat.add_zero (m'.missing _ _)] at hmiss
    refine enough_succ (fun hpf ↦ ?_) (fun hpf ↦ ?_) hmiss
    · subst hpf
      rw [Machine.free, hpool, Nat.add_zero]
      exact take_freeCount hi
    · subst hpf
      refine ⟨?_, ?_⟩ <;> rw [Machine.free, Machine.free, hpool]
      · exact take_freeCount hi
      · rw [take_pool_of_ne (by decide), Nat.add_zero]

/-- The page table of the page is missing, and the kernel pool has a frame for it. -/
theorem Machine.AllocOk.round_install {q : ℕ} (h : m.AllocOk) (hva : pdeIdx va < 1023)
    (hmod : va % 4096 = 0) (hi : (m.pool pf).poolBitmap.scan 1 = some i)
    (hun : present (m.dirWord (pdeIdx va)) = false)
    (hq : ((m.take pf i).pool .kernel).poolBitmap.scan 1 = some q)
    (hret : Returns (pageTableAdd va ((m.pool pf).frameAddr i)) (m.take pf i) u m') :
    m.Round m' pf i ∧ m.GoodRound m' pf va i := by
  have ht : (m.take pf i).AllocOk := h.take
  set b := (m.take pf i).take .kernel q with hb
  have hok : b.AllocOk := ht.take
  have hkb : m.Grows b := take_grows.trans take_grows
  have hframe : (m.take pf i).kernelPool.frameAddr q = m.kernelPool.frameAddr q :=
    (take_grows (m := m)).frameAddr .kernel q
  have hfresh := ht.fresh hq
  rw [hframe] at hfresh
  have hut : (m.take pf i).Usable (m.kernelPool.frameAddr q) :=
    ⟨hfresh.aligned, hfresh.fits, hfresh.not_dir⟩
  have hub : b.Usable (m.kernelPool.frameAddr q) := ⟨hut.aligned, hut.fits, hut.not_dir⟩
  have hunt : present ((m.take pf i).pde va) = false := by
    rw [pde_eq, take_dirWord]
    exact hun
  have hadd := @pageTableAdd_tableAt _ _ ((m.pool pf).frameAddr i) _ ht.selfMap hut hva _ _
    (returns_palloc .kernel hq) hframe rfl rfl hunt
  have hm' : m' = b.install va (m.kernelPool.frameAddr q) ((m.pool pf).frameAddr i) :=
    (hret.unique hadd).2
  obtain ⟨hpa, hlt⟩ := h.frameAddr_fits (take_takes hi).1
  have hbdir : ∀ j, b.dirWord j = m.dirWord j := fun j ↦ by rw [hb, take_dirWord, take_dirWord]
  have hpool : ∀ pf', m'.pool pf' = b.pool pf' := fun pf' ↦ by
    rw [hm']
    cases pf' <;> rfl
  have hdir : ∀ j < 1024, j ≠ pdeIdx va → m'.dirWord j = m.dirWord j := fun j hj hne ↦ by
    rw [hm', hok.install_dirWord hub hj hne, hbdir]
  have htable : m'.dirWord (pdeIdx va) = entry (m.kernelPool.frameAddr q) := by
    rw [hm', hok.install_dirWord_self hub hva]
  have hkept : b.Grows m' := by
    refine ⟨by rw [hm']; rfl, fun _ ↦ by rw [hpool], fun _ ↦ by rw [hpool],
      fun _ _ hb ↦ by rwa [hpool], fun pf' ↦ by rw [hm']; cases pf' <;> rfl, fun j hj hp ↦ ?_⟩
    rw [hbdir] at hp ⊢
    refine hdir j (by omega) fun hne ↦ ?_
    rw [hne] at hp
    exact absurd (hp.symm.trans hun) (by decide)
  have htakes : m.Takes m' .kernel q :=
    (take_grows.takes (take_takes hq)).grows hkept
  refine ⟨⟨hok.of hkept fun j hj ↦ ?_, hkb.trans hkept,
    ((take_takes hi).grows take_grows).grows hkept⟩, ?_, fun vb pb hvb hw ↦ ?_,
    fun j hj hf ht' ↦ ?_, fun n ↦ ?_⟩
  · obtain rfl | hne := eq_or_ne j (pdeIdx va)
    · refine .inr ⟨hva, _, htable, hub.aligned, hub.not_dir, fun k hk heq ↦ ?_⟩
      rw [show b.kernelPool.frameAddr k = m.kernelPool.frameAddr k from hkb.frameAddr .kernel k,
        Pool.frameAddr, Pool.frameAddr, pgSize] at heq
      obtain rfl : k = q := by omega
      rw [htakes.2.2] at hk
      cases hk
    · exact .inl ((hdir j hj hne).trans (hbdir j).symm)
  · rw [hm']
    exact hok.install_walk hub hva hmod hpa hlt
  · rw [hm']
    refine hok.install_stays hub hva (by rw [pde_eq, hbdir]; exact hun) (fun j hj hp ↦ ?_) vb pb hvb
      ((take_walk vb).trans ((take_walk vb).trans hw))
    rw [hbdir, ← @take_dirWord m pf i] at hp ⊢
    exact hfresh.not_table j (by omega) hp
  · obtain rfl | hne := eq_or_ne j (pdeIdx va)
    · exact ⟨q, htakes, by rw [htable, frame_entry hub.aligned]⟩
    · rw [hdir j (by omega) hne, hf] at ht'
      cases ht'
  · have hmiss := missing_install (n := n) hva hun
      (by rw [htable, present_entry hub.aligned]) fun j hj hne ↦ hdir j (by omega) hne
    have hcount := take_freeCount hq
    refine enough_succ (fun hpf ↦ ?_) (fun hpf ↦ ?_) hmiss
    · subst hpf
      have hfirst := take_freeCount hi
      rw [← hb, ← hpool] at hcount
      rw [Machine.free, Machine.free, hcount, hfirst]
    · subst hpf
      have hfirst := take_freeCount hi
      rw [take_pool_of_ne (show PoolFlags.kernel ≠ .user by decide)] at hcount
      rw [Machine.free, Machine.free, Machine.free, Machine.free, hpool, hpool, hb,
        take_pool_of_ne (show PoolFlags.user ≠ .kernel by decide)]
      exact ⟨hfirst, hcount⟩

/-- The page table of the page is missing, and the kernel pool has no frame for it. -/
theorem Machine.AllocOk.round_short (h : m.AllocOk) (hva : pdeIdx va < 1023)
    (hi : (m.pool pf).poolBitmap.scan 1 = some i)
    (hun : present (m.dirWord (pdeIdx va)) = false)
    (hq : ((m.take pf i).pool .kernel).poolBitmap.scan 1 = none)
    (hret : Returns (pageTableAdd va ((m.pool pf).frameAddr i)) (m.take pf i) u m') :
    m.Round m' pf i ∧ m.BadRound m' pf va := by
  have ht : (m.take pf i).AllocOk := h.take
  have hut : (m.take pf i).Usable 0 :=
    ⟨rfl, by decide, by rw [take_cr3]; exact (Nat.ne_of_lt h.dir_pos)⟩
  have hunt : present ((m.take pf i).pde va) = false := by
    rw [pde_eq, take_dirWord]
    exact hun
  have hadd := @pageTableAdd_tableAt _ _ ((m.pool pf).frameAddr i) _ ht.selfMap hut hva _ _
    (returns_palloc_none .kernel hq) rfl rfl rfl hunt
  have hm' : m' = (m.take pf i).install va 0 ((m.pool pf).frameAddr i) := (hret.unique hadd).2
  have hpool : ∀ pf', m'.pool pf' = (m.take pf i).pool pf' := fun pf' ↦ by
    rw [hm']
    cases pf' <;> rfl
  have hdir : ∀ j < 1024, j ≠ pdeIdx va → m'.dirWord j = (m.take pf i).dirWord j :=
    fun j hj hne ↦ by rw [hm', ht.install_dirWord hut hj hne]
  have htable : m'.dirWord (pdeIdx va) = entry 0 := by
    rw [hm', ht.install_dirWord_self hut hva]
  have hkept : (m.take pf i).Grows m' := by
    refine ⟨by rw [hm']; rfl, fun _ ↦ by rw [hpool], fun _ ↦ by rw [hpool],
      fun _ _ hb ↦ by rwa [hpool], fun pf' ↦ by rw [hm']; cases pf' <;> rfl,
      fun j hj hp ↦ hdir j (by omega) fun hne ↦ ?_⟩
    rw [hne, take_dirWord] at hp
    exact absurd (hp.symm.trans hun) (by decide)
  refine ⟨⟨ht.of hkept fun j hj ↦ ?_, take_grows.trans hkept, (take_takes hi).grows hkept⟩,
    hun, htable, fun n hen ↦ ?_⟩
  · obtain rfl | hne := eq_or_ne j (pdeIdx va)
    · refine .inr ⟨hva, 0, htable, rfl, hut.not_dir, fun k _ heq ↦ ?_⟩
      have hs := ht.start_pos
      rw [Pool.frameAddr] at heq
      omega
    · exact .inl (hdir j hj hne)
  · -- the page table is one of those that are missing, and no frame is left for it
    have hmiss : 0 < m.missing va (n + 1) := Finset.card_pos.mpr ⟨pdeIdx va,
      Finset.mem_filter.mpr ⟨Finset.mem_range.mpr hva, hun, exists_page_succ.mpr (.inl rfl)⟩⟩
    have hzero : (m.take pf i).free .kernel = 0 := by
      rcases Nat.eq_zero_or_pos ((m.take pf i).free .kernel) with h0 | hpos
      · exact h0
      · obtain ⟨k, hk⟩ := Bitmap.exists_scan_one hpos
        rw [hq] at hk
        cases hk
    have hcount := take_freeCount hi
    cases pf with
    | kernel =>
      rw [enough_kernel] at hen
      rw [Machine.free] at hzero hen
      omega
    | user =>
      rw [enough_user] at hen
      rw [Machine.free, take_pool_of_ne (by decide)] at hzero
      rw [Machine.free, Machine.free] at hen
      omega

/-- A round maps the page, or installs a page table at address 0. -/
theorem Machine.AllocOk.round (h : m.AllocOk) (hva : pdeIdx va < 1023) (hmod : va % 4096 = 0)
    (hi : (m.pool pf).poolBitmap.scan 1 = some i)
    (hret : Returns (pageTableAdd va ((m.pool pf).frameAddr i)) (m.take pf i) u m') :
    m.Round m' pf i ∧ (m.GoodRound m' pf va i ∨ m.BadRound m' pf va) := by
  cases hp : present (m.dirWord (pdeIdx va)) with
  | true => exact (h.round_present hva hmod hi hp hret).imp_right .inl
  | false =>
    cases hq : ((m.take pf i).pool .kernel).poolBitmap.scan 1 with
    | none => exact (h.round_short hva hi hp hq hret).imp_right .inr
    | some q => exact (h.round_install hva hmod hi hp hq hret).imp_right .inl

end Round

/-! ## The loop -/

section Loop

variable {m m' : Machine} {pf : PoolFlags} {va n : ℕ} {r : Bool}

/-- The pages of a range lie below the last four megabytes. -/
def InRange (va n : ℕ) : Prop := va % 4096 = 0 ∧ va + n * 4096 ≤ 0xffc00000

theorem InRange.idx (h : InRange va (n + 1)) : pdeIdx va < 1023 := by
  obtain ⟨-, h⟩ := h
  rw [pdeIdx]
  omega

theorem InRange.tail (h : InRange va (n + 1)) : InRange (va + pgSize) n := by
  obtain ⟨h1, h2⟩ := h
  rw [InRange, pgSize]
  omega

/-- A round of the loop. -/
theorem mapPages_succ (h : m.AllocOk) (hin : InRange va (n + 1))
    (hret : Returns (mapPages pf va (n + 1)) m r m') :
    (r = false ∧ m' = m ∧ m.free pf = 0) ∨
      ∃ i t, m.Round t pf i ∧ (m.GoodRound t pf va i ∨ m.BadRound t pf va) ∧
        Returns (mapPages pf (va + pgSize) n) t r m' := by
  obtain ⟨p, t, h1, hrest⟩ := returns_bind.mp hret
  cases hs : (m.pool pf).poolBitmap.scan 1 with
  | none =>
    obtain ⟨rfl, rfl⟩ := h1.unique (returns_palloc_none pf hs)
    obtain ⟨rfl, rfl⟩ := returns_pure.mp hrest
    refine .inl ⟨rfl, rfl, Nat.eq_zero_of_not_pos fun hpos ↦ ?_⟩
    obtain ⟨k, hk⟩ := Bitmap.exists_scan_one hpos
    rw [hs] at hk
    cases hk
  | some i =>
    obtain ⟨rfl, rfl⟩ := h1.unique (returns_palloc pf hs)
    obtain ⟨u, t, h2, hrest⟩ := returns_bind.mp hrest
    obtain ⟨hround, hcase⟩ := h.round hin.idx hin.1 hs h2
    exact .inr ⟨i, t, hround, hcase, hrest⟩

/-- What the loop keeps in any case. -/
theorem mapPages_kept (h : m.AllocOk) (hin : InRange va n)
    (hret : Returns (mapPages pf va n) m r m') : m.Grows m' := by
  induction n generalizing va m with
  | zero =>
    obtain ⟨-, rfl⟩ := returns_pure.mp hret
    exact Machine.Grows.refl _
  | succ n ih =>
    rcases mapPages_succ h hin hret with ⟨-, rfl, -⟩ | ⟨i, t, hround, -, hrest⟩
    · exact Machine.Grows.refl _
    · exact hround.grows.trans (ih hround.ok hin.tail hrest)

/-- With enough frames the loop goes through. -/
theorem mapPages_enough (h : m.AllocOk) (hin : InRange va n) (hen : m.Enough pf va n)
    (hret : Returns (mapPages pf va n) m r m') :
    r = true ∧ m.Stays m' ∧ m.Maps m' pf va n ∧ m.OwnTables m' := by
  induction n generalizing va m with
  | zero =>
    obtain ⟨rfl, rfl⟩ := returns_pure.mp hret
    refine ⟨rfl, fun _ _ _ hw ↦ hw, ⟨id, fun k hk ↦ absurd hk (by omega), fun k hk ↦ absurd hk
      (by omega)⟩, fun j _ hf ht ↦ ?_⟩
    exact absurd (ht.symm.trans hf) (by decide)
  | succ n ih =>
    rcases mapPages_succ h hin hret with ⟨-, -, hzero⟩ | ⟨i, t, hround, hgood | hbad, hrest⟩
    · cases pf with
      | kernel =>
        rw [enough_kernel] at hen
        omega
      | user =>
        rw [enough_user] at hen
        omega
    · obtain ⟨hr, hstays, ⟨f, hf, hinj⟩, hown⟩ :=
        ih hround.ok hin.tail ((hgood.enough n).mp hen) hrest
      have hkept := mapPages_kept hround.ok hin.tail hrest
      refine ⟨hr, fun vb pb hvb hw ↦ hstays vb pb hvb (hgood.stays vb pb hvb hw),
        ⟨fun k ↦ Nat.casesOn k i f, ?_, ?_⟩, ?_⟩
      · rintro (_ | k) hk
        · refine ⟨hround.takes.grows hkept, ?_⟩
          rw [Nat.zero_mul, Nat.add_zero]
          exact hstays va _ hin.idx hgood.walk
        · obtain ⟨htakes, hwalk⟩ := hf k (by omega)
          refine ⟨hround.grows.takes htakes, ?_⟩
          rw [Nat.add_mul, Nat.one_mul, Nat.add_comm _ pgSize, ← Nat.add_assoc,
            ← hround.grows.frameAddr]
          exact hwalk
      · -- the frame of the first page is taken before those of the others
        have hfirst : ∀ k < n, i ≠ f k := fun k hk heq ↦ by
          have htaken := hround.takes.2.2
          rw [heq, (hf k hk).1.2.1] at htaken
          cases htaken
        rintro (_ | k) hk (_ | l) hl heq
        · rfl
        · exact absurd heq (hfirst l (by omega))
        · exact absurd heq.symm (hfirst k (by omega))
        · rw [hinj k (by omega) l (by omega) heq]
      · intro j hj hf' ht'
        cases hp : present (t.dirWord j) with
        | true =>
          obtain ⟨q, hq, hframe⟩ := hgood.own j hj hf' hp
          have hword := (hkept.dir j hj hp)
          exact ⟨q, hq.grows hkept, by rw [hword, hframe]⟩
        | false =>
          obtain ⟨q, hq, hframe⟩ := hown j hj hp ht'
          exact ⟨q, hround.grows.takes hq, hframe.trans (hround.grows.frameAddr .kernel q)⟩
    · exact absurd hen (hbad.short n)

/-- Without, it stops early or installs a page table at address 0. -/
theorem mapPages_short (h : m.AllocOk) (hin : InRange va n) (hen : ¬m.Enough pf va n)
    (hret : Returns (mapPages pf va n) m r m') : r = false ∨ ∃ j < 1023,
      present (m.dirWord j) = false ∧ m'.dirWord j = entry 0 := by
  induction n generalizing va m with
  | zero =>
    refine absurd ?_ hen
    have hzero : m.missing va 0 = 0 := by
      rw [Machine.missing, Finset.card_eq_zero, Finset.filter_eq_empty_iff]
      rintro j - ⟨-, k, hk, -⟩
      omega
    cases pf with
    | kernel =>
      rw [enough_kernel]
      omega
    | user =>
      rw [enough_user]
      omega
  | succ n ih =>
    rcases mapPages_succ h hin hret with ⟨hr, -, -⟩ | ⟨i, t, hround, hgood | hbad, hrest⟩
    · exact .inl hr
    · refine (ih hround.ok hin.tail (fun h ↦ hen ((hgood.enough n).mpr h)) hrest).imp_right ?_
      rintro ⟨j, hj, hf, ht⟩
      refine ⟨j, hj, ?_, ht⟩
      by_contra hne
      rw [hround.grows.dir j hj (eq_true_of_ne_false hne), eq_true_of_ne_false hne] at hf
      cases hf
    · have hword := (mapPages_kept hround.ok hin.tail hrest).dir _ hin.idx
        (by rw [hbad.table]; decide)
      exact .inr ⟨_, hin.idx, hbad.absent, hword.trans hbad.table⟩

end Loop

/-! ## The call -/

section Call

variable {m m' : Machine} {pf : PoolFlags} {n : ℕ} {r : Option ℕ}

/-- If a run of free virtual pages is found, there are frames for it. -/
def Machine.Affords (m : Machine) (pf : PoolFlags) (n : ℕ) : Prop :=
  ∀ s, (m.vaddr pf).vaddrBitmap.scan n = some s →
    m.Enough pf ((m.vaddr pf).vaddrStart + s * pgSize) n

theorem returns_vaddrGet {v : Option ℕ} {t : Machine} (h : Returns (vaddrGet pf n) m v t) :
    ((m.vaddr pf).vaddrBitmap.scan n = none ∧ v = none ∧ t = m) ∨
      ∃ s, (m.vaddr pf).vaddrBitmap.scan n = some s ∧
        v = some ((m.vaddr pf).vaddrStart + s * pgSize) ∧
          t = m.setVaddrBitmap ((m.vaddr pf).vaddrBitmap.setRun s n true) pf := by
  rw [vaddrGet, returns_get_bind] at h
  cases hs : (m.vaddr pf).vaddrBitmap.scan n with
  | none =>
    rw [hs] at h
    exact .inl ⟨rfl, returns_pure.mp h⟩
  | some s =>
    rw [hs] at h
    obtain ⟨-, h⟩ := returns_check_bind.mp (returns_modify_bind.mp h)
    exact .inr ⟨s, rfl, returns_pure.mp h⟩

/-- The machine with the virtual pages reserved. -/
theorem Machine.AllocOk.reserve (h : m.AllocOk) (b : Bitmap) (pf : PoolFlags) :
    (m.setVaddrBitmap b pf).AllocOk := by
  cases pf <;> exact ⟨⟨h.selfMap, h.pool, h.unused⟩, h.user, h.tables, h.dir_pos, h.start_pos⟩

/-- **Failed page allocation.** Whenever `malloc_page` returns, it has left no trace of a failure
and mapped what it returns to frames of its own exactly if no run of virtual pages was found or the
frames suffice. -/
theorem mallocPage_faultless_iff (h : m.AllocOk) (hv : (m.vaddr pf).Below)
    (hret : Returns (mallocPage pf n) m r m') : m.Faultless m' pf n r ↔ m.Affords pf n := by
  obtain ⟨⟨hn, -⟩, hret⟩ := returns_check_bind.mp hret
  obtain ⟨v, t, h1, hrest⟩ := returns_bind.mp hret
  rcases returns_vaddrGet h1 with ⟨hs, rfl, rfl⟩ | ⟨s, hs, rfl, ht⟩
  · obtain ⟨rfl, rfl⟩ := returns_pure.mp hrest
    refine iff_of_true ⟨fun _ ↦ rfl, fun _ ↦ rfl, fun _ _ ↦ rfl, fun _ _ _ _ _ ↦ rfl⟩
      fun s hs' ↦ ?_
    rw [hs] at hs'
    cases hs'
  · obtain ⟨ok, t', hloop, hret⟩ := returns_bind.mp hrest
    obtain ⟨hr, rfl⟩ := returns_pure.mp hret
    obtain ⟨hlen, hfree⟩ := Bitmap.scan_spec hn hs
    have hok : t.AllocOk := by
      rw [ht]
      exact h.reserve _ pf
    have hdir : ∀ j, t.dirWord j = m.dirWord j := fun j ↦ by
      rw [ht]
      cases pf <;> rfl
    have hpool : ∀ pf', t.pool pf' = m.pool pf' := fun pf' ↦ by
      rw [ht]
      cases pf <;> cases pf' <;> rfl
    have htakes : ∀ {pf' i}, t.Takes m' pf' i → m.Takes m' pf' i := fun {pf' i} hi ↦ by
      rwa [Machine.Takes, hpool] at hi
    have hin : InRange ((m.vaddr pf).vaddrStart + s * pgSize) n := by
      have h1 := hv.start
      have h2 := hv.stop
      rw [InRange, pgSize]
      omega
    have hen : t.Enough pf ((m.vaddr pf).vaddrStart + s * pgSize) n ↔
        m.Enough pf ((m.vaddr pf).vaddrStart + s * pgSize) n := by
      have hmiss : ∀ va, t.missing va n = m.missing va n := fun va ↦ by
        simp only [Machine.missing, hdir]
      have hcount : ∀ pf', t.free pf' = m.free pf' := fun pf' ↦ by
        rw [Machine.free, hpool, Machine.free]
      cases pf with
      | kernel => rw [enough_kernel, enough_kernel, hmiss, hcount]
      | user => rw [enough_user, enough_user, hmiss, hcount, hcount]
    have haff : m.Affords pf n ↔ t.Enough pf ((m.vaddr pf).vaddrStart + s * pgSize) n := by
      rw [hen]
      refine ⟨fun h ↦ h s hs, fun h s' hs' ↦ ?_⟩
      rw [hs] at hs'
      obtain rfl := Option.some.inj hs'
      exact h
    rw [haff]
    by_cases hcase : t.Enough pf ((m.vaddr pf).vaddrStart + s * pgSize) n
    · refine iff_of_true ?_ hcase
      obtain ⟨rfl, -, ⟨f, hf, hinj⟩, hown⟩ := mapPages_enough hok hin hcase hloop
      rw [hr, if_pos rfl]
      refine ⟨⟨f, fun k hk ↦ ⟨htakes (hf k hk).1, ?_⟩, hinj⟩, fun j hj hf' ht' ↦ ?_⟩
      · rw [← hpool]
        exact (hf k hk).2
      · obtain ⟨i, hi, hframe⟩ := hown j hj (by rwa [hdir]) ht'
        refine ⟨i, htakes hi, hframe.trans ?_⟩
        exact congrArg (fun p ↦ Pool.frameAddr p i) (hpool .kernel)
    · refine iff_of_false (fun hfault ↦ ?_) hcase
      cases ok with
      | false =>
        rw [hr, if_neg (by decide)] at hfault
        -- the pages of the range are still reserved
        have hbits := hfault.1 pf
        rw [(mapPages_kept hok hin hloop).vaddr, ht] at hbits
        have hrun : ((m.setVaddrBitmap ((m.vaddr pf).vaddrBitmap.setRun s n true) pf).vaddr
            pf).vaddrBitmap = (m.vaddr pf).vaddrBitmap.setRun s n true := by cases pf <;> rfl
        have hset := congrArg (Bitmap.bit · s) (hrun.symm.trans hbits)
        rw [Bitmap.bit_setRun, if_pos ⟨le_refl s, by omega⟩, hfree s (le_refl s) (by omega)] at hset
        cases hset
      | true =>
        rw [hr, if_pos rfl] at hfault
        obtain hno | ⟨j, hj, hf, ht'⟩ := mapPages_short hok hin hcase hloop
        · cases hno
        · rw [hdir] at hf
          obtain ⟨i, -, hframe⟩ := hfault.2 j hj hf (by rw [ht']; decide)
          have hs := h.start_pos
          rw [ht', frame_entry rfl, Pool.frameAddr] at hframe
          omega

end Call

/-! ### A process without frames -/

/-- All frames of the user pool are taken; the process has eight virtual pages, all free. -/
def Machine.drained : Machine :=
  { Machine.bare with
    userPool := ⟨⟨1, fun _ ↦ 0xff⟩, 0x208000, 0x8000⟩
    userprogVaddr := ⟨⟨1, fun _ ↦ 0⟩, 0x8048000⟩ }

theorem drained_allocOk : Machine.drained.AllocOk where
  selfMap := bare_pagingOk.selfMap
  pool := bare_pagingOk.pool
  unused := bare_pagingOk.unused
  user := ⟨by decide, by decide⟩
  tables j hj hp := by
    have hword : Machine.drained.dirWord j = 0 := bare_dir hj
    rw [hword] at hp
    cases hp
  dir_pos := show 0 < 0x100000 by decide
  start_pos := show 0 < 0x200000 by decide

theorem drained_below : (Machine.drained.vaddr .user).Below := ⟨by decide, by decide⟩

theorem drained_scan : (Machine.drained.vaddr .user).vaddrBitmap.scan 1 = some 0 := by decide

/-- `malloc_page` reserves the first page, and fails. -/
theorem drained_returns : Returns (mallocPage .user 1) Machine.drained none
    (Machine.drained.setVaddrBitmap (Machine.drained.userprogVaddr.vaddrBitmap.setRun 0 1 true)
      .user) := by
  have hget : Returns (vaddrGet .user 1) Machine.drained (some 0x8048000)
      (Machine.drained.setVaddrBitmap (Machine.drained.userprogVaddr.vaddrBitmap.setRun 0 1 true)
        .user) := by
    rw [vaddrGet, returns_get_bind, drained_scan]
    exact returns_modify_bind.mpr (returns_check_bind.mpr
      ⟨fun _ ↦ by decide, returns_pure.mpr ⟨rfl, rfl⟩⟩)
  have hloop : Returns (mapPages .user 0x8048000 1) (Machine.drained.setVaddrBitmap
      (Machine.drained.userprogVaddr.vaddrBitmap.setRun 0 1 true) .user) false _ :=
    returns_bind.mpr ⟨none, _, returns_palloc_none .user (by decide),
      returns_pure.mpr ⟨rfl, rfl⟩⟩
  exact returns_check_bind.mpr ⟨by decide, returns_bind.mpr ⟨_, _, hget,
    returns_bind.mpr ⟨_, _, hloop, returns_pure.mpr ⟨rfl, rfl⟩⟩⟩⟩

theorem mallocPage_faultless_iff_drained : ¬Machine.drained.Faultless
    (Machine.drained.setVaddrBitmap (Machine.drained.userprogVaddr.vaddrBitmap.setRun 0 1 true)
      .user) .user 1 none := by
  intro h
  have hen := (mallocPage_faultless_iff drained_allocOk drained_below drained_returns).mp h 0
    drained_scan
  exact absurd (enough_user.mp hen).1 (by decide)

theorem not_forall_faultless : ¬∀ (m m' : Machine) (pf : PoolFlags) (n : ℕ) (r : Option ℕ),
    m.AllocOk → (m.vaddr pf).Below → Returns (mallocPage pf n) m r m' → m.Faultless m' pf n r := by
  intro h
  have hbits := (h _ _ _ _ _ drained_allocOk drained_below drained_returns).1 .user
  exact absurd (congrArg (Bitmap.bit · 0) hbits) (by decide)

end GlowOS
