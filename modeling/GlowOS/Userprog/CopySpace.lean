import Mathlib
import GlowOS.Userprog.Space

/-!
# The child's copy of the address space

`CopyInv` is the invariant of `copy_body_stack3`. It describes the user half of the child's directory
by two functions (`Space`), says that their frames are the ones taken from the two pools since the
call, and that memory is unchanged in every frame that was in use, apart from the buffer and the
user half of the child's directory. The parent is translated through frames in use only, so nothing
the loop does is seen by it.
-/

namespace GlowOS

open Bytes Paging Program

/-! ## Before the copy -/

/-- The frame is not free in either pool. -/
def Machine.Used (m : Machine) (q : ℕ) : Prop :=
  (∀ i < 8 * m.kernelPool.poolBitmap.btmpBytesLen,
    m.kernelPool.poolBitmap.bit i = false → m.kernelPool.frameAddr i ≠ q) ∧
  ∀ i < 8 * m.userPool.poolBitmap.btmpBytesLen,
    m.userPool.poolBitmap.bit i = false → m.userPool.frameAddr i ≠ q

/-- The frame is in use, and not as the child's directory or the buffer. -/
structure Machine.Kept (m : Machine) (cd bf q : ℕ) : Prop where
  used : m.Used q
  ne_child : q ≠ cd
  ne_buf : q ≠ bf

/-- A page of the kernel half, and the frame it shows. -/
structure Machine.KernelPage (m : Machine) (va q : ℕ) : Prop where
  aligned : va % 4096 = 0
  low : 768 ≤ pdeIdx va
  high : pdeIdx va < 1023
  walk : m.walk va = some q

/-- The state in which `copy_body_stack3` is called. The directories of parent and child are at `pd`
and `cd`, the buffer at `bf`, and `pv`, `cv` and `bv` are their addresses in the kernel half. The
directory of the child is as `create_page_dir` leaves it, and what is in use is not free. -/
structure Machine.ForkReady (m : Machine) (pv cv bv pd cd bf : ℕ) : Prop where
  kernelPool : m.kernelPool.Aligned
  userPool : m.userPool.Aligned
  apart : m.kernelPool.frameAddr (8 * m.kernelPool.poolBitmap.btmpBytesLen) ≤
    m.userPool.phyAddrStart
  cr3 : m.cr3 = pd
  parentSelf : SelfMap m.phys pd
  childSelf : SelfMap m.phys cd
  childUser : ∀ j < 768, present (le32 m.phys (cd + 4 * j)) = false
  childKernel : ∀ j, 768 ≤ j → j < 1023 → le32 m.phys (cd + 4 * j) = le32 m.phys (pd + 4 * j)
  parentPage : m.KernelPage pv pd
  childPage : m.KernelPage cv cd
  bufPage : m.KernelPage bv bf
  childUsed : m.Used cd
  bufUsed : m.Used bf
  buf_ne : bf ≠ cd
  parentKept : m.Kept cd bf pd
  tablesKept : ∀ j < 1024, present (le32 m.phys (pd + 4 * j)) = true →
    m.Kept cd bf (frame (le32 m.phys (pd + 4 * j)))
  userKept : ∀ va, pdeIdx va < 768 → ∀ pa, m.walk va = some pa → m.Kept cd bf (frame pa)

/-! ## The invariant -/

/-- After some pages were copied: `table` and `map` describe the user half of the child. -/
structure CopyInv (m₀ m : Machine) (cd bf : ℕ) (table map : ℕ → Option ℕ) : Prop where
  kernelStart : m.kernelPool.phyAddrStart = m₀.kernelPool.phyAddrStart
  kernelLen : m.kernelPool.poolBitmap.btmpBytesLen = m₀.kernelPool.poolBitmap.btmpBytesLen
  userStart : m.userPool.phyAddrStart = m₀.userPool.phyAddrStart
  userLen : m.userPool.poolBitmap.btmpBytesLen = m₀.userPool.poolBitmap.btmpBytesLen
  vaddr : m.userprogVaddr = m₀.userprogVaddr
  keep : ∀ q, q % 4096 = 0 → m₀.Kept cd bf q → Agree m₀.phys m.phys q 4096
  keepTop : Agree m₀.phys m.phys (cd + 4 * 768) 1024
  space : Space m.phys cd 768 table map
  tables : ∀ j t, table j = some t → j < 768 ∧ ∃ i < 8 * m₀.kernelPool.poolBitmap.btmpBytesLen,
    m₀.kernelPool.poolBitmap.bit i = false ∧ t = m₀.kernelPool.frameAddr i
  tableInj : ∀ i j t, table i = some t → table j = some t → i = j
  kernelBit : ∀ i, m.kernelPool.poolBitmap.bit i = true ↔
    m₀.kernelPool.poolBitmap.bit i = true ∨ ∃ j, table j = some (m₀.kernelPool.frameAddr i)
  maps : ∀ n p, map n = some p → ∃ i < 8 * m₀.userPool.poolBitmap.btmpBytesLen,
    m₀.userPool.poolBitmap.bit i = false ∧ p = m₀.userPool.frameAddr i
  mapInj : ∀ n k p, map n = some p → map k = some p → n = k
  userBit : ∀ i, m.userPool.poolBitmap.bit i = true ↔
    m₀.userPool.poolBitmap.bit i = true ∨ ∃ n, map n = some (m₀.userPool.frameAddr i)

/-- The pages copied so far have the contents of the parent's at the call. -/
def Copied (m₀ m : Machine) (map : ℕ → Option ℕ) : Prop :=
  ∀ n p q, map n = some p → m₀.walk (4096 * n) = some q →
    ∀ o < 4096, m.phys (p + o) = m₀.phys (q + o)

section Frames

variable {m : Machine} {pv cv bv pd cd bf i j q va : ℕ}

theorem Pool.frameAddr_mod {p : Pool} (h : p.Aligned) (i : ℕ) : p.frameAddr i % 4096 = 0 := by
  have hs := h.start
  rw [Pool.frameAddr, pgSize]
  omega

theorem Pool.frameAddr_inj {p : Pool} : p.frameAddr i = p.frameAddr j ↔ i = j := by
  rw [Pool.frameAddr, Pool.frameAddr, pgSize]
  omega

theorem Pool.frameAddr_lt {p : Pool} (h : p.Aligned) (hi : i < 8 * p.poolBitmap.btmpBytesLen) :
    p.frameAddr i < 2 ^ 32 := by
  have hf := h.fits
  rw [Pool.frameAddr, pgSize]
  omega

/-- The frames of the two pools are different. -/
theorem Machine.ForkReady.frames_ne (h : m.ForkReady pv cv bv pd cd bf)
    (hi : i < 8 * m.kernelPool.poolBitmap.btmpBytesLen) :
    m.kernelPool.frameAddr i ≠ m.userPool.frameAddr j := by
  have ha := h.apart
  rw [Pool.frameAddr, pgSize] at *
  rw [Pool.frameAddr, pgSize]
  omega

/-- The words of a translation are not in a frame other than the directory and the table. -/
theorem Machine.avoids_of_ne (hd : m.cr3 % 4096 = 0) (hidx : pdeIdx va < 1024) (hq : q % 4096 = 0)
    (h₁ : m.cr3 ≠ q) (h₂ : present (m.pde va) = true → frame (m.pde va) ≠ q) :
    m.Avoids va q (q + 4096) := by
  rintro a (rfl | ⟨hp, rfl⟩)
  · rw [pdeAddr]
    omega
  · have hne := h₂ hp
    have hk := pteIdx_lt va
    have hf := frame_mod (m.pde va)
    have hpte : Paging.pteAddr m.phys m.cr3 va = frame (m.pde va) + 4 * pteIdx va := rfl
    rw [hpte]
    omega

end Frames

/-! ## What stays as it was -/

namespace CopyInv

variable {m₀ m : Machine} {pv cv bv pd cd bf : ℕ} {table map : ℕ → Option ℕ} {i j k n p q t va : ℕ}

theorem start (h₀ : m₀.ForkReady pv cv bv pd cd bf) :
    CopyInv m₀ m₀ cd bf (fun _ ↦ none) fun _ ↦ none where
  kernelStart := rfl
  kernelLen := rfl
  userStart := rfl
  userLen := rfl
  vaddr := rfl
  keep _ _ _ _ _ := rfl
  keepTop _ _ := rfl
  space := ⟨h₀.childUser, (fun _ _ _ ht ↦ nomatch ht), fun _ _ _ _ _ ↦ rfl⟩
  tables _ _ ht := by cases ht
  tableInj _ _ _ ht := by cases ht
  kernelBit i := by simp
  maps _ _ hp := by cases hp
  mapInj _ _ _ hp := by cases hp
  userBit i := by simp

theorem setCr3 (h : CopyInv m₀ m cd bf table map) (d : ℕ) :
    CopyInv m₀ { m with cr3 := d } cd bf table map :=
  ⟨h.kernelStart, h.kernelLen, h.userStart, h.userLen, h.vaddr, h.keep, h.keepTop, h.space,
    h.tables, h.tableInj, h.kernelBit, h.maps, h.mapInj, h.userBit⟩

section Same

variable (h₀ : m₀.ForkReady pv cv bv pd cd bf) (h : CopyInv m₀ m cd bf table map)
include h

theorem kernelFrame (i : ℕ) : m.kernelPool.frameAddr i = m₀.kernelPool.frameAddr i := by
  rw [Pool.frameAddr, Pool.frameAddr, h.kernelStart]

theorem userFrame (i : ℕ) : m.userPool.frameAddr i = m₀.userPool.frameAddr i := by
  rw [Pool.frameAddr, Pool.frameAddr, h.userStart]

include h₀

theorem parentWord (hj : j < 1024) : le32 m.phys (pd + 4 * j) = le32 m₀.phys (pd + 4 * j) :=
  (h.keep pd h₀.parentSelf.aligned h₀.parentKept).le32 (by omega) (by omega)

theorem parentTableWord (hj : j < 1024) (hp : present (le32 m₀.phys (pd + 4 * j)) = true)
    (hk : k < 1024) : le32 m.phys (frame (le32 m₀.phys (pd + 4 * j)) + 4 * k) =
      le32 m₀.phys (frame (le32 m₀.phys (pd + 4 * j)) + 4 * k) :=
  (h.keep _ (frame_mod _) (h₀.tablesKept j hj hp)).le32 (by omega) (by omega)

theorem parentSelf : SelfMap m.phys pd := by
  have hlast := h.parentWord h₀ (j := 1023) (by decide)
  exact ⟨by rw [hlast]; exact h₀.parentSelf.present, by rw [hlast]; exact h₀.parentSelf.frame⟩

/-- The parent is translated as at the call. -/
theorem walk_parent (hidx : pdeIdx va < 1024) :
    Paging.walk m.phys pd va = Paging.walk m₀.phys pd va := by
  refine (walk_congr (f := m₀.phys) fun a ha ↦ ?_).1
  rcases ha with rfl | ⟨hp, rfl⟩
  · exact h.parentWord h₀ hidx
  · exact h.parentTableWord h₀ hidx hp (pteIdx_lt va)

omit h₀ in
theorem childWord (hj : 768 ≤ j) (hj' : j < 1024) :
    le32 m.phys (cd + 4 * j) = le32 m₀.phys (cd + 4 * j) :=
  h.keepTop.le32 (by omega) (by omega)

theorem childSelf : SelfMap m.phys cd := by
  have hlast := h.childWord (j := 1023) (by decide) (by decide)
  exact ⟨by rw [hlast]; exact h₀.childSelf.present, by rw [hlast]; exact h₀.childSelf.frame⟩

/-- In the kernel half the directory word of the child is the parent's. -/
theorem childKernelWord (hj : 768 ≤ j) (hj' : j < 1023) :
    le32 m.phys (cd + 4 * j) = le32 m₀.phys (pd + 4 * j) :=
  (h.childWord hj (by omega)).trans (h₀.childKernel j hj hj')

/-- The kernel half of the child shows the same frames. -/
theorem walk_childKernel (hv : m₀.KernelPage va q) : Paging.walk m.phys cd va = some q := by
  have hwalk := hv.walk
  rw [Machine.walk, h₀.cr3] at hwalk
  obtain ⟨h1, h2, rfl⟩ := walk_eq_some.mp hwalk
  have hpde : le32 m.phys (pdeAddr cd va) = le32 m₀.phys (pdeAddr pd va) :=
    h.childKernelWord h₀ hv.low hv.high
  have hpte : pteAddr m.phys cd va = pteAddr m₀.phys pd va := by rw [pteAddr, pteAddr, hpde]
  have hword : le32 m.phys (pteAddr m.phys cd va) = le32 m₀.phys (pteAddr m₀.phys pd va) := by
    rw [hpte]
    exact h.parentTableWord h₀ (Nat.lt_succ_of_lt hv.high) h1 (pteIdx_lt va)
  rw [walk_of_present (by rw [hpde]; exact h1) (by rw [hword]; exact h2), hword]

/-- A free frame of the user pool is neither the directory of the child nor one of its tables. -/
theorem userFrame_ne (hi : i < 8 * m₀.userPool.poolBitmap.btmpBytesLen)
    (hfree : m₀.userPool.poolBitmap.bit i = false) :
    cd ≠ m₀.userPool.frameAddr i ∧ bf ≠ m₀.userPool.frameAddr i ∧
      ∀ j t, table j = some t → t ≠ m₀.userPool.frameAddr i := by
  refine ⟨(h₀.childUsed.2 i hi hfree).symm, (h₀.bufUsed.2 i hi hfree).symm, fun j t ht ↦ ?_⟩
  obtain ⟨-, l, hl, -, rfl⟩ := h.tables j t ht
  exact h₀.frames_ne hl

/-- The child's tables stand in frames of their own. -/
theorem tablesApart : Space.Apart cd table where
  dir := h₀.childSelf.aligned
  aligned j t ht := by
    obtain ⟨-, i, -, -, rfl⟩ := h.tables j t ht
    exact Pool.frameAddr_mod h₀.kernelPool i
  ne_dir j t ht := by
    obtain ⟨-, i, hi, hfree, rfl⟩ := h.tables j t ht
    exact h₀.childUsed.1 i hi hfree
  inj i j t := h.tableInj i j t

/-- Where the translation of an address of the kernel half does not read, in either directory. -/
theorem avoids_kernel {x : Machine} (hx : x.phys = m.phys) (hv : m₀.KernelPage va p)
    (hq : q % 4096 = 0) (hpd : pd ≠ q) (hcd : cd ≠ q)
    (ht : ∀ j < 1024, present (le32 m₀.phys (pd + 4 * j)) = true →
      frame (le32 m₀.phys (pd + 4 * j)) ≠ q) (hcr3 : x.cr3 = pd ∨ x.cr3 = cd) :
    x.Avoids va q (q + 4096) := by
  have hidx : pdeIdx va < 1024 := Nat.lt_succ_of_lt hv.high
  have hpde : x.pde va = le32 m₀.phys (pd + 4 * pdeIdx va) := by
    rw [Machine.pde, hx]
    rcases hcr3 with hc | hc <;> rw [hc]
    · exact h.parentWord h₀ hidx
    · exact h.childKernelWord h₀ hv.low hv.high
  refine Machine.avoids_of_ne ?_ hidx hq ?_ ?_
  · rcases hcr3 with hc | hc <;> rw [hc]
    · exact h₀.parentSelf.aligned
    · exact h₀.childSelf.aligned
  · rcases hcr3 with hc | hc <;> rw [hc]
    · exact hpd
    · exact hcd
  · rw [hpde]
    exact ht _ hidx

/-- The translation of the parent does not read the buffer. -/
theorem avoids_parent {x : Machine} (hx : x.phys = m.phys) (hcr3 : x.cr3 = pd)
    (hidx : pdeIdx va < 1024) (hbf : bf % 4096 = 0) : x.Avoids va bf (bf + 4096) := by
  have hpde : x.pde va = le32 m₀.phys (pd + 4 * pdeIdx va) := by
    rw [Machine.pde, hx, hcr3]
    exact h.parentWord h₀ hidx
  refine Machine.avoids_of_ne (by rw [hcr3]; exact h₀.parentSelf.aligned) hidx hbf ?_ ?_
  · rw [hcr3]
    exact h₀.parentKept.ne_buf
  · rw [hpde]
    exact fun hp ↦ (h₀.tablesKept _ hidx hp).ne_buf

end Same

/-! ## Steps -/

theorem buf_mod (h₀ : m₀.ForkReady pv cv bv pd cd bf) : bf % 4096 = 0 :=
  walk_mod h₀.bufPage.walk h₀.bufPage.aligned

section Steps

variable (h₀ : m₀.ForkReady pv cv bv pd cd bf) (h : CopyInv m₀ m cd bf table map)
include h₀ h

/-- A table of the child is neither the buffer nor a frame in use. -/
theorem table_ne (ht : table j = some t) : t ≠ bf ∧ ∀ q, m₀.Kept cd bf q → t ≠ q := by
  obtain ⟨-, i, hi, hfree, rfl⟩ := h.tables j t ht
  exact ⟨h₀.bufUsed.1 i hi hfree, fun q hq ↦ hq.used.1 i hi hfree⟩

/-- The buffer is filled. -/
theorem setBuf (g : Image) :
    CopyInv m₀ { m with phys := splice m.phys bf 4096 g } cd bf table map := by
  have hb := buf_mod h₀
  have hc := h₀.childSelf.aligned
  have hne := h₀.buf_ne
  refine ⟨h.kernelStart, h.kernelLen, h.userStart, h.userLen, h.vaddr, fun q hq hkept ↦ ?_, ?_, ?_,
    h.tables, h.tableInj, h.kernelBit, h.maps, h.mapInj, h.userBit⟩
  · have hqb := hkept.ne_buf
    exact (h.keep q hq hkept).trans (agree_splice (by omega))
  · exact h.keepTop.trans (agree_splice (by omega))
  · refine h.space.congr (fun j hj ↦ ?_) fun j hj t ht k hk ↦ ?_
    · exact le32_splice_of_disjoint (by omega)
    · have htb := (h.table_ne h₀ ht).1
      have hta := (h.tablesApart h₀).aligned j t ht
      exact le32_splice_of_disjoint (by omega)

/-- A free frame of the kernel pool may become a page table of the child. -/
theorem fresh (hcr3 : m.cr3 = cd) (hi : m.kernelPool.poolBitmap.scan 1 = some i) :
    i < 8 * m₀.kernelPool.poolBitmap.btmpBytesLen ∧ m₀.kernelPool.poolBitmap.bit i = false ∧
      (∀ j, table j ≠ some (m₀.kernelPool.frameAddr i)) ∧ m.Fresh (m.kernelPool.frameAddr i) := by
  obtain ⟨hlen, hset, -⟩ := Bitmap.scan_one_eq_some.mp hi
  rw [h.kernelLen] at hlen
  have hno : ¬(m₀.kernelPool.poolBitmap.bit i = true ∨
      ∃ j, table j = some (m₀.kernelPool.frameAddr i)) := by
    rw [← h.kernelBit, hset]
    decide
  have hfree : m₀.kernelPool.poolBitmap.bit i = false := by
    simpa using fun hb ↦ hno (.inl hb)
  have hne : ∀ j, table j ≠ some (m₀.kernelPool.frameAddr i) := fun j hj ↦ hno (.inr ⟨j, hj⟩)
  refine ⟨hlen, hfree, hne, ?_⟩
  rw [h.kernelFrame]
  have hcd := h₀.childUsed.1 i hlen hfree
  refine ⟨Pool.frameAddr_mod h₀.kernelPool i, Pool.frameAddr_lt h₀.kernelPool hlen,
    by rw [hcr3]; exact hcd, fun j hj hp ↦ ?_⟩
  rw [hcr3] at hp ⊢
  -- the entries of the user half, of the kernel half, and the one for the directory itself
  rcases Nat.lt_or_ge j 768 with hlow | hhigh
  · have hdir := h.space.dir j hlow
    cases ht : table j with
    | none =>
      rw [ht] at hdir
      exact absurd (hdir.symm.trans hp) (by decide)
    | some t =>
      rw [ht] at hdir
      rw [hdir.2]
      rintro rfl
      exact hne j ht
  · rcases Nat.lt_or_ge j 1023 with hkernel | hlast
    · rw [h.childKernelWord h₀ hhigh hkernel] at hp ⊢
      exact ((h₀.tablesKept j hj hp).used.1 i hlen hfree).symm
    · obtain rfl : j = 1023 := by omega
      rw [(h.childSelf h₀).frame]
      exact hcd.symm

/-- A page table is added to the child. -/
theorem newTable (hcr3 : m.cr3 = cd) (hva : pdeIdx va < 768) (hnone : table (pdeIdx va) = none)
    (hi : m.kernelPool.poolBitmap.scan 1 = some i) : CopyInv m₀ (m.newTable va i) cd bf
      (Function.update table (pdeIdx va) (some (m₀.kernelPool.frameAddr i))) map := by
  obtain ⟨hlen, hfree, hne, hfresh⟩ := h.fresh h₀ hcr3 hi
  have hself : SelfMap m.phys m.cr3 := by
    rw [hcr3]
    exact h.childSelf h₀
  have hva' : pdeIdx va < 1023 := Nat.lt_trans hva (by decide)
  have hkf := h.kernelFrame i
  have hc := h₀.childSelf.aligned
  have hmod := Pool.frameAddr_mod h₀.kernelPool i
  have hcd := h₀.childUsed.1 i hlen hfree
  have hphys : (m.newTable va i).phys =
      splice (setWord m.phys (cd + 4 * pdeIdx va) (entry (m₀.kernelPool.frameAddr i)))
        (m₀.kernelPool.frameAddr i) 4096 fun _ ↦ 0 := by
    rw [Machine.newTable, hcr3, hkf, pdeAddr]
  refine ⟨h.kernelStart, h.kernelLen, h.userStart, h.userLen, h.vaddr, fun q hq hkept ↦ ?_, ?_, ?_,
    fun j t ht ↦ ?_, fun j l t hj hl ↦ ?_, fun l ↦ ?_, h.maps, h.mapInj, h.userBit⟩
  · have hqc := hkept.ne_child
    have hqk := hkept.used.1 i hlen hfree
    rw [hphys]
    exact ((h.keep q hq hkept).trans (agree_splice (by omega))).trans (agree_splice (by omega))
  · rw [hphys]
    exact (h.keepTop.trans (agree_splice (by omega))).trans (agree_splice (by omega))
  · have hdirWord := fun {j : ℕ} (hj : j < 1024) (hjv : j ≠ pdeIdx va) ↦
      newTable_dir hself hfresh hj hjv
    rw [hcr3] at hdirWord
    refine h.space.extend hva hnone ?_ (fun k hk ↦ ?_) (fun j hj hjv ↦ hdirWord (by omega) hjv)
      fun j hj t ht k hk ↦ ?_
    · have hpde := newTable_pde hself hfresh hva'
      rw [hcr3, hkf, pdeAddr] at hpde
      rw [hpde]
      exact ⟨present_entry hmod, frame_entry hmod⟩
    · have hempty : le32 (m.newTable va i).phys (m.kernelPool.frameAddr i + 4 * k) = 0 :=
        newTable_table hk
      rw [hkf] at hempty
      rw [hempty]
      rfl
    · have hta := (h.tablesApart h₀).aligned j t ht
      have htc := (h.tablesApart h₀).ne_dir j t ht
      have htk : t ≠ m₀.kernelPool.frameAddr i := fun heq ↦ hne j (heq ▸ ht)
      rw [hphys, le32_splice_of_disjoint (by omega)]
      exact le32_splice_of_disjoint (by omega)
  · by_cases hj : j = pdeIdx va
    · rw [hj, Function.update_self] at ht
      obtain rfl := Option.some.inj ht
      exact ⟨hj ▸ hva, i, hlen, hfree, rfl⟩
    · rw [Function.update_of_ne hj] at ht
      exact h.tables j t ht
  · by_cases hjv : j = pdeIdx va <;> by_cases hlv : l = pdeIdx va
    · rw [hjv, hlv]
    · rw [hjv, Function.update_self] at hj
      rw [Function.update_of_ne hlv] at hl
      exact absurd (hl.trans hj.symm) (hne l)
    · rw [hlv, Function.update_self] at hl
      rw [Function.update_of_ne hjv] at hj
      exact absurd (hj.trans hl.symm) (hne j)
    · rw [Function.update_of_ne hjv] at hj
      rw [Function.update_of_ne hlv] at hl
      exact h.tableInj j l t hj hl
  · change (m.kernelPool.poolBitmap.set i true).bit l = true ↔ _
    rw [Bitmap.bit_set]
    by_cases hl : l = i
    · rw [if_pos hl, hl]
      exact iff_of_true rfl (.inr ⟨pdeIdx va, Function.update_self ..⟩)
    · rw [if_neg hl, h.kernelBit]
      refine or_congr_right (exists_congr fun j ↦ ?_)
      by_cases hj : j = pdeIdx va
      · rw [hj, Function.update_self, hnone]
        refine iff_of_false (by simp) fun heq ↦ hl ?_
        exact (Pool.frameAddr_inj.mp (Option.some.inj heq)).symm
      · rw [Function.update_of_ne hj]

/-- The frame that `palloc` takes from the user pool was free at the call, and is not mapped. -/
theorem userScan (hi : m.userPool.poolBitmap.scan 1 = some i) :
    i < 8 * m₀.userPool.poolBitmap.btmpBytesLen ∧ m₀.userPool.poolBitmap.bit i = false ∧
      ∀ n, map n ≠ some (m₀.userPool.frameAddr i) := by
  obtain ⟨hlen, hset, -⟩ := Bitmap.scan_one_eq_some.mp hi
  rw [h.userLen] at hlen
  have hno : ¬(m₀.userPool.poolBitmap.bit i = true ∨
      ∃ n, map n = some (m₀.userPool.frameAddr i)) := by
    rw [← h.userBit, hset]
    decide
  exact ⟨hlen, by simpa using fun hb ↦ hno (.inl hb), fun n hn ↦ hno (.inr ⟨n, hn⟩)⟩

/-- A free frame of the user pool is entered for a page of a table that exists, and filled. -/
theorem enterPage (hi : m.userPool.poolBitmap.scan 1 = some i) (hj : j < 768) (hk : k < 1024)
    (ht : table j = some t) (hnone : map (1024 * j + k) = none) (g : Image) :
    CopyInv m₀ { m with
        userPool := { m.userPool with poolBitmap := m.userPool.poolBitmap.set i true }
        phys := splice (setWord m.phys (t + 4 * k) (entry (m₀.userPool.frameAddr i)))
          (m₀.userPool.frameAddr i) 4096 g } cd bf table
      (Function.update map (1024 * j + k) (some (m₀.userPool.frameAddr i))) := by
  obtain ⟨hlen, hfree, hne⟩ := h.userScan h₀ hi
  obtain ⟨hcu, -, htu⟩ := h.userFrame_ne h₀ hlen hfree
  have hc := h₀.childSelf.aligned
  have hmod := Pool.frameAddr_mod h₀.userPool i
  have hta := (h.tablesApart h₀).aligned j t ht
  have htc := (h.tablesApart h₀).ne_dir j t ht
  refine ⟨h.kernelStart, h.kernelLen, h.userStart, h.userLen, h.vaddr, fun q hq hkept ↦ ?_, ?_, ?_,
    h.tables, h.tableInj, h.kernelBit, fun n p hn ↦ ?_, fun n l p hn hl ↦ ?_, fun l ↦ ?_⟩
  · have hqu := hkept.used.2 i hlen hfree
    have hqt := (h.table_ne h₀ ht).2 q hkept
    exact ((h.keep q hq hkept).trans (agree_splice (by omega))).trans (agree_splice (by omega))
  · exact (h.keepTop.trans (agree_splice (by omega))).trans (agree_splice (by omega))
  · have henter := h.space.enter (h.tablesApart h₀) (by decide) hj hk ht
      (entry_lt hmod (Pool.frameAddr_lt h₀.userPool hlen))
      (p := m₀.userPool.frameAddr i) ⟨present_entry hmod, frame_entry hmod⟩
    refine henter.congr (fun l hl ↦ le32_splice_of_disjoint (by omega)) fun l hl u hu o ho ↦ ?_
    have hua := (h.tablesApart h₀).aligned l u hu
    have huu := htu l u hu
    exact le32_splice_of_disjoint (by omega)
  · by_cases hnk : n = 1024 * j + k
    · rw [hnk, Function.update_self] at hn
      exact ⟨i, hlen, hfree, (Option.some.inj hn).symm⟩
    · rw [Function.update_of_ne hnk] at hn
      exact h.maps n p hn
  · by_cases hnk : n = 1024 * j + k <;> by_cases hlk : l = 1024 * j + k
    · rw [hnk, hlk]
    · rw [hnk, Function.update_self] at hn
      rw [Function.update_of_ne hlk] at hl
      exact absurd (hl.trans hn.symm) (hne l)
    · rw [hlk, Function.update_self] at hl
      rw [Function.update_of_ne hnk] at hn
      exact absurd (hn.trans hl.symm) (hne n)
    · rw [Function.update_of_ne hnk] at hn
      rw [Function.update_of_ne hlk] at hl
      exact h.mapInj n l p hn hl
  · change (m.userPool.poolBitmap.set i true).bit l = true ↔ _
    rw [Bitmap.bit_set]
    by_cases hl : l = i
    · rw [if_pos hl, hl]
      exact iff_of_true rfl (.inr ⟨1024 * j + k, Function.update_self ..⟩)
    · rw [if_neg hl, h.userBit]
      refine or_congr_right (exists_congr fun n ↦ ?_)
      by_cases hn : n = 1024 * j + k
      · rw [hn, Function.update_self, hnone]
        refine iff_of_false (by simp) fun heq ↦ hl ?_
        exact (Pool.frameAddr_inj.mp (Option.some.inj heq)).symm
      · rw [Function.update_of_ne hn]

end Steps

/-- The kernel pool gives what the tables need: nothing if the page has its table, else one frame. -/
def TakesTable (m m' : Machine) (table table' : ℕ → Option ℕ) (j : ℕ) : Prop :=
  (table j ≠ none ∧ table' = table ∧ m'.kernelPool = m.kernelPool) ∨
    table j = none ∧ (∃ t, table' = Function.update table j (some t)) ∧
      m'.kernelPool.poolBitmap.freeCount + 1 = m.kernelPool.poolBitmap.freeCount

/-- `page_table_add` on a page of the child, after a frame of the user pool was taken: the table is
there, or is added first, and then the word of the page is written. -/
theorem pageTableAdd_child (h₀ : m₀.ForkReady pv cv bv pd cd bf)
    (h : CopyInv m₀ m cd bf table map) (hcr3 : m.cr3 = cd) (hn : n < 768 * 1024)
    (hnone : map n = none)
    (hkernel : table (n / 1024) = none → 0 < m.kernelPool.poolBitmap.freeCount) (b : Bitmap) :
    ∃ x table' t, CopyInv m₀ x cd bf table' map ∧ table' (n / 1024) = some t ∧ x.cr3 = cd ∧
      x.userPool = m.userPool ∧
      Returns (pageTableAdd (4096 * n) p) (m.setPoolBitmap b .user) ()
        ((x.setPoolBitmap b .user).store (t + 4 * (n % 1024)) (entry p)) ∧
      (∀ q, q % 4096 = 0 → q ≠ cd → (∀ i < 8 * m₀.kernelPool.poolBitmap.btmpBytesLen,
        m₀.kernelPool.poolBitmap.bit i = false → m₀.kernelPool.frameAddr i ≠ q) →
          Agree m.phys x.phys q 4096) ∧
      TakesTable m x table table' (n / 1024) := by
  have hidx : pdeIdx (4096 * n) = n / 1024 := by
    rw [pdeIdx]
    omega
  have hpte : pteIdx (4096 * n) = n % 1024 := by
    rw [pteIdx]
    omega
  have hlow : n / 1024 < 768 := by omega
  have hself : SelfMap m.phys m.cr3 := by
    rw [hcr3]
    exact h.childSelf h₀
  have hdir := h.space.dir _ hlow
  cases ht : table (n / 1024) with
  | some t =>
    rw [ht] at hdir
    have hpde : m.pde (4096 * n) = le32 m.phys (cd + 4 * (n / 1024)) := by
      rw [Machine.pde, pdeAddr, hcr3, hidx]
    have haddr : m.pteAddr (4096 * n) = t + 4 * (n % 1024) := by
      change frame (m.pde (4096 * n)) + 4 * pteIdx (4096 * n) = _
      rw [hpde, hdir.2, hpte]
    have hword := h.space.page _ hlow t ht (n % 1024) (Nat.mod_lt _ (by decide))
    rw [Nat.div_add_mod, hnone] at hword
    refine ⟨m, table, t, h, ht, hcr3, rfl, ?_, fun q _ _ _ ↦ Agree.refl _ _ _,
      .inl ⟨by simp [ht], rfl, rfl⟩⟩
    rw [← haddr]
    exact pageTableAdd_present (m := m.setPoolBitmap b .user) hself (by omega)
      (by rw [show (m.setPoolBitmap b .user).pde (4096 * n) = m.pde (4096 * n) from rfl, hpde]
          exact hdir.1)
      (by change present (le32 m.phys (m.pteAddr (4096 * n))) = false; rw [haddr]; exact hword)
  | none =>
    rw [ht] at hdir
    obtain ⟨i, hi⟩ := Bitmap.exists_scan_one (hkernel ht)
    obtain ⟨hlen, hfree, -, hfresh⟩ := h.fresh h₀ hcr3 hi
    have hadd := h.newTable h₀ hcr3 (show pdeIdx (4096 * n) < 768 by omega)
      (by rw [hidx]; exact ht) hi
    rw [hidx] at hadd
    have haddr := newTable_pteAddr hself hfresh (show pdeIdx (4096 * n) < 1023 by omega)
      (4096 * n) rfl
    rw [hpte, h.kernelFrame] at haddr
    have habsent : Returns (pageTableAdd (4096 * n) p) (m.setPoolBitmap b .user) () _ :=
      pageTableAdd_absent hself ⟨hfresh.aligned, hfresh.fits, hfresh.not_dir, hfresh.not_table⟩ (by omega) hi
      (by change present (le32 m.phys (pdeAddr m.cr3 (4096 * n))) = false
          rw [pdeAddr, hcr3, hidx]
          exact hdir)
    refine ⟨m.newTable (4096 * n) i, _, m₀.kernelPool.frameAddr i, hadd, Function.update_self ..,
      hcr3, rfl, ?_, fun q hq hqc hqk ↦ ?_, .inr ⟨ht, ⟨_, rfl⟩, ?_⟩⟩
    · rw [← haddr]
      exact habsent
    · have hk := hqk i hlen hfree
      have hmod := Pool.frameAddr_mod h₀.kernelPool i
      have hc := h₀.childSelf.aligned
      have hphys : (m.newTable (4096 * n) i).phys =
          splice (setWord m.phys (cd + 4 * (n / 1024)) (entry (m₀.kernelPool.frameAddr i)))
            (m₀.kernelPool.frameAddr i) 4096 fun _ ↦ 0 := by
        rw [Machine.newTable, hcr3, h.kernelFrame, pdeAddr, hidx]
      rw [hphys]
      exact (agree_splice (by omega)).trans (agree_splice (by omega))
    · rw [← h.kernelLen] at hlen
      exact Bitmap.freeCount_set hlen (Bitmap.scan_one_eq_some.mp hi).2.1

/-- One page is copied: from the directory of the parent and back to it. -/
theorem copyPage (h₀ : m₀.ForkReady pv cv bv pd cd bf) (h : CopyInv m₀ m cd bf table map)
    (hcopied : Copied m₀ m map) (hcr3 : m.cr3 = pd) (hn : n < 768 * 1024) (hpos : 0 < n)
    (hnone : map n = none) (hmapped : m₀.walk (4096 * n) = some q)
    (huser : 0 < m.userPool.poolBitmap.freeCount)
    (hkernel : table (n / 1024) = none → 0 < m.kernelPool.poolBitmap.freeCount) :
    ∃ m' table' p, Returns (copyPage (some pv) (some cv) bv (4096 * n)) m () m' ∧
      CopyInv m₀ m' cd bf table' (Function.update map n (some p)) ∧
      Copied m₀ m' (Function.update map n (some p)) ∧ m'.cr3 = pd ∧
      m'.userPool.poolBitmap.freeCount + 1 = m.userPool.poolBitmap.freeCount ∧
      TakesTable m m' table table' (n / 1024) := by
  have hidx : pdeIdx (4096 * n) = n / 1024 := by
    rw [pdeIdx]
    omega
  have hva : 4096 * n % 4096 = 0 := Nat.mul_mod_right ..
  have hbf := buf_mod h₀
  have hbv := h₀.bufPage
  have hqmod : q % 4096 = 0 := walk_mod hmapped hva
  have hqframe : frame q = q := frame_of_aligned (k := 0) hqmod (by decide)
  have hqkept : m₀.Kept cd bf q := hqframe ▸ h₀.userKept _ (by omega) q hmapped
  have hqbf := hqkept.ne_buf
  -- the page is copied into the buffer
  have hparent : ∀ {va q'}, pdeIdx va < 1024 → m₀.walk va = some q' → m.walk va = some q' := by
    intro va q' hlt hw
    rw [Machine.walk, hcr3, h.walk_parent h₀ hlt, ← h₀.cr3]
    exact hw
  have hcopy := memcpy_page (m := m) hbv.aligned hva
    (by have := hbv.low; rw [pdeIdx] at this; omega) (by omega)
    (hparent (Nat.lt_succ_of_lt hbv.high) hbv.walk) (hparent (by omega) hmapped) (by omega)
    (h.avoids_parent h₀ rfl hcr3 (Nat.lt_succ_of_lt hbv.high) hbf)
    (h.avoids_parent h₀ rfl hcr3 (by omega) hbf)
  set m₁ : Machine := { m with phys := splice m.phys bf 4096 fun i ↦ m.phys (q + i) } with hm₁
  have h₁ : CopyInv m₀ m₁ cd bf table map := h.setBuf h₀ _
  have hact := pageDirActivate_returns (m := m₁)
    (by rw [show m₁.cr3 = pd from hcr3]; exact h₁.parentSelf h₀)
    (Nat.lt_succ_of_lt h₀.childPage.high)
    (show m₁.walk cv = some cd by
        rw [Machine.walk, show m₁.cr3 = pd from hcr3,
          h₁.walk_parent h₀ (Nat.lt_succ_of_lt h₀.childPage.high), ← h₀.cr3]
        exact h₀.childPage.walk)
  set m₂ : Machine := { m₁ with cr3 := cd } with hm₂
  have h₂ : CopyInv m₀ m₂ cd bf table map := h₁.setCr3 cd
  -- in the child's directory a frame is taken and mapped
  obtain ⟨i, hi⟩ := Bitmap.exists_scan_one huser
  obtain ⟨hilen, hifree, hine⟩ := h.userScan h₀ hi
  obtain ⟨x, table', t, hx, ht, hxcr3, hxuser, hadd, hagree, htakes⟩ :=
    h₂.pageTableAdd_child (p := m₀.userPool.frameAddr i) h₀ rfl hn hnone hkernel
      (m.userPool.poolBitmap.set i true)
  set u := m₀.userPool.frameAddr i with hu
  have humod : u % 4096 = 0 := Pool.frameAddr_mod h₀.userPool i
  obtain ⟨hcu, hbu, htu⟩ := hx.userFrame_ne h₀ hilen hifree
  set m₄ : Machine := (x.setPoolBitmap (m.userPool.poolBitmap.set i true) .user).store
    (t + 4 * (n % 1024)) (entry u) with hm₄
  have hxi : x.userPool.poolBitmap.scan 1 = some i := by rw [hxuser]; exact hi
  have hdiv : 1024 * (n / 1024) + n % 1024 = n := Nat.div_add_mod n 1024
  have hbits : x.userPool.poolBitmap.set i true = m.userPool.poolBitmap.set i true := by rw [hxuser]
  have henter := fun g ↦ hx.enterPage h₀ hxi (j := n / 1024) (k := n % 1024) (by omega)
    (Nat.mod_lt _ (by decide)) ht (by rw [hdiv]; exact hnone) g
  simp only [hdiv, hbits] at henter
  have h₄ : CopyInv m₀ m₄ cd bf table' (Function.update map n (some u)) := by
    have hsame := henter fun l ↦ setWord x.phys (t + 4 * (n % 1024)) (entry u) (u + l)
    rw [splice_id] at hsame
    exact hsame
  have hget : Returns (getAPageWithoutOpvaddrbitmap .user (4096 * n)) m₂ (some (4096 * n)) m₄ := by
    refine returns_bind.mpr ⟨some u, _, ?_, returns_bind.mpr ⟨(), m₄, hadd,
      returns_pure.mpr ⟨rfl, rfl⟩⟩⟩
    rw [hu, ← h.userFrame]
    exact returns_palloc (m := m₂) .user hi
  -- the buffer is copied into it
  have htable := h₄.space.dir (n / 1024) (by omega)
  rw [ht] at htable
  have hwalk : m₄.walk (4096 * n) = some u := by
    rw [Machine.walk, show m₄.cr3 = cd from hxcr3, h₄.space.walk (by omega),
      Nat.mul_div_cancel_left n (by decide), Function.update_self, Option.map_some, hva,
      Nat.add_zero]
  have hback := memcpy_page (m := m₄) hva hbv.aligned (by omega)
    (by have := hbv.low; rw [pdeIdx] at this; omega) hwalk
    (by rw [Machine.walk, show m₄.cr3 = cd from hxcr3]; exact h₄.walk_childKernel h₀ hbv)
    (by omega)
    (Machine.avoids_of_ne (by rw [show m₄.cr3 = cd from hxcr3]; exact h₀.childSelf.aligned)
      (by omega) humod (by rw [show m₄.cr3 = cd from hxcr3]; exact hcu) (by
        rw [Machine.pde, pdeAddr, show m₄.cr3 = cd from hxcr3, hidx, htable.2]
        exact fun _ ↦ htu _ t ht))
    (h₄.avoids_kernel h₀ rfl hbv humod (h₀.parentKept.used.2 i hilen hifree).symm hcu
      (fun j hj hp ↦ ((h₀.tablesKept j hj hp).used.2 i hilen hifree).symm) (.inr hxcr3))
  set m₅ : Machine := { m₄ with phys := splice m₄.phys u 4096 fun l ↦ m₄.phys (bf + l) } with hm₅
  have h₅ : CopyInv m₀ m₅ cd bf table' (Function.update map n (some u)) :=
    henter fun l ↦ m₄.phys (bf + l)
  have hact' := pageDirActivate_returns (m := m₅)
    (by rw [show m₅.cr3 = cd from hxcr3]; exact h₅.childSelf h₀)
    (Nat.lt_succ_of_lt h₀.parentPage.high)
    (show m₅.walk pv = some pd by
        rw [Machine.walk, show m₅.cr3 = cd from hxcr3]
        exact h₅.walk_childKernel h₀ h₀.parentPage)
  -- a frame that is neither written as a page table nor as the new page
  have hother : ∀ p, p % 4096 = 0 → p ≠ cd → p ≠ u → p ≠ t →
      (∀ i < 8 * m₀.kernelPool.poolBitmap.btmpBytesLen, m₀.kernelPool.poolBitmap.bit i = false →
        m₀.kernelPool.frameAddr i ≠ p) → ∀ o < 4096, m₅.phys (p + o) = m₁.phys (p + o) := by
    intro p hp hpc hpu hpt hpk o ho
    have htmod := (h₄.tablesApart h₀).aligned _ t ht
    have e1 : splice m₄.phys u 4096 (fun l ↦ m₄.phys (bf + l)) (p + o) = m₄.phys (p + o) :=
      splice_of_disjoint (by omega)
    have e2 : setWord x.phys (t + 4 * (n % 1024)) (entry u) (p + o) = x.phys (p + o) :=
      splice_of_disjoint (by omega)
    exact (e1.trans e2).trans (hagree p hp hpc hpk o ho)
  obtain ⟨htb, -⟩ := h₄.table_ne h₀ ht
  refine ⟨{ m₅ with cr3 := pd }, table', u, ?_, h₅.setCr3 pd, ?_, rfl, ?_, htakes⟩
  · exact returns_bind.mpr ⟨(), m₁, hcopy, returns_bind.mpr ⟨(), m₂, hact,
      returns_bind.mpr ⟨_, m₄, hget, returns_bind.mpr ⟨(), m₅, hback, hact'⟩⟩⟩⟩
  · intro l p q' hp hq' o ho
    by_cases hln : l = n
    · subst hln
      rw [Function.update_self] at hp
      obtain rfl := Option.some.inj hp
      obtain rfl := Option.some.inj (hq'.symm.trans hmapped)
      have htmod := (h₄.tablesApart h₀).aligned _ t ht
      have e1 : splice m₄.phys u 4096 (fun l ↦ m₄.phys (bf + l)) (u + o) = m₄.phys (bf + o) := by
        rw [splice_of_mem (by omega) (by omega), Nat.add_sub_cancel_left]
      have e2 : setWord x.phys (t + 4 * (l % 1024)) (entry u) (bf + o) = x.phys (bf + o) :=
        splice_of_disjoint (by omega)
      have e3 : splice m.phys bf 4096 (fun k ↦ m.phys (q' + k)) (bf + o) = m.phys (q' + o) := by
        rw [splice_of_mem (by omega) (by omega), Nat.add_sub_cancel_left]
      calc m₅.phys (u + o) = m₄.phys (bf + o) := e1
        _ = x.phys (bf + o) := e2
        _ = m₁.phys (bf + o) := hagree bf hbf h₀.buf_ne h₀.bufUsed.1 o ho
        _ = m.phys (q' + o) := e3
        _ = m₀.phys (q' + o) := h.keep q' hqmod hqkept o ho
    · rw [Function.update_of_ne hln] at hp
      obtain ⟨e, he, hefree, rfl⟩ := h.maps l p hp
      obtain ⟨hce, hbe, -⟩ := h₂.userFrame_ne h₀ he hefree
      have hte : t ≠ m₀.userPool.frameAddr e := by
        obtain ⟨-, k, hk, -, rfl⟩ := hx.tables _ t ht
        exact h₀.frames_ne hk
      have hue : m₀.userPool.frameAddr e ≠ u := fun heq ↦ hine l (heq ▸ hp)
      have hemod := Pool.frameAddr_mod h₀.userPool e
      change m₅.phys (m₀.userPool.frameAddr e + o) = _
      rw [hother _ hemod hce.symm hue hte.symm
        (fun k hk _ ↦ h₀.frames_ne hk) o ho]
      have e1 : splice m.phys bf 4096 (fun k ↦ m.phys (q + k)) (m₀.userPool.frameAddr e + o) =
          m.phys (m₀.userPool.frameAddr e + o) := splice_of_disjoint (by omega)
      exact e1.trans (hcopied l _ q' hp hq' o ho)
  · rw [← h.userLen] at hilen
    exact Bitmap.freeCount_set hilen (Bitmap.scan_one_eq_some.mp hi).2.1

end CopyInv

/-! ## The loops -/

/-- The bitmap of the parent. -/
structure Machine.UserPages (m : Machine) : Prop where
  aligned : m.userprogVaddr.vaddrStart % 4096 = 0
  pos : 0 < m.userprogVaddr.vaddrStart
  fits : m.userprogVaddr.vaddrStart + 8 * m.userprogVaddr.vaddrBitmap.btmpBytesLen * pgSize ≤
    0xc0000000
  mapped : ∀ i < 8 * m.userprogVaddr.vaddrBitmap.btmpBytesLen,
    m.userprogVaddr.vaddrBitmap.bit i = true →
      m.walk (m.userprogVaddr.vaddrStart + i * pgSize) ≠ none

/-- The bits from `k` on that are set. -/
def Machine.pagesFrom (m : Machine) (k : ℕ) : Finset ℕ :=
  (Finset.Ico k (8 * m.userprogVaddr.vaddrBitmap.btmpBytesLen)).filter fun i ↦
    m.userprogVaddr.vaddrBitmap.bit i = true

/-- The directory entries of their pages. -/
def Machine.entriesFrom (m : Machine) (k : ℕ) : Finset ℕ :=
  (m.pagesFrom k).image fun i ↦ pdeIdx (m.userprogVaddr.vaddrStart + i * pgSize)

/-- The bits below `k` are done, and the pools have what the others need. -/
structure CopyUpTo (m₀ m : Machine) (pd cd bf k : ℕ) (table map : ℕ → Option ℕ) : Prop where
  inv : CopyInv m₀ m cd bf table map
  copied : Copied m₀ m map
  cr3 : m.cr3 = pd
  done : ∀ n, (map n).isSome = true ↔ ∃ i < k, m₀.userprogVaddr.vaddrBitmap.bit i = true ∧
    4096 * n = m₀.userprogVaddr.vaddrStart + i * pgSize
  user : (m₀.pagesFrom k).card ≤ m.userPool.poolBitmap.freeCount
  kernel : ((m₀.entriesFrom k).filter fun j ↦ table j = none).card ≤
    m.kernelPool.poolBitmap.freeCount

section Loops

variable {m₀ m : Machine} {pv cv bv pd cd bf k l : ℕ} {table map : ℕ → Option ℕ}

theorem mem_pagesFrom {i : ℕ} : i ∈ m.pagesFrom k ↔
    (k ≤ i ∧ i < 8 * m.userprogVaddr.vaddrBitmap.btmpBytesLen) ∧
      m.userprogVaddr.vaddrBitmap.bit i = true := by
  rw [Machine.pagesFrom, Finset.mem_filter, Finset.mem_Ico]

theorem pagesFrom_anti (h : k ≤ l) : m.pagesFrom l ⊆ m.pagesFrom k := by
  intro i hi
  obtain ⟨⟨h1, h2⟩, h3⟩ := mem_pagesFrom.mp hi
  exact mem_pagesFrom.mpr ⟨⟨h.trans h1, h2⟩, h3⟩

/-- Bits that are not set are skipped. -/
theorem CopyUpTo.skip (h : CopyUpTo m₀ m pd cd bf k table map) (hkl : k ≤ l)
    (hclear : ∀ i, k ≤ i → i < l → m₀.userprogVaddr.vaddrBitmap.bit i = false) :
    CopyUpTo m₀ m pd cd bf l table map where
  inv := h.inv
  copied := h.copied
  cr3 := h.cr3
  done n := by
    rw [h.done]
    constructor
    · rintro ⟨i, hi, hb⟩
      exact ⟨i, by omega, hb⟩
    · rintro ⟨i, hi, hb, hn⟩
      refine ⟨i, ?_, hb, hn⟩
      by_contra hik
      rw [hclear i (by omega) hi] at hb
      cases hb
  user := (Finset.card_le_card (pagesFrom_anti hkl)).trans h.user
  kernel := (Finset.card_le_card (Finset.filter_subset_filter _
    (Finset.image_subset_image (pagesFrom_anti hkl)))).trans h.kernel

/-- A bit that is set: its page is copied. -/
theorem CopyUpTo.copyPage (h₀ : m₀.ForkReady pv cv bv pd cd bf) (hu : m₀.UserPages)
    (h : CopyUpTo m₀ m pd cd bf k table map)
    (hk : k < 8 * m₀.userprogVaddr.vaddrBitmap.btmpBytesLen)
    (hbit : m₀.userprogVaddr.vaddrBitmap.bit k = true) : ∃ m' table' map',
      Returns (copyPage (some pv) (some cv) bv (k * pgSize + m₀.userprogVaddr.vaddrStart)) m () m' ∧
        CopyUpTo m₀ m' pd cd bf (k + 1) table' map' := by
  have halign := hu.aligned
  have hfits := hu.fits
  have hstart := hu.pos
  obtain ⟨n, hn⟩ : ∃ n, 4096 * n = m₀.userprogVaddr.vaddrStart + k * pgSize :=
    ⟨m₀.userprogVaddr.vaddrStart / 4096 + k, by rw [pgSize]; omega⟩
  rw [pgSize] at hfits hn
  have hidx : n / 1024 = pdeIdx (m₀.userprogVaddr.vaddrStart + k * pgSize) := by
    rw [← hn, pdeIdx]
    omega
  have hmem : k ∈ m₀.pagesFrom k := mem_pagesFrom.mpr ⟨⟨le_refl k, hk⟩, hbit⟩
  have hnone : map n = none := by
    by_contra hne
    obtain ⟨i, hi, -, hin⟩ := (h.done n).mp (Option.isSome_iff_ne_none.mpr hne)
    rw [pgSize] at hin
    omega
  obtain ⟨q, hq⟩ := Option.ne_none_iff_exists'.mp (hu.mapped k hk hbit)
  rw [← hn] at hq
  have huser := (Finset.card_pos.mpr ⟨k, hmem⟩).trans_le h.user
  have hentry : n / 1024 ∈ m₀.entriesFrom k := hidx ▸ Finset.mem_image_of_mem _ hmem
  have hkernel : table (n / 1024) = none → 0 < m.kernelPool.poolBitmap.freeCount := fun ht ↦
    (Finset.card_pos.mpr ⟨_, Finset.mem_filter.mpr ⟨hentry, ht⟩⟩).trans_le h.kernel
  obtain ⟨m', table', p, hret, hinv, hcopied, hcr3, hcount, htakes⟩ :=
    h.inv.copyPage h₀ h.copied h.cr3 (by omega) (by omega) hnone hq huser hkernel
  have haddr : 4096 * n = k * pgSize + m₀.userprogVaddr.vaddrStart := by
    rw [pgSize]
    omega
  rw [haddr] at hret
  have hsub : m₀.pagesFrom (k + 1) ⊆ (m₀.pagesFrom k).erase k := fun i hi ↦
    Finset.mem_erase.mpr ⟨by have := (mem_pagesFrom.mp hi).1.1; omega,
      pagesFrom_anti (Nat.le_succ k) hi⟩
  refine ⟨m', table', _, hret, hinv, hcopied, hcr3, fun l ↦ ?_, ?_, ?_⟩
  · by_cases hl : l = n
    · rw [hl, Function.update_self]
      exact iff_of_true rfl ⟨k, Nat.lt_succ_self k, hbit, hn⟩
    · rw [Function.update_of_ne hl, h.done]
      constructor
      · rintro ⟨i, hi, hb⟩
        exact ⟨i, by omega, hb⟩
      · rintro ⟨i, hi, hb, hil⟩
        refine ⟨i, ?_, hb, hil⟩
        rcases Nat.lt_succ_iff_lt_or_eq.mp hi with hlt | rfl
        · exact hlt
        · omega
  · have hcard := Finset.card_le_card hsub
    rw [Finset.card_erase_of_mem hmem] at hcard
    have huser' := h.user
    omega
  · have hent : m₀.entriesFrom (k + 1) ⊆ m₀.entriesFrom k :=
      Finset.image_subset_image (pagesFrom_anti (Nat.le_succ k))
    rcases htakes with ⟨-, rfl, hpool⟩ | ⟨ht, ⟨t, rfl⟩, hcount'⟩
    · rw [hpool]
      exact (Finset.card_le_card (Finset.filter_subset_filter _ hent)).trans h.kernel
    · -- the entry is not missing any more
      have hsub' : (m₀.entriesFrom (k + 1)).filter
          (fun j ↦ Function.update table (n / 1024) (some t) j = none) ⊆
            ((m₀.entriesFrom k).filter fun j ↦ table j = none).erase (n / 1024) := by
        intro j hj
        obtain ⟨hj1, hj2⟩ := Finset.mem_filter.mp hj
        by_cases hjn : j = n / 1024
        · rw [hjn, Function.update_self] at hj2
          cases hj2
        · rw [Function.update_of_ne hjn] at hj2
          exact Finset.mem_erase.mpr ⟨hjn, Finset.mem_filter.mpr ⟨hent hj1, hj2⟩⟩
      have hcard := Finset.card_le_card hsub'
      rw [Finset.card_erase_of_mem (Finset.mem_filter.mpr ⟨hentry, ht⟩)] at hcard
      have hk' := h.kernel
      omega

/-- The test of the code reads the bit. -/
theorem testBit_iff (b : Bitmap) (idxByte : ℕ) {idxBit : ℕ} (h : idxBit < 8) :
    (1 <<< idxBit) &&& (b.bits idxByte).toNat ≠ 0 ↔ b.bit (8 * idxByte + idxBit) = true := by
  rw [← Bitmap.scanTest_eq_bit, Bitmap.scanTest, Nat.and_comm,
    show (8 * idxByte + idxBit) / 8 = idxByte by omega,
    show (8 * idxByte + idxBit) % 8 = idxBit by omega]
  exact bne_iff_ne.symm

/-- The inner loop. -/
theorem CopyUpTo.copyBits (h₀ : m₀.ForkReady pv cv bv pd cd bf) (hu : m₀.UserPages)
    {idxByte idxBit left : ℕ} (hleft : idxBit + left = 8)
    (hbyte : idxByte < m₀.userprogVaddr.vaddrBitmap.btmpBytesLen)
    (h : CopyUpTo m₀ m pd cd bf (8 * idxByte + idxBit) table map) : ∃ m' table' map',
      Returns (copyBits (some pv) (some cv) bv idxByte idxBit left) m () m' ∧
        CopyUpTo m₀ m' pd cd bf (8 * idxByte + 8) table' map' := by
  induction left generalizing idxBit m table map with
  | zero =>
    obtain rfl : idxBit = 8 := by omega
    exact ⟨m, table, map, returns_pure.mpr ⟨rfl, rfl⟩, h⟩
  | succ left ih =>
    by_cases hbit : m₀.userprogVaddr.vaddrBitmap.bit (8 * idxByte + idxBit) = true
    · obtain ⟨m₁, table₁, map₁, h1, hnext⟩ := h.copyPage h₀ hu (by omega) hbit
      have hnext' : CopyUpTo m₀ m₁ pd cd bf (8 * idxByte + (idxBit + 1)) table₁ map₁ := hnext
      obtain ⟨m', table', map', h2, hlast⟩ := ih (by omega) hnext'
      refine ⟨m', table', map', returns_get_bind.mpr ?_, hlast⟩
      rw [h.inv.vaddr, if_pos ((testBit_iff _ _ (by omega)).mpr hbit), Nat.mul_comm idxByte 8]
      exact returns_bind.mpr ⟨(), m₁, h1, h2⟩
    · have hnext : CopyUpTo m₀ m pd cd bf (8 * idxByte + (idxBit + 1)) table map :=
        h.skip (Nat.le_succ _) fun i hi hlt ↦ by
          rw [show i = 8 * idxByte + idxBit by omega]
          simpa using hbit
      obtain ⟨m', table', map', h2, hlast⟩ := ih (by omega) hnext
      refine ⟨m', table', map', returns_get_bind.mpr ?_, hlast⟩
      rw [h.inv.vaddr, if_neg (mt (testBit_iff _ _ (by omega)).mp hbit)]
      exact returns_pure_bind.mpr h2

/-- The outer loop. -/
theorem CopyUpTo.copyBytes (h₀ : m₀.ForkReady pv cv bv pd cd bf) (hu : m₀.UserPages)
    {idxByte left : ℕ} (hleft : idxByte + left = m₀.userprogVaddr.vaddrBitmap.btmpBytesLen)
    (h : CopyUpTo m₀ m pd cd bf (8 * idxByte) table map) : ∃ m' table' map',
      Returns (copyBytes (some pv) (some cv) bv idxByte left) m () m' ∧
        CopyUpTo m₀ m' pd cd bf (8 * m₀.userprogVaddr.vaddrBitmap.btmpBytesLen) table' map' := by
  induction left generalizing idxByte m table map with
  | zero =>
    obtain rfl : idxByte = m₀.userprogVaddr.vaddrBitmap.btmpBytesLen := hleft
    exact ⟨m, table, map, returns_pure.mpr ⟨rfl, rfl⟩, h⟩
  | succ left ih =>
    by_cases hbyte : m₀.userprogVaddr.vaddrBitmap.bits idxByte ≠ 0
    · have hfirst : CopyUpTo m₀ m pd cd bf (8 * idxByte + 0) table map := h
      obtain ⟨m₁, table₁, map₁, h1, hnext⟩ := hfirst.copyBits h₀ hu (Nat.zero_add 8) (by omega)
      have hnext' : CopyUpTo m₀ m₁ pd cd bf (8 * (idxByte + 1)) table₁ map₁ := hnext
      obtain ⟨m', table', map', h2, hlast⟩ := ih (by omega) hnext'
      refine ⟨m', table', map', returns_get_bind.mpr ?_, hlast⟩
      rw [h.inv.vaddr, if_pos hbyte]
      exact returns_bind.mpr ⟨(), m₁, h1, h2⟩
    · -- a byte of zero has no bit set
      have hnext : CopyUpTo m₀ m pd cd bf (8 * (idxByte + 1)) table map :=
        h.skip (by omega) fun i hi hlt ↦ by
          rw [Bitmap.bit, show i / 8 = idxByte by omega, not_ne_iff.mp hbyte]
          exact Nat.zero_testBit _
      obtain ⟨m', table', map', h2, hlast⟩ := ih (by omega) hnext
      refine ⟨m', table', map', returns_get_bind.mpr ?_, hlast⟩
      rw [h.inv.vaddr, if_neg hbyte]
      exact returns_pure_bind.mpr h2

/-- The page of the address has its bit set. -/
def Machine.HasPage (m : Machine) (va : ℕ) : Prop :=
  m.userprogVaddr.vaddrStart ≤ va ∧ (va - m.userprogVaddr.vaddrStart) / pgSize ∈ m.pagesFrom 0

/-- `copy_body_stack3` comes to its end. -/
theorem copyBodyStack3_returns (h₀ : m₀.ForkReady pv cv bv pd cd bf) (hu : m₀.UserPages)
    (huser : (m₀.pagesFrom 0).card ≤ m₀.userPool.poolBitmap.freeCount)
    (hkernel : (m₀.entriesFrom 0).card ≤ m₀.kernelPool.poolBitmap.freeCount) : ∃ m' table' map',
      Returns (copyBodyStack3 (some pv) (some cv) bv) m₀ () m' ∧
        CopyUpTo m₀ m' pd cd bf (8 * m₀.userprogVaddr.vaddrBitmap.btmpBytesLen) table' map' := by
  have hstart : CopyUpTo m₀ m₀ pd cd bf (8 * 0) (fun _ ↦ none) fun _ ↦ none :=
    { inv := CopyInv.start h₀
      copied := fun _ _ _ hp ↦ nomatch hp
      cr3 := h₀.cr3
      done := fun n ↦ iff_of_false (by decide) (by rintro ⟨i, hi, -⟩; omega)
      user := huser
      kernel := (Finset.card_le_card (Finset.filter_subset ..)).trans hkernel }
  obtain ⟨m', table', map', hret, hlast⟩ := hstart.copyBytes h₀ hu (Nat.zero_add _)
  exact ⟨m', table', map', returns_get_bind.mpr hret, hlast⟩

theorem user_pdeIdx {va : ℕ} (hva : va < 0xc0000000) : pdeIdx va < 768 := by
  rw [pdeIdx]
  omega

section Result

variable (h₀ : m₀.ForkReady pv cv bv pd cd bf) (hu : m₀.UserPages)
  (h : CopyUpTo m₀ m pd cd bf (8 * m₀.userprogVaddr.vaddrBitmap.btmpBytesLen) table map)
include hu h

/-- In the end the pages that are mapped are those whose bits are set. -/
theorem CopyUpTo.isSome_map {va : ℕ} : (map (va / 4096)).isSome = true ↔ m₀.HasPage va := by
  have halign := hu.aligned
  rw [h.done, Machine.HasPage, mem_pagesFrom, pgSize]
  constructor
  · rintro ⟨i, hi, hb, hn⟩
    have hidx : (va - m₀.userprogVaddr.vaddrStart) / 4096 = i := by omega
    rw [hidx]
    exact ⟨by omega, ⟨Nat.zero_le i, hi⟩, hb⟩
  · rintro ⟨hle, ⟨-, hi⟩, hb⟩
    exact ⟨_, hi, hb, by omega⟩

include h₀

/-- A page of the child has a frame of the user pool that was free, and is marked now. -/
theorem CopyUpTo.map_eq {va : ℕ} (hva : m₀.HasPage va) : ∃ i,
    map (va / 4096) = some (m₀.userPool.frameAddr i) ∧
      i < 8 * m₀.userPool.poolBitmap.btmpBytesLen ∧ m₀.userPool.poolBitmap.bit i = false ∧
        m.userPool.poolBitmap.bit i = true := by
  obtain ⟨p, hp⟩ := Option.isSome_iff_exists.mp ((h.isSome_map hu).mpr hva)
  obtain ⟨i, hi, hfree, rfl⟩ := h.inv.maps _ p hp
  exact ⟨i, hp, hi, hfree, (h.inv.userBit i).mpr (.inr ⟨_, hp⟩)⟩

omit h₀ hu in
/-- The child is translated to its frames. -/
theorem CopyUpTo.walk_child {va : ℕ} (hva : va < 0xc0000000) :
    Paging.walk m.phys cd va = (map (va / 4096)).map (· + va % 4096) :=
  h.inv.space.walk (user_pdeIdx hva)

/-- The child sees what the parent saw. -/
theorem CopyUpTo.seen_child {va : ℕ} (hva : va < 0xc0000000) (hpage : m₀.HasPage va) :
    seen m.phys cd va = seen m₀.phys pd va := by
  obtain ⟨i, hi, -⟩ := h.map_eq h₀ hu hpage
  have halign : 4096 * (va / 4096) % 4096 = 0 := Nat.mul_mod_right ..
  have ho : va % 4096 < 4096 := Nat.mod_lt _ (by decide)
  have hsplit : 4096 * (va / 4096) + va % 4096 = va := Nat.div_add_mod va 4096
  obtain ⟨hle, hmem⟩ := hpage
  obtain ⟨⟨-, hlt⟩, hb⟩ := mem_pagesFrom.mp hmem
  have hmapped := hu.mapped _ hlt hb
  have hbase : m₀.userprogVaddr.vaddrStart +
      (va - m₀.userprogVaddr.vaddrStart) / pgSize * pgSize = 4096 * (va / 4096) := by
    have hs := hu.aligned
    rw [pgSize]
    omega
  rw [hbase] at hmapped
  obtain ⟨q, hq⟩ := Option.ne_none_iff_exists'.mp hmapped
  have hparent : Paging.walk m₀.phys pd va = some (q + va % 4096) := by
    have hadd := walk_add (f := m₀.phys) (d := pd) halign ho
    rw [hsplit, ← h₀.cr3] at hadd
    rw [← h₀.cr3, hadd]
    exact congrArg (Option.map (· + va % 4096)) hq
  rw [seen, seen, h.walk_child hva, hi, hparent]
  exact congrArg some (h.copied _ _ q hi hq _ ho)

/-- The parent sees what it saw. -/
theorem CopyUpTo.seen_parent {va : ℕ} (hva : va < 0xc0000000) :
    seen m.phys pd va = seen m₀.phys pd va := by
  have hidx := user_pdeIdx hva
  refine seen_congr (h.inv.walk_parent h₀ (by omega)) fun pa hpa ↦ ?_
  have hkept := h₀.userKept va hidx pa (by rw [Machine.walk, h₀.cr3]; exact hpa)
  have hagree := h.inv.keep _ (frame_mod pa) hkept (pa % 4096) (Nat.mod_lt _ (by decide))
  rwa [frame, show pa / 2 ^ 12 * 2 ^ 12 + pa % 4096 = pa by omega] at hagree

/-- What the parent writes is not seen by the child. -/
theorem CopyUpTo.parent_write {va vb pa : ℕ} {x : UInt8} (hva : va < 0xc0000000)
    (hvb : vb < 0xc0000000) (hpa : Paging.walk m.phys pd va = some pa) :
    seen (Function.update m.phys pa x) cd vb = seen m.phys cd vb := by
  have hidx := user_pdeIdx hva
  rw [h.inv.walk_parent h₀ (by omega)] at hpa
  have hkept := h₀.userKept va hidx pa (by rw [Machine.walk, h₀.cr3]; exact hpa)
  have hframe : frame pa ≤ pa ∧ pa < frame pa + 4096 := by
    rw [frame]
    omega
  have hfmod := frame_mod pa
  have hc := h₀.childSelf.aligned
  refine seen_update (fun a ha ↦ ?_) fun hq ↦ ?_
  · rcases ha with rfl | ⟨hp, rfl⟩
    · have hne := hkept.ne_child
      have hvb' := user_pdeIdx hvb
      rw [pdeAddr]
      omega
    · -- the table is a frame that was free
      have hdir := h.inv.space.dir _ (user_pdeIdx hvb)
      rw [pdeAddr] at hp
      cases ht : table (pdeIdx vb) with
      | none =>
        rw [ht] at hdir
        exact absurd (hdir.symm.trans hp) (by decide)
      | some t =>
        rw [ht] at hdir
        have hne := (h.inv.table_ne h₀ ht).2 _ hkept
        have hk := pteIdx_lt vb
        have htmod := (h.inv.tablesApart h₀).aligned _ t ht
        rw [pteAddr, pdeAddr, hdir.2]
        omega
  · rw [h.walk_child hvb] at hq
    obtain ⟨p, hp, rfl⟩ := Option.map_eq_some_iff.mp hq
    obtain ⟨i, hi, hfree, rfl⟩ := h.inv.maps _ p hp
    have hne := hkept.used.2 i hi hfree
    have hmod := Pool.frameAddr_mod h₀.userPool i
    omega

/-- What the child writes is not seen by the parent. -/
theorem CopyUpTo.child_write {va vb pa : ℕ} {x : UInt8} (hva : va < 0xc0000000)
    (hvb : vb < 0xc0000000) (hpa : Paging.walk m.phys cd va = some pa) :
    seen (Function.update m.phys pa x) pd vb = seen m.phys pd vb := by
  have hidx := user_pdeIdx hvb
  have hd := h₀.parentSelf.aligned
  rw [h.walk_child hva] at hpa
  obtain ⟨p, hp, rfl⟩ := Option.map_eq_some_iff.mp hpa
  obtain ⟨i, hi, hfree, rfl⟩ := h.inv.maps _ p hp
  have hmod := Pool.frameAddr_mod h₀.userPool i
  refine seen_update (fun a ha ↦ ?_) fun hq ↦ ?_
  · rcases ha with rfl | ⟨hp', rfl⟩
    · have hne := h₀.parentKept.used.2 i hi hfree
      rw [pdeAddr]
      omega
    · have hword := h.inv.parentWord h₀ (j := pdeIdx vb) (by omega)
      rw [pdeAddr, hword] at hp'
      have hne := (h₀.tablesKept _ (by omega) hp').used.2 i hi hfree
      have hk := pteIdx_lt vb
      have hfmod := frame_mod (le32 m₀.phys (pd + 4 * pdeIdx vb))
      rw [pteAddr, pdeAddr, hword]
      omega
  · rw [h.inv.walk_parent h₀ (by omega)] at hq
    have hkept := h₀.userKept vb hidx _ (by rw [Machine.walk, h₀.cr3]; exact hq)
    refine hkept.used.2 i hi hfree ?_
    rw [frame]
    omega

end Result

/-- **`copy_body_stack3` copies the address space.** With enough frames for the pages and for their
page tables it returns to the parent's directory, and the child has exactly the pages whose bits are
set, each in a frame of its own that was free, with what the parent had there. The parent is
translated as before and sees what it saw, and what one of them writes is not seen by the other. -/
theorem copyBodyStack3_copies (h₀ : m.ForkReady pv cv bv pd cd bf) (hu : m.UserPages)
    (huser : (m.pagesFrom 0).card ≤ m.userPool.poolBitmap.freeCount)
    (hkernel : (m.entriesFrom 0).card ≤ m.kernelPool.poolBitmap.freeCount) :
    ∃ m' : Machine, Returns (copyBodyStack3 (some pv) (some cv) bv) m () m' ∧ m'.cr3 = pd ∧
      (∀ va < 0xc0000000, m.HasPage va → ∃ i < 8 * m.userPool.poolBitmap.btmpBytesLen,
        m.userPool.poolBitmap.bit i = false ∧ m'.userPool.poolBitmap.bit i = true ∧
          Paging.walk m'.phys cd va = some (m.userPool.frameAddr i + va % 4096)) ∧
      (∀ va < 0xc0000000, ¬m.HasPage va → Paging.walk m'.phys cd va = none) ∧
      (∀ va vb pa, va < 0xc0000000 → vb < 0xc0000000 → Paging.walk m'.phys cd va = some pa →
        Paging.walk m'.phys cd vb = some pa → va = vb) ∧
      (∀ va < 0xc0000000, m.HasPage va → seen m'.phys cd va = seen m.phys pd va) ∧
      (∀ va < 2 ^ 32, Paging.walk m'.phys pd va = Paging.walk m.phys pd va) ∧
      (∀ va < 0xc0000000, seen m'.phys pd va = seen m.phys pd va) ∧
      ∀ va vb pa x, va < 0xc0000000 → vb < 0xc0000000 →
        (Paging.walk m'.phys pd va = some pa →
          seen (Function.update m'.phys pa x) cd vb = seen m'.phys cd vb) ∧
        (Paging.walk m'.phys cd va = some pa →
          seen (Function.update m'.phys pa x) pd vb = seen m'.phys pd vb) := by
  obtain ⟨m', table, map, hret, h⟩ := copyBodyStack3_returns h₀ hu huser hkernel
  refine ⟨m', hret, h.cr3, fun va hva hpage ↦ ?_, fun va hva hno ↦ ?_, ?_,
    fun va hva hpage ↦ h.seen_child h₀ hu hva hpage, fun va hva ↦ h.inv.walk_parent h₀ ?_,
    fun va hva ↦ h.seen_parent h₀ hu hva, fun va vb pa x hva hvb ↦
      ⟨h.parent_write h₀ hu hva hvb, h.child_write h₀ hu hva hvb⟩⟩
  · obtain ⟨i, hi, hlt, hfree, hset⟩ := h.map_eq h₀ hu hpage
    exact ⟨i, hlt, hfree, hset, by rw [h.walk_child hva, hi, Option.map_some]⟩
  · rw [h.walk_child hva]
    have hnone : map (va / 4096) = none := by
      by_contra hne
      exact hno ((h.isSome_map hu).mp (Option.isSome_iff_ne_none.mpr hne))
    rw [hnone, Option.map_none]
  · intro va vb pa hva hvb ha hb
    rw [h.walk_child hva] at ha
    rw [h.walk_child hvb] at hb
    obtain ⟨p, hp, rfl⟩ := Option.map_eq_some_iff.mp ha
    obtain ⟨q, hq, heq⟩ := Option.map_eq_some_iff.mp hb
    obtain ⟨i, -, -, rfl⟩ := h.inv.maps _ p hp
    obtain ⟨j, -, -, rfl⟩ := h.inv.maps _ q hq
    have hi := Pool.frameAddr_mod h₀.userPool i
    have hj := Pool.frameAddr_mod h₀.userPool j
    have hsame : m.userPool.frameAddr i = m.userPool.frameAddr j := by omega
    rw [← hsame] at hq
    have hpage := h.inv.mapInj _ _ _ hp hq
    omega
  · rw [pdeIdx]
    omega

end Loops

/-! ### A parent with one page -/

/-- The words of two directories at `0x200000` and `0x201000`, of the page table of the kernel at
`0x101000`, and of the parent's page table at `0x203000`. -/
def onePageWord (k : ℕ) : ℕ :=
  if k = 0x80000 + 32 then entry 0x203000
  else if k = 0x80000 + 768 then entry 0x101000
  else if k = 0x80000 + 1023 then entry 0x200000
  else if k = 0x80400 + 768 then entry 0x101000
  else if k = 0x80400 + 1023 then entry 0x201000
  else if k = 0x40400 then entry 0x200000
  else if k = 0x40401 then entry 0x201000
  else if k = 0x40402 then entry 0x202000
  else if k = 0x80c00 + 72 then entry 0x208000
  else 0

/-- The page of the parent is at `0x8048000`. -/
def Machine.onePage : Machine where
  phys := ofWords onePageWord
  cr3 := 0x200000
  kernelPool := ⟨⟨1, fun _ ↦ 0x0f⟩, 0x200000, 0x8000⟩
  userPool := ⟨⟨1, fun _ ↦ 0x01⟩, 0x208000, 0x8000⟩
  kernelVaddr := ⟨⟨1, fun _ ↦ 0⟩, 0xc0100000⟩
  pgdir := some 0xc0000000
  userprogVaddr := ⟨⟨1, fun _ ↦ 0x01⟩, 0x8048000⟩

theorem onePage_word {a k : ℕ} (ha : a = 4 * k) : le32 Machine.onePage.phys a = onePageWord k := by
  rw [ha]
  refine le32_ofWords ?_
  rw [onePageWord]
  split_ifs <;> decide

theorem onePage_kernelPage {va q : ℕ} (k : ℕ) (hva : va = 0xc0000000 + 4096 * k) (hk : k < 3)
    (hq : onePageWord (0x40400 + k) = entry q) (hmod : q % 4096 = 0) :
    Machine.onePage.KernelPage va q := by
  have hidx : pdeIdx va = 768 := by
    rw [pdeIdx]
    omega
  have hpte : pteIdx va = k := by
    rw [pteIdx]
    omega
  have hpde : le32 Machine.onePage.phys (pdeAddr 0x200000 va) = entry 0x101000 :=
    (onePage_word (k := 0x80000 + 768) (by rw [pdeAddr, hidx])).trans (by simp [onePageWord])
  have haddr : pteAddr Machine.onePage.phys 0x200000 va = 4 * (0x40400 + k) := by
    rw [pteAddr, hpde, hpte, frame_entry (by decide)]
    omega
  have hword := (onePage_word haddr).trans hq
  refine ⟨by omega, by omega, by omega, ?_⟩
  change Paging.walk Machine.onePage.phys 0x200000 va = some q
  rw [walk_of_present (by rw [hpde]; exact present_entry (by decide))
    (by rw [hword]; exact present_entry hmod), hword, frame_entry hmod,
    show va % 4096 = 0 by omega, Nat.add_zero]

theorem onePage_self {d : ℕ} (k : ℕ) (hd : d = 4 * k) (hmod : d % 4096 = 0)
    (hword : onePageWord (k + 1023) = entry d) : SelfMap Machine.onePage.phys d := by
  have hlast : le32 Machine.onePage.phys (d + 4 * 1023) = entry d :=
    (onePage_word (by omega)).trans hword
  exact ⟨by rw [hlast]; exact present_entry hmod, by rw [hlast]; exact frame_entry hmod⟩

/-- An entry of the parent's directory that is present is one of three. -/
theorem onePage_parentEntry {j : ℕ} (hj : j < 1024)
    (hp : present (le32 Machine.onePage.phys (0x200000 + 4 * j)) = true) :
    j = 32 ∧ le32 Machine.onePage.phys (0x200000 + 4 * j) = entry 0x203000 ∨
    j = 768 ∧ le32 Machine.onePage.phys (0x200000 + 4 * j) = entry 0x101000 ∨
    j = 1023 ∧ le32 Machine.onePage.phys (0x200000 + 4 * j) = entry 0x200000 := by
  rw [onePage_word (k := 0x80000 + j) (by omega), onePageWord] at *
  split_ifs at * with h1 h2 h3
  · exact .inl ⟨by omega, rfl⟩
  · exact .inr (.inl ⟨by omega, rfl⟩)
  · exact .inr (.inr ⟨by omega, rfl⟩)
  all_goals first | omega | cases hp

/-- Its page table has one page. -/
theorem onePage_tableEntry {k : ℕ} (hk : k < 1024)
    (hp : present (le32 Machine.onePage.phys (0x203000 + 4 * k)) = true) :
    le32 Machine.onePage.phys (0x203000 + 4 * k) = entry 0x208000 := by
  rw [onePage_word (k := 0x80c00 + k) (by omega), onePageWord] at *
  split_ifs at *
  all_goals first | omega | rfl | cases hp

theorem onePage_kept {q : ℕ} (h : q = 0x200000 ∨ q = 0x203000 ∨ q = 0x101000 ∨ q = 0x208000) :
    Machine.onePage.Kept 0x201000 0x202000 q := by
  rcases h with rfl | rfl | rfl | rfl <;>
    exact ⟨⟨by decide, by decide⟩, by decide, by decide⟩


/-- An entry of the child's directory is the kernel's, its own, or none. -/
theorem onePage_childWord {j : ℕ} (hj : j < 1023) :
    le32 Machine.onePage.phys (0x201000 + 4 * j) = if j = 768 then entry 0x101000 else 0 := by
  rw [onePage_word (k := 0x80400 + j) (by omega), onePageWord]
  split_ifs <;> first | omega | rfl

theorem onePage_parentWord {j : ℕ} (hj : 32 < j) (hj' : j < 1023) :
    le32 Machine.onePage.phys (0x200000 + 4 * j) = if j = 768 then entry 0x101000 else 0 := by
  rw [onePage_word (k := 0x80000 + j) (by omega), onePageWord]
  split_ifs <;> first | omega | rfl

/-- The frame of a page in the parent's user half is that of its one page. -/
theorem onePage_frame {va pa : ℕ} (hva : pdeIdx va < 768)
    (hpa : Machine.onePage.walk va = some pa) : frame pa = 0x208000 := by
  obtain ⟨hp, hp', rfl⟩ := walk_eq_some.mp hpa
  change present (le32 Machine.onePage.phys (0x200000 + 4 * pdeIdx va)) = true at hp
  obtain ⟨-, h⟩ | ⟨h, -⟩ | ⟨h, -⟩ := onePage_parentEntry (by omega) hp
  · have haddr : pteAddr Machine.onePage.phys 0x200000 va = 0x203000 + 4 * pteIdx va := by
      rw [pteAddr, pdeAddr, h, frame_entry (by decide)]
    change present (le32 _ (pteAddr Machine.onePage.phys 0x200000 va)) = true at hp'
    change frame (frame (le32 _ (pteAddr Machine.onePage.phys 0x200000 va)) + va % 4096) = _
    rw [haddr] at hp' ⊢
    rw [onePage_tableEntry (pteIdx_lt va) hp', frame_entry (by decide),
      frame_of_aligned (by decide) (Nat.mod_lt _ (by decide))]
  · omega
  · omega

theorem onePage_pools : Machine.onePage.kernelPool.Aligned ∧ Machine.onePage.userPool.Aligned ∧
    Machine.onePage.kernelPool.frameAddr (8 * Machine.onePage.kernelPool.poolBitmap.btmpBytesLen) ≤
      Machine.onePage.userPool.phyAddrStart :=
  ⟨⟨by decide, by decide⟩, ⟨by decide, by decide⟩, by decide⟩

theorem onePage_ready : Machine.onePage.ForkReady 0xc0000000 0xc0001000 0xc0002000
    0x200000 0x201000 0x202000 where
  kernelPool := onePage_pools.1
  userPool := onePage_pools.2.1
  apart := onePage_pools.2.2
  cr3 := rfl
  parentSelf := onePage_self 0x80000 (by decide) (by decide) (by simp [onePageWord])
  childSelf := onePage_self 0x80400 (by decide) (by decide) (by simp [onePageWord])
  childUser j hj := by
    rw [onePage_childWord (by omega), if_neg (by omega)]
    rfl
  childKernel j hj hj' := by
    rw [onePage_childWord hj', onePage_parentWord (by omega) hj']
  parentPage := onePage_kernelPage 0 (by decide) (by decide) (by simp [onePageWord]) (by decide)
  childPage := onePage_kernelPage 1 (by decide) (by decide) (by simp [onePageWord]) (by decide)
  bufPage := onePage_kernelPage 2 (by decide) (by decide) (by simp [onePageWord]) (by decide)
  childUsed := ⟨by decide, by decide⟩
  bufUsed := ⟨by decide, by decide⟩
  buf_ne := by decide
  parentKept := onePage_kept (.inl rfl)
  tablesKept j hj hp := by
    rcases onePage_parentEntry hj hp with ⟨-, h⟩ | ⟨-, h⟩ | ⟨-, h⟩ <;>
      rw [h, frame_entry (by decide)] <;> exact onePage_kept (by simp)
  userKept va hva pa hpa := by
    rw [onePage_frame hva hpa]
    exact onePage_kept (by simp)

theorem onePage_walk : Machine.onePage.walk 0x8048000 = some 0x208000 := by
  have hpde : le32 Machine.onePage.phys (pdeAddr 0x200000 0x8048000) = entry 0x203000 :=
    (onePage_word (k := 0x80000 + 32) (by decide)).trans (by simp [onePageWord])
  have haddr : pteAddr Machine.onePage.phys 0x200000 0x8048000 = 4 * (0x80c00 + 72) := by
    rw [pteAddr, hpde, frame_entry (by decide)]
    decide
  have hpte := (onePage_word haddr).trans
    (show onePageWord (0x80c00 + 72) = entry 0x208000 by simp [onePageWord])
  change Paging.walk Machine.onePage.phys 0x200000 0x8048000 = some 0x208000
  rw [walk_of_present (by rw [hpde]; exact present_entry (by decide))
    (by rw [hpte]; exact present_entry (by decide)), hpte, frame_entry (by decide)]

theorem onePage_bit {i : ℕ} (hi : i < 8) :
    Machine.onePage.userprogVaddr.vaddrBitmap.bit i = true ↔ i = 0 := by
  interval_cases i <;> decide

theorem onePage_userPages : Machine.onePage.UserPages where
  aligned := by decide
  pos := by decide
  fits := by decide
  mapped i hi hbit := by
    rw [(onePage_bit hi).mp hbit]
    change Machine.onePage.walk 0x8048000 ≠ none
    rw [onePage_walk]
    exact Option.some_ne_none _

theorem onePage_pages : Machine.onePage.pagesFrom 0 = {0} := by
  ext i
  rw [mem_pagesFrom, Finset.mem_singleton]
  constructor
  · rintro ⟨⟨-, hi⟩, hbit⟩
    exact (onePage_bit hi).mp hbit
  · rintro rfl
    exact ⟨⟨le_refl 0, by decide⟩, (onePage_bit (by decide)).mpr rfl⟩

/-- It is copied: the child sees in its page what the parent had there. -/
theorem copyBodyStack3_copies_onePage : ∃ m' : Machine,
    Returns (copyBodyStack3 (some 0xc0000000) (some 0xc0001000) 0xc0002000) Machine.onePage () m' ∧
      ∀ va < 0xc0000000, Machine.onePage.HasPage va →
        seen m'.phys 0x201000 va = seen Machine.onePage.phys 0x200000 va := by
  obtain ⟨m', hret, -, -, -, -, hseen, -⟩ := copyBodyStack3_copies onePage_ready onePage_userPages
    (by rw [onePage_pages]; decide)
    (by rw [Machine.entriesFrom, onePage_pages]; decide)
  exact ⟨m', hret, hseen⟩

end GlowOS
