import Mathlib
import GlowOS.Kernel.Memory

/-!
# The layout of the pools

Where `mem_pool_init` puts the two pools of frames and the three bitmaps. The number of free pages
passes through a `uint16_t`. From 256 MB of free memory on it is taken modulo 65536, and the frames
above are in no pool.

A pool manages the frames that its bitmap has bits for. Each bitmap has a whole number of bytes, so
up to seven frames at the end of each half are left out as well.
-/

namespace GlowOS

open Bytes Paging Program

/-! ## What the pools manage -/

/-- `used_mem` of `mem_pool_init`: the low megabyte and the page tables. -/
abbrev usedMem : ℕ := 0x200000

/-- `MEM_BITMAP_BASE`. -/
abbrev memBitmapBase : ℕ := 0xc009a000

/-- The page of the main thread. -/
abbrev mainThread : ℕ := 0xc009e000

/-- The physical addresses in the frames that have a bit. -/
def Pool.managed (p : Pool) : Set ℕ :=
  Set.Ico p.phyAddrStart (p.phyAddrStart + 8 * p.poolBitmap.btmpBytesLen * pgSize)

/-- The first addresses of the page frames in `[used_mem, all_mem)`. -/
def freeFrames (allMem : ℕ) : Set ℕ := {a | usedMem ≤ a ∧ a + pgSize ≤ allMem ∧ pgSize ∣ a}

theorem Pool.mem_managed {p : Pool} {a : ℕ} : a ∈ p.managed ↔ p.phyAddrStart ≤ a ∧
    a < p.phyAddrStart + 8 * p.poolBitmap.btmpBytesLen * 4096 := Iff.rfl

theorem mem_freeFrames {allMem a : ℕ} :
    a ∈ freeFrames allMem ↔ 0x200000 ≤ a ∧ a + 4096 ≤ allMem ∧ 4096 ∣ a := Iff.rfl

/-- The areas of the three bitmaps, in the order in which `mem_pool_init` places them. -/
def Machine.bitmapAreas (m : Machine) : List (Set ℕ) :=
  let kbmLength := m.kernelPool.poolBitmap.btmpBytesLen
  let ubmLength := m.userPool.poolBitmap.btmpBytesLen
  [Set.Ico memBitmapBase (memBitmapBase + kbmLength),
    Set.Ico (memBitmapBase + kbmLength) (memBitmapBase + kbmLength + ubmLength),
    Set.Ico (memBitmapBase + kbmLength + ubmLength)
      (memBitmapBase + kbmLength + ubmLength + m.kernelVaddr.vaddrBitmap.btmpBytesLen)]

/-- The pools divide the free memory between them, and their bitmaps fit below the main thread. -/
structure SoundPools (allMem : ℕ) (m : Machine) : Prop where
  disjoint : Disjoint m.kernelPool.managed m.userPool.managed
  aligned : ∀ f, pgSize ∣ (m.pool f).phyAddrStart
  inside : ∀ f, (m.pool f).managed ⊆ Set.Ico usedMem allMem
  covers : (freeFrames allMem \ (m.kernelPool.managed ∪ m.userPool.managed)).ncard ≤ 14
  apart : m.bitmapAreas.Pairwise Disjoint
  below : ∀ area ∈ m.bitmapAreas, area ⊆ Set.Iio mainThread

/-! ## Frames by number -/

/-- A set of frames given by numbers has at most as many elements. -/
theorem ncard_frames_le {S : Set ℕ} {t : Finset ℕ}
    (h : ∀ a ∈ S, ∃ i ∈ t, a = 0x200000 + 4096 * i) : S.ncard ≤ t.card := by
  have hsub : S ⊆ ↑(t.image fun i ↦ 0x200000 + 4096 * i) := by
    intro a ha
    obtain ⟨i, hi, rfl⟩ := h a ha
    exact Finset.mem_coe.mpr (Finset.mem_image_of_mem _ hi)
  calc S.ncard ≤ (↑(t.image fun i ↦ 0x200000 + 4096 * i) : Set ℕ).ncard :=
        Set.ncard_le_ncard hsub (Finset.finite_toSet _)
    _ = (t.image fun i ↦ 0x200000 + 4096 * i).card := Set.ncard_coe_finset _
    _ ≤ t.card := Finset.card_image_le

/-- A finite set that holds the frames given by numbers has at least as many elements. -/
theorem card_le_ncard_frames {S : Set ℕ} {t : Finset ℕ} (hfin : S.Finite)
    (h : ∀ i ∈ t, 0x200000 + 4096 * i ∈ S) : t.card ≤ S.ncard := by
  have hsub : (↑(t.image fun i ↦ 0x200000 + 4096 * i) : Set ℕ) ⊆ S := by
    intro a ha
    obtain ⟨i, hi, rfl⟩ := Finset.mem_image.mp (Finset.mem_coe.mp ha)
    exact h i hi
  have hinj : Set.InjOn (fun i ↦ 0x200000 + 4096 * i) ↑t := fun i _ j _ hij ↦ by
    dsimp only at hij
    omega
  calc t.card = (t.image fun i ↦ 0x200000 + 4096 * i).card := (Finset.card_image_of_injOn hinj).symm
    _ = (↑(t.image fun i ↦ 0x200000 + 4096 * i) : Set ℕ).ncard := (Set.ncard_coe_finset _).symm
    _ ≤ S.ncard := Set.ncard_le_ncard hsub hfin

theorem finite_freeFrames (allMem : ℕ) : (freeFrames allMem).Finite :=
  (Set.finite_Iio allMem).subset fun a ha ↦ by
    obtain ⟨-, h, -⟩ := mem_freeFrames.mp ha
    exact Set.mem_Iio.mpr (by omega)

/-! ## What `mem_pool_init` does -/

/-- The halves of the free pages, as `mem_pool_init` counts them. -/
structure Halves (allMem kernel user : ℕ) : Prop where
  free : kernel + user = (allMem + 2 ^ 32 - 0x200000) % 2 ^ 32 / 4096 % 2 ^ 16
  half : kernel ≤ user ∧ user ≤ kernel + 1

/-- The pools and the lengths of the bitmaps. -/
structure Laid (m : Machine) (kernel user : ℕ) : Prop where
  kernelStart : m.kernelPool.phyAddrStart = 0x200000
  userStart : m.userPool.phyAddrStart = 0x200000 + kernel * 4096
  kernelLen : m.kernelPool.poolBitmap.btmpBytesLen = kernel / 8
  userLen : m.userPool.poolBitmap.btmpBytesLen = user / 8
  vaddrLen : m.kernelVaddr.vaddrBitmap.btmpBytesLen = kernel / 8

theorem memPoolInit_laid {allMem : ℕ} {b m : Machine}
    (h : Returns (memPoolInit allMem) b () m) :
    ∃ kernel user, Halves allMem kernel user ∧ Laid m kernel user := by
  obtain rfl := returns_modify.mp h
  refine ⟨_, _, ⟨Nat.add_sub_cancel' (Nat.div_le_self _ 2), ?_⟩, rfl, rfl, rfl, rfl, rfl⟩
  omega

section Areas

variable {m : Machine} {allMem kernel user : ℕ}

theorem Laid.mem_kernel (h : Laid m kernel user) {a : ℕ} : a ∈ m.kernelPool.managed ↔
    0x200000 ≤ a ∧ a < 0x200000 + 8 * (kernel / 8) * 4096 := by
  rw [Pool.mem_managed, h.kernelStart, h.kernelLen]

theorem Laid.mem_user (h : Laid m kernel user) {a : ℕ} : a ∈ m.userPool.managed ↔
    0x200000 + kernel * 4096 ≤ a ∧ a < 0x200000 + kernel * 4096 + 8 * (user / 8) * 4096 := by
  rw [Pool.mem_managed, h.userStart, h.userLen]

theorem Laid.disjoint (h : Laid m kernel user) :
    Disjoint m.kernelPool.managed m.userPool.managed := by
  refine Set.disjoint_left.mpr fun a ha hb ↦ ?_
  rw [h.mem_kernel] at ha
  rw [h.mem_user] at hb
  omega

theorem Laid.aligned (h : Laid m kernel user) (f : PoolFlags) :
    pgSize ∣ (m.pool f).phyAddrStart := by
  cases f with
  | kernel =>
    rw [Machine.pool, h.kernelStart]
    exact ⟨512, rfl⟩
  | user =>
    rw [Machine.pool, h.userStart]
    change 4096 ∣ _
    omega

theorem Laid.inside (h : Laid m kernel user) (hfree : 0x200000 + (kernel + user) * 4096 ≤ allMem)
    (f : PoolFlags) : (m.pool f).managed ⊆ Set.Ico usedMem allMem := by
  intro a ha
  change 0x200000 ≤ a ∧ a < allMem
  cases f with
  | kernel =>
    have ha := h.mem_kernel.mp ha
    omega
  | user =>
    have ha := h.mem_user.mp ha
    omega

theorem Machine.bitmapAreas_apart (m : Machine) : m.bitmapAreas.Pairwise Disjoint := by
  have hdisj : ∀ {i j k l : ℕ}, j ≤ k → Disjoint (Set.Ico i j) (Set.Ico k l) := by
    intro i j k l hjk
    refine Set.disjoint_left.mpr fun a ha hb ↦ ?_
    rw [Set.mem_Ico] at ha hb
    omega
  rw [Machine.bitmapAreas, List.pairwise_cons, List.pairwise_cons]
  refine ⟨fun area harea ↦ ?_, fun area harea ↦ ?_, List.pairwise_singleton _ _⟩
  · rw [List.mem_pair] at harea
    rcases harea with rfl | rfl
    · exact hdisj le_rfl
    · exact hdisj (Nat.le_add_right _ _)
  · rw [List.mem_singleton] at harea
    subst harea
    exact hdisj le_rfl

theorem Laid.below (h : Laid m kernel user) (hfew : kernel + user < 2 ^ 16)
    (hhalf : kernel ≤ user) :
    ∀ area ∈ m.bitmapAreas, area ⊆ Set.Iio mainThread := by
  intro area harea a ha
  change a < 0xc009e000
  rw [Machine.bitmapAreas, h.kernelLen, h.userLen, h.vaddrLen, List.mem_cons, List.mem_pair]
    at harea
  rcases harea with rfl | rfl | rfl
  · have ha : a < 0xc009a000 + kernel / 8 := ha.2
    omega
  · have ha : a < 0xc009a000 + kernel / 8 + user / 8 := ha.2
    omega
  · have ha : a < 0xc009a000 + kernel / 8 + user / 8 + kernel / 8 := ha.2
    omega

/-- With all free pages counted, less than a byte's worth of each half is left out. -/
theorem Laid.covers (h : Laid m kernel user)
    (hall : kernel + user = (allMem - 0x200000) / 4096) :
    (freeFrames allMem \ (m.kernelPool.managed ∪ m.userPool.managed)).ncard ≤ 14 := by
  have hleft : ∀ a ∈ freeFrames allMem \ (m.kernelPool.managed ∪ m.userPool.managed),
      ∃ i ∈ Finset.Ico (8 * (kernel / 8)) kernel ∪
        Finset.Ico (kernel + 8 * (user / 8)) (kernel + user), a = 0x200000 + 4096 * i := by
    rintro a ⟨hfree, hout⟩
    obtain ⟨hlo, hhi, k, rfl⟩ := mem_freeFrames.mp hfree
    rw [Set.mem_union, h.mem_kernel, h.mem_user] at hout
    refine ⟨k - 512, ?_, by omega⟩
    rw [Finset.mem_union, Finset.mem_Ico, Finset.mem_Ico]
    omega
  refine (ncard_frames_le hleft).trans ((Finset.card_union_le _ _).trans ?_)
  rw [Nat.card_Ico, Nat.card_Ico]
  omega

/-- The frames above the pools are in none. -/
theorem Laid.frames_above (h : Laid m kernel user) :
    (allMem - 0x200000) / 4096 - (kernel + user) ≤
      (freeFrames allMem \ (m.kernelPool.managed ∪ m.userPool.managed)).ncard := by
  rw [← Nat.card_Ico (kernel + user)]
  refine card_le_ncard_frames (finite_freeFrames allMem).diff fun i hi ↦ ?_
  rw [Finset.mem_Ico] at hi
  refine ⟨mem_freeFrames.mpr (by omega), ?_⟩
  rw [Set.mem_union, h.mem_kernel, h.mem_user]
  omega

end Areas

/-- **The pools are laid out as intended exactly below 258 MB.** From there on the count of the free
pages wraps, and 65536 frames are lost. -/
theorem memPoolInit_sound_iff {allMem : ℕ} {b m : Machine}
    (h : Returns (memPoolInit allMem) b () m) (hlo : 0x200000 + 16 * 4096 ≤ allMem)
    (hhi : allMem ≤ 512 * 1024 * 1024) :
    SoundPools allMem m ↔ allMem < 258 * 1024 * 1024 := by
  obtain ⟨kernel, user, hcount, hlaid⟩ := memPoolInit_laid h
  have hfree := hcount.free
  obtain ⟨hle, -⟩ := hcount.half
  constructor
  · intro hs
    have habove := hlaid.frames_above.trans hs.covers
    omega
  · intro hlt
    have hall : kernel + user = (allMem - 0x200000) / 4096 := by omega
    have hroom : 0x200000 + (kernel + user) * 4096 ≤ allMem := by
      have hpages := Nat.div_mul_le_self (allMem - 0x200000) 4096
      rw [← hall] at hpages
      calc 0x200000 + (kernel + user) * 4096 ≤ 0x200000 + (allMem - 0x200000) :=
            Nat.add_le_add_left hpages _
        _ = allMem := Nat.add_sub_cancel' (le_trans (by decide) hlo)
    exact
      { disjoint := hlaid.disjoint
        aligned := hlaid.aligned
        inside := hlaid.inside hroom
        covers := hlaid.covers hall
        apart := m.bitmapAreas_apart
        below := hlaid.below (by omega) hle }

/-- A machine on which nothing has been set up. -/
def Machine.unset : Machine where
  phys := fun _ ↦ 0
  cr3 := 0x100000
  kernelPool := ⟨⟨0, fun _ ↦ 0⟩, 0, 0⟩
  userPool := ⟨⟨0, fun _ ↦ 0⟩, 0, 0⟩
  kernelVaddr := ⟨⟨0, fun _ ↦ 0⟩, 0⟩
  pgdir := none
  userprogVaddr := ⟨⟨0, fun _ ↦ 0⟩, 0⟩

/-- The 32 MB of the emulated machine are laid out soundly. -/
theorem memPoolInit_sound_32MB : ∃ m, Returns (memPoolInit 0x2000000) Machine.unset () m ∧
    SoundPools 0x2000000 m := by
  refine ⟨_, returns_modify.mpr rfl, ?_⟩
  exact (memPoolInit_sound_iff (returns_modify.mpr rfl) (by decide) (by decide)).mpr (by decide)

/-- With the 512 MB that the comment promises, half of the frames are in no pool. -/
theorem memPoolInit_unsound_512MB :
    ¬∀ (allMem : ℕ) (b m : Machine), Returns (memPoolInit allMem) b () m →
      0x200000 + 16 * 4096 ≤ allMem → allMem ≤ 512 * 1024 * 1024 → SoundPools allMem m := by
  intro hall
  have hinit : ∃ m, Returns (memPoolInit 0x20000000) Machine.unset () m :=
    ⟨_, returns_modify.mpr rfl⟩
  obtain ⟨m, hinit⟩ := hinit
  obtain ⟨kernel, user, hcount, hlaid⟩ := memPoolInit_laid hinit
  have hs := hall 0x20000000 Machine.unset m hinit (by decide) (by decide)
  have hfree := hcount.free
  have habove := hlaid.frames_above.trans hs.covers
  omega

end GlowOS
