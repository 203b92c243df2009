import Mathlib
import GlowOS.Kernel.HeapRuns
import GlowOS.Kernel.PageAlloc

/-!
# The heap of the kernel

`sys_malloc` over the `malloc_page` of the kernel. The page level keeps what the heap relies on, so
the runs of the heap are runs over page tables and frames: every byte of a block that is held is
mapped to a frame of the kernel pool, and no two bytes to the same physical one.

`malloc_page` can fail after pages were reserved, and these stay reserved. `Lent` allows for that.
-/

namespace GlowOS

open Bytes Paging Program Ranges HeapShape

/-! ## The directory of a thread -/

/-- The field `pgdir` of the running thread is the same. -/
def SamePgdir (m m' : Machine) : Prop := m'.pgdir = m.pgdir

instance : Std.Refl SamePgdir := ⟨fun _ ↦ rfl⟩

instance : IsTrans Machine SamePgdir := ⟨fun _ _ _ h h' ↦ h'.trans h⟩

section Frames

theorem pgdir_translate (va : ℕ) : Within SamePgdir (translate va) := by
  refine Within.bind Within.get fun m ↦ ?_
  split
  · exact Within.throw _
  · exact Within.pure _

theorem pgdir_readWord (va : ℕ) : Within SamePgdir (readWord va) :=
  Within.bind (pgdir_translate va) fun _ ↦ Within.bind Within.get fun _ ↦ Within.pure _

theorem pgdir_writeWord (va w : ℕ) : Within SamePgdir (writeWord va w) :=
  Within.bind (pgdir_translate va) fun _ ↦ Within.modify fun _ ↦ rfl

theorem pgdir_fill (x : UInt8) (n va : ℕ) : Within SamePgdir (fill x va n) := by
  induction n generalizing va with
  | zero => exact Within.pure _
  | succ n ih =>
    refine Within.bind ?_ fun _ ↦ ih (va + 1)
    exact Within.bind (pgdir_translate va) fun _ ↦ Within.modify fun _ ↦ rfl

theorem pgdir_memset (va n : ℕ) (x : UInt8) : Within SamePgdir (memset va x n) :=
  Within.bind (Within.check _ _) fun _ ↦ pgdir_fill x n va

theorem pgdir_palloc (pf : PoolFlags) : Within SamePgdir (palloc pf) := by
  refine Within.bind Within.get fun m ↦ ?_
  split
  · exact Within.pure _
  · refine Within.bind (Within.modify fun m ↦ ?_) fun _ ↦ Within.pure _
    cases pf <;> rfl

theorem pgdir_pageTableAdd (va pa : ℕ) : Within SamePgdir (pageTableAdd va pa) := by
  refine Within.bind (pgdir_readWord _) fun _ ↦ Within.ite ?_ ?_
  · exact Within.bind (pgdir_readWord _) fun _ ↦
      Within.bind (Within.check _ _) fun _ ↦ pgdir_writeWord _ _
  · refine Within.bind (pgdir_palloc _) fun _ ↦ Within.bind (pgdir_writeWord _ _) fun _ ↦ ?_
    refine Within.bind (pgdir_memset _ _ _) fun _ ↦ Within.bind (pgdir_readWord _) fun _ ↦ ?_
    exact Within.bind (Within.check _ _) fun _ ↦ pgdir_writeWord _ _

theorem pgdir_mapPages (pf : PoolFlags) (n va : ℕ) : Within SamePgdir (mapPages pf va n) := by
  induction n generalizing va with
  | zero => exact Within.pure _
  | succ n ih =>
    refine Within.bind (pgdir_palloc pf) fun r ↦ ?_
    cases r with
    | none => exact Within.pure _
    | some pa => exact Within.bind (pgdir_pageTableAdd va pa) fun _ ↦ ih (va + pgSize)

theorem pgdir_vaddrGet (pf : PoolFlags) (n : ℕ) : Within SamePgdir (vaddrGet pf n) := by
  refine Within.bind Within.get fun m ↦ ?_
  split
  · exact Within.pure _
  · refine Within.bind (Within.modify fun m ↦ ?_) fun _ ↦
      Within.bind (Within.check _ _) fun _ ↦ Within.pure _
    cases pf <;> rfl

theorem pgdir_mallocPage (pf : PoolFlags) (n : ℕ) : Within SamePgdir (mallocPage pf n) := by
  refine Within.bind (Within.check _ _) fun _ ↦ Within.bind (pgdir_vaddrGet pf n) fun r ↦ ?_
  cases r with
  | none => exact Within.pure _
  | some va => exact Within.bind (pgdir_mapPages pf n va) fun _ ↦ Within.pure _

theorem pgdir_addrV2p (va : ℕ) : Within SamePgdir (addrV2p va) :=
  Within.bind (pgdir_readWord _) fun _ ↦ Within.pure _

theorem pgdir_unmapPages (ok : Machine → ℕ → Bool) (n va : ℕ) :
    Within SamePgdir (unmapPages ok va n) := by
  induction n generalizing va with
  | zero => exact Within.pure _
  | succ n ih =>
    refine Within.bind (pgdir_addrV2p va) fun pa ↦ Within.bind Within.get fun m ↦
      Within.bind (Within.check _ _) fun _ ↦ Within.bind ?_ fun _ ↦ Within.bind ?_ fun _ ↦
        ih (va + pgSize)
    · exact Within.bind Within.get fun m ↦
        Within.ite (Within.modify fun _ ↦ rfl) (Within.modify fun _ ↦ rfl)
    · exact Within.bind (pgdir_readWord _) fun _ ↦ pgdir_writeWord _ _

theorem pgdir_mfreePage (pf : PoolFlags) (va n : ℕ) : Within SamePgdir (mfreePage pf va n) := by
  have hremove : Within SamePgdir (vaddrRemove pf va n) :=
    Within.modify fun m ↦ by cases pf <;> rfl
  refine Within.bind (Within.check _ _) fun _ ↦ Within.bind (pgdir_addrV2p va) fun pa ↦
    Within.bind (Within.check _ _) fun _ ↦ Within.bind Within.get fun m ↦ Within.ite ?_ ?_
  · exact Within.bind (pgdir_unmapPages _ n va) fun _ ↦ hremove
  · exact Within.bind (pgdir_unmapPages _ n va) fun _ ↦ hremove

end Frames

/-! ## Pages that are handed out -/

/-- The ranges `live` of heap pages are handed out and mapped. Other pages may be reserved, for
nobody. -/
structure Lent (m₀ m : Machine) (live : List (ℕ × ℕ)) (reserved : Set ℕ)
    (frameOf : ℕ → Option ℕ) : Prop where
  inv : PageInv m₀ m reserved frameOf
  mapped : ∀ j, Covers live j → (frameOf j).isSome = true
  apart : Apart live
  pos : ∀ r ∈ live, 0 < r.2

section Lent

variable {m₀ m m' : Machine} {live : List (ℕ × ℕ)} {reserved : Set ℕ} {frameOf : ℕ → Option ℕ}
  {n s va : ℕ}

theorem Lent.mem_reserved (h : Lent m₀ m live reserved frameOf) {j : ℕ} (hj : Covers live j) :
    j ∈ reserved := by
  obtain ⟨i, hi⟩ := Option.isSome_iff_exists.mp (h.mapped j hj)
  exact (h.inv.mapped j i hi).1

/-- The loop of `malloc_page` that runs out of frames leaves the pages mapped that were. -/
theorem PageInv.mapPages_false (hr : m₀.PoolsReady) (h : PageInv m₀ m reserved frameOf)
    (hin : ∀ j, Holds (s, n) j → j ∈ reserved ∧ frameOf j = none)
    (hret : Returns (GlowOS.mapPages .kernel (heapPage s) n) m false m') :
    ∃ frameOf', PageInv m₀ m' reserved frameOf' ∧
      ∀ j, (frameOf j).isSome = true → (frameOf' j).isSome = true := by
  induction n generalizing s m frameOf with
  | zero => cases (returns_pure.mp hret).1
  | succ n ih =>
    obtain ⟨r, t, h1, hret⟩ := returns_bind.mp hret
    cases r with
    | none =>
      obtain ⟨-, rfl⟩ := returns_pure.mp hret
      cases hscan : (m.pool .kernel).poolBitmap.scan 1 with
      | none =>
        obtain ⟨-, rfl⟩ := h1.unique (returns_palloc_none .kernel hscan)
        exact ⟨frameOf, h, fun j hj ↦ hj⟩
      | some i => cases (h1.unique (returns_palloc .kernel hscan)).1
    | some pa =>
      obtain ⟨u, t', h2, hret⟩ := returns_bind.mp hret
      obtain ⟨hs, hnone⟩ := hin s ⟨le_refl s, by dsimp only; omega⟩
      obtain ⟨i, hinv⟩ := h.mapPage hr hs hnone h1 h2
      have hnext : heapPage s + pgSize = heapPage (s + 1) := by
        rw [heapPage, heapPage, pgSize]
        omega
      rw [hnext] at hret
      obtain ⟨frameOf', hinv', hsome⟩ := ih hinv (by
        intro j hj
        obtain ⟨h3, h4⟩ := hj
        dsimp only at h3 h4
        rw [Function.update_of_ne (by omega)]
        exact hin j ⟨by dsimp only; omega, by dsimp only; omega⟩) hret
      refine ⟨frameOf', hinv', fun j hj ↦ hsome j ?_⟩
      by_cases hjs : j = s
      · rw [hjs, Function.update_self]
        rfl
      · rw [Function.update_of_ne hjs]
        exact hj

/-- Pages that are not reserved are not mapped. -/
theorem PageInv.unmapped (h : PageInv m₀ m reserved frameOf) {j : ℕ} (hj : j ∉ reserved) :
    frameOf j = none := by
  cases hf : frameOf j with
  | none => rfl
  | some i => exact absurd (h.mapped j i hf).1 hj

/-- `malloc_page` hands out pages that nobody has. -/
theorem Lent.mallocPage (h : Lent m₀ m live reserved frameOf) (hr : m₀.PoolsReady)
    (hret : Returns (mallocPage .kernel n) m (some va) m') : ∃ s reserved' frameOf',
      va = heapPage s ∧ s + n ≤ 2 ^ 15 ∧ Lent m₀ m' ((s, n) :: live) reserved' frameOf' := by
  obtain ⟨⟨hn, -⟩, hret⟩ := returns_check_bind.mp hret
  obtain ⟨r, t, h1, hret⟩ := returns_bind.mp hret
  cases r with
  | none => cases (returns_pure.mp hret).1
  | some v =>
    obtain ⟨ok, t', h2, hret⟩ := returns_bind.mp hret
    obtain ⟨hva, rfl⟩ := returns_pure.mp hret
    cases ok with
    | false => cases hva
    | true =>
      obtain rfl := Option.some.inj hva
      obtain ⟨s, rfl, hnew, hinv⟩ := h.inv.vaddrGet hr hn h1
      obtain ⟨frameOf', hinv', hsome⟩ := hinv.mapPages hr
        (fun j hj ↦ ⟨.inr hj, h.inv.unmapped (hnew j hj)⟩) h2
      have hlast := hinv.lt hr (j := s + n - 1) (.inr ⟨by dsimp only; omega, by dsimp only; omega⟩)
      refine ⟨s, _, frameOf', rfl, by omega, hinv', fun j hj ↦ ?_,
        h.apart.cons h.pos hn fun j hj hcov ↦ hnew j hj (h.mem_reserved hcov), ?_⟩
      · rw [hsome]
        exact (covers_cons.mp hj).symm.imp_left (h.mapped j)
      · exact List.forall_mem_cons.mpr ⟨hn, h.pos⟩

/-- A `malloc_page` that fails leaves the pages that are handed out alone. -/
theorem Lent.mallocPage_none (h : Lent m₀ m live reserved frameOf) (hr : m₀.PoolsReady)
    (hret : Returns (GlowOS.mallocPage .kernel n) m none m') :
    ∃ reserved' frameOf', Lent m₀ m' live reserved' frameOf' := by
  obtain ⟨⟨hn, -⟩, hret⟩ := returns_check_bind.mp hret
  obtain ⟨r, t, h1, hret⟩ := returns_bind.mp hret
  cases r with
  | none =>
    obtain ⟨-, rfl⟩ := returns_pure.mp hret
    rw [vaddrGet, returns_get_bind] at h1
    cases hs : (m.vaddr .kernel).vaddrBitmap.scan n with
    | none =>
      rw [hs] at h1
      obtain ⟨-, rfl⟩ := returns_pure.mp h1
      exact ⟨reserved, frameOf, h⟩
    | some s =>
      rw [hs] at h1
      cases (returns_pure.mp (returns_check_bind.mp (returns_modify_bind.mp h1)).2).1
  | some v =>
    obtain ⟨ok, t', h2, hret⟩ := returns_bind.mp hret
    obtain ⟨hva, rfl⟩ := returns_pure.mp hret
    cases ok with
    | true => cases hva
    | false =>
      obtain ⟨s, rfl, hnew, hinv⟩ := h.inv.vaddrGet hr hn h1
      obtain ⟨frameOf', hinv', hsome⟩ := PageInv.mapPages_false hr hinv
        (fun j hj ↦ ⟨.inr hj, h.inv.unmapped (hnew j hj)⟩) h2
      exact ⟨_, frameOf', hinv', fun j hj ↦ hsome j (h.mapped j hj), h.apart, h.pos⟩

/-- `mfree_page` of pages that are handed out takes them back. -/
theorem Lent.mfreePage (h : Lent m₀ m live reserved frameOf) (hr : m₀.PoolsReady)
    (hmem : (s, n) ∈ live) : ∃ m' reserved' frameOf',
      Returns (mfreePage .kernel (heapPage s) n) m () m' ∧
        Lent m₀ m' (live.erase (s, n)) reserved' frameOf' := by
  have hn := h.pos _ hmem
  have hheld : ∀ j, Holds (s, n) j → (frameOf j).isSome = true :=
    fun j hj ↦ h.mapped j ⟨_, hmem, hj⟩
  obtain ⟨i, hi⟩ := Option.isSome_iff_exists.mp
    (hheld s ⟨le_refl s, Nat.lt_add_of_pos_right hn⟩)
  obtain ⟨haddr, -⟩ := h.inv.unmapPage hr hi
  obtain ⟨t, frameOf', hloop, hinv, hsome⟩ := h.inv.unmapPages hr hheld
  have hfree : ∀ j, Holds (s, n) j → j ∈ reserved ∧ frameOf' j = none := by
    refine fun j hj ↦ ⟨h.mem_reserved ⟨_, hmem, hj⟩, ?_⟩
    by_contra hne
    exact ((hsome j).mp (Option.isSome_iff_ne_none.mpr hne)).2 hj
  have hlow : 0x102000 ≤ m₀.kernelPool.frameAddr i := by
    rw [Pool.frameAddr, hr.start]
    omega
  have hhigh : ¬m.userPool.phyAddrStart ≤ m₀.kernelPool.frameAddr i := by
    rw [h.inv.user]
    exact Nat.not_le_of_lt (PageInv.frameAddr_lt hr (h.inv.mapped s i hi).2.1)
  have hremove := hinv.vaddrRemove (u := ()) hr hfree (returns_modify.mpr rfl)
  refine ⟨_, _, frameOf', ?_, hremove, fun j hj ↦ ?_, h.apart.erase,
    fun r hrm ↦ h.pos r (List.mem_of_mem_erase hrm)⟩
  · refine returns_check_bind.mpr ⟨⟨hn, heapPage_mod s⟩, returns_bind.mpr ⟨_, m, haddr, ?_⟩⟩
    refine returns_check_bind.mpr ⟨⟨PageInv.frameAddr_mod hr i, hlow⟩, returns_get_bind.mpr ?_⟩
    rw [if_neg hhigh]
    exact returns_bind.mpr ⟨(), t, hloop, returns_modify.mpr rfl⟩
  · obtain ⟨hcov, hnot⟩ := (covers_erase h.apart hmem).mp hj
    exact (hsome j).mpr ⟨h.mapped j hcov, hnot⟩

end Lent

/-! ## The page level of the kernel -/

/-- The page level, for a thread of the kernel. -/
def kernelPages (kBlockDescs : ℕ) (uBlockDesc : ℕ → ℕ) : Pages Machine where
  mallocPage := mallocPage
  mfreePage := mfreePage
  poolSize m pf := (m.pool pf).poolSize
  kernelThread m := m.pgdir.isNone
  kBlockDescs := kBlockDescs
  uBlockDesc := uBlockDesc

/-- A range of heap pages in bytes lies behind the start of the heap. -/
theorem heapRange_apart {r r' : ℕ × ℕ} (h : r.1 + r.2 ≤ r'.1 ∨ r'.1 + r'.2 ≤ r.1) :
    (heapRange r).1 + (heapRange r).2 * 4096 ≤ (heapRange r').1 ∨
      (heapRange r').1 + (heapRange r').2 * 4096 ≤ (heapRange r).1 := by
  rw [heapRange, heapRange, heapPage, heapPage, pgSize]
  omega

/-- The page level has lent out these runs of pages to the kernel. -/
def KernelOwns (m₀ m : Machine) (rs : List (ℕ × ℕ)) : Prop :=
  m.pgdir = none ∧ ∃ live reserved frameOf, rs.Perm (live.map heapRange) ∧
    Lent m₀ m live reserved frameOf

namespace KernelOwns

variable {m₀ m m' : Machine} {rs rs' : List (ℕ × ℕ)} {descs n a : ℕ} {uBlockDesc : ℕ → ℕ}

theorem perm (h : KernelOwns m₀ m rs) (hp : rs.Perm rs') : KernelOwns m₀ m rs' := by
  obtain ⟨hpg, live, reserved, frameOf, hperm, hlent⟩ := h
  exact ⟨hpg, live, reserved, frameOf, hp.symm.trans hperm, hlent⟩

theorem kernelThread (h : KernelOwns m₀ m rs) : m.pgdir.isNone = true :=
  congrArg Option.isNone h.1

theorem lowest (h : KernelOwns m₀ m rs) : ∀ r ∈ rs, 0xc0100000 ≤ r.1 := by
  obtain ⟨-, live, reserved, frameOf, hperm, -⟩ := h
  intro r hrs
  obtain ⟨r', -, rfl⟩ := List.mem_map.mp (hperm.mem_iff.mp hrs)
  exact Nat.le_add_right ..

theorem malloc (h : KernelOwns m₀ m rs) (hr : m₀.PoolsReady) (hdescs : descs + 168 ≤ 0xc0100000)
    (hret : Returns (mallocPage .kernel n) m (some a) m') :
    KernelOwns m₀ m' ((a, n) :: rs) ∧ a % 4096 = 0 ∧ 0 < a ∧ a + n * 4096 ≤ 2 ^ 32 ∧
      (descs + 168 ≤ a ∨ a + n * 4096 ≤ descs) ∧
      ∀ r ∈ rs, a + n * 4096 ≤ r.1 ∨ r.1 + r.2 * 4096 ≤ a := by
  obtain ⟨hpg, live, reserved, frameOf, hperm, hlent⟩ := h
  obtain ⟨s, reserved', frameOf', rfl, hend, hlent'⟩ := hlent.mallocPage hr hret
  have hlow : 0xc0100000 ≤ heapPage s := Nat.le_add_right ..
  refine ⟨⟨(pgdir_mallocPage .kernel n m _ m' hret).trans hpg, (s, n) :: live, reserved',
    frameOf', hperm.cons _, hlent'⟩, heapPage_mod s, by omega, ?_, by omega, ?_⟩
  · rw [heapPage, pgSize]
    omega
  · intro r hrs
    obtain ⟨r', hr', rfl⟩ := List.mem_map.mp (hperm.mem_iff.mp hrs)
    exact heapRange_apart (r := (s, n)) ((List.pairwise_cons.mp hlent'.apart).1 r' hr')

theorem malloc_none (h : KernelOwns m₀ m rs) (hr : m₀.PoolsReady)
    (hret : Returns (mallocPage .kernel n) m none m') : KernelOwns m₀ m' rs := by
  obtain ⟨hpg, live, reserved, frameOf, hperm, hlent⟩ := h
  obtain ⟨reserved', frameOf', hlent'⟩ := hlent.mallocPage_none hr hret
  exact ⟨(pgdir_mallocPage .kernel n m _ m' hret).trans hpg, live, reserved', frameOf', hperm,
    hlent'⟩

theorem free (h : KernelOwns m₀ m ((a, n) :: rs)) (hr : m₀.PoolsReady) :
    ∃ m', Returns (mfreePage .kernel a n) m () m' ∧ KernelOwns m₀ m' rs := by
  obtain ⟨hpg, live, reserved, frameOf, hperm, hlent⟩ := h
  obtain ⟨⟨s, k⟩, hmem, heq⟩ := List.mem_map.mp (hperm.mem_iff.mp List.mem_cons_self)
  obtain ⟨rfl, rfl⟩ := Prod.mk.inj heq
  obtain ⟨m', reserved', frameOf', hret, hlent'⟩ := hlent.mfreePage hr hmem
  refine ⟨m', hret, (pgdir_mfreePage .kernel _ k m _ m' hret).trans hpg, _, reserved', frameOf',
    ?_, hlent'⟩
  have hcons := hperm.trans ((List.perm_cons_erase hmem).map heapRange)
  exact hcons.cons_inv

end KernelOwns

/-- The pages of the kernel are what the heap relies on, when its descriptors stand in front of
them. -/
def kernelSpec {m₀ : Machine} (hr : m₀.PoolsReady) (uBlockDesc : ℕ → ℕ) (running : ℕ) {descs : ℕ}
    (hdescs : descs + 168 ≤ 0xc0100000) :
    PageSpec (kernelPages descs uBlockDesc) .kernel running descs where
  Owns := KernelOwns m₀
  perm h hp := h.perm hp
  flag h := if_pos h.kernelThread
  table h := if_pos h.kernelThread
  lowest h _ := h.lowest
  malloc h _ hret := h.malloc hr hdescs hret
  mallocNone h _ hret := h.malloc_none hr hret
  free h := h.free hr

/-! ## From the heap to physical memory -/

section Physical

variable {allMem descs running : ℕ} {uBlockDesc : ℕ → ℕ} {boot m₀ : Machine}
  {s : HeapSys Machine} {live : List (ℕ × ℕ)}

/-- Each byte of a block is mapped to a frame of the kernel pool that is taken, and no two of them to
the same physical address. -/
def BlocksMapped (m : Machine) (live : List (ℕ × ℕ)) : Prop :=
  (∀ i, Covers live i → ∃ k < 8 * m.kernelPool.poolBitmap.btmpBytesLen,
    m.kernelPool.poolBitmap.bit k = true ∧
      m.walk i = some (m.kernelPool.frameAddr k + i % 4096)) ∧
    ∀ i j, Covers live i → Covers live j → m.walk i = m.walk j → i = j

/-- The blocks that a thread of the kernel holds are mapped, in every state it comes to. -/
theorem kernelHeap_mapped (hinit : Returns (memPoolInit allMem) boot () m₀)
    (hdescs : descs + 168 ≤ 0xc0100000)
    (h : HeapReachable (kernelSpec (memPoolInit_ready hinit) uBlockDesc running hdescs) s live) :
    BlocksMapped s.mem live := by
  have hr := memPoolInit_ready hinit
  obtain ⟨-, rs, ⟨-, pages, reserved, frameOf, hperm, hlent⟩, -, hplace, -⟩ := heapRun_sound h
  have hinv := hlent.inv
  have hframe : ∀ k, s.mem.kernelPool.frameAddr k = m₀.kernelPool.frameAddr k := by
    intro k
    rw [Pool.frameAddr, Pool.frameAddr, hinv.poolStart]
  -- the page of a byte of a block, and its frame
  have hbyte : ∀ i, Covers live i → ∃ j k, i = heapPage j + i % 4096 ∧ frameOf j = some k ∧
      s.mem.walk i = some (m₀.kernelPool.frameAddr k + i % 4096) := by
    rintro i ⟨p, hp, h1, h2⟩
    obtain ⟨r, hrs, h3, h4⟩ := hplace p hp
    obtain ⟨⟨t, n⟩, hmem, rfl⟩ := List.mem_map.mp (hperm.mem_iff.mp hrs)
    rw [heapRange] at h3 h4
    dsimp only at h3 h4
    obtain ⟨j, hj⟩ : ∃ j, j = (i - 0xc0100000) / 4096 := ⟨_, rfl⟩
    have hpage : heapPage t = 0xc0100000 + t * 4096 := rfl
    have hi : i = heapPage j + i % 4096 := by
      rw [hj, heapPage, pgSize]
      omega
    have hcov : Covers pages j := ⟨(t, n), hmem, by
      dsimp only
      omega, by
      dsimp only
      omega⟩
    obtain ⟨k, hk⟩ := Option.isSome_iff_exists.mp (hlent.mapped j hcov)
    obtain ⟨-, -, hwalk⟩ := hinv.mapped j k hk
    refine ⟨j, k, hi, hk, ?_⟩
    have hadd : s.mem.walk (heapPage j + i % 4096) =
        (s.mem.walk (heapPage j)).map (· + i % 4096) :=
      walk_add (heapPage_mod j) (Nat.mod_lt _ (by decide))
    rw [← hi, hwalk, Option.map_some] at hadd
    exact hadd
  refine ⟨fun i hi ↦ ?_, fun i j hi hj heq ↦ ?_⟩
  · obtain ⟨j, k, -, hk, hwalk⟩ := hbyte i hi
    refine ⟨k, ?_, (hinv.poolBit k).mpr (.inl ⟨j, hk⟩), ?_⟩
    · rw [hinv.poolLen]
      exact (hinv.mapped j k hk).2.1
    · rw [hframe]
      exact hwalk
  · obtain ⟨p, k, hip, hk, hwi⟩ := hbyte i hi
    obtain ⟨q, l, hjq, hl, hwj⟩ := hbyte j hj
    rw [hwi, hwj, Option.some.injEq] at heq
    have hk4 := PageInv.frameAddr_mod hr k
    have hl4 := PageInv.frameAddr_mod hr l
    have hoff : i % 4096 = j % 4096 := by omega
    have hfr : m₀.kernelPool.frameAddr k = m₀.kernelPool.frameAddr l := by omega
    obtain rfl := PageInv.frameAddr_inj.mp hfr
    rw [hinv.inj p q k hk hl] at hip
    omega

/-! ### The first block of a machine of 32 MB -/

/-- Descriptors behind the code of the kernel. -/
theorem firstDescs_le : 0xc0010000 + 168 ≤ 0xc0100000 := by decide

/-- A thread of the kernel gets a block of 16 bytes. -/
theorem exists_firstBlock : ∃ (m₀ : Machine)
    (hinit : Returns (memPoolInit 0x2000000) Machine.loaded () m₀) (s : HeapSys Machine) (b : ℕ),
    HeapReachable (kernelSpec (memPoolInit_ready hinit) (fun _ ↦ 0) 0 firstDescs_le) s
      [(b, 16)] := by
  obtain ⟨m₀, hinit, hdir, hphys⟩ := loaded_init
  have hr := memPoolInit_ready hinit
  have hm₀ := returns_modify.mp hinit
  have hlen : 0 < m₀.kernelPool.poolBitmap.btmpBytesLen := by
    rw [hm₀]
    decide
  have hpg : m₀.pgdir = none := by
    rw [hm₀]
    rfl
  have hun : present (m₀.heapWord 0) = false := by
    rw [Machine.heapWord, hphys, Machine.loaded, le32_splice_of_disjoint (by decide)]
    rfl
  obtain ⟨m, hpage⟩ := mallocPage_first hr hdir hlen hun
  let s₀ : HeapSys Machine := ⟨m₀, blockDescInit (fun _ ↦ 0) 0xc0010000, fun _ ↦ ⟨none, 0⟩, 0⟩
  have hstart : HeapStart (kernelSpec hr (fun _ ↦ 0) 0 firstDescs_le) s₀ := by
    refine ⟨⟨hpg, [], ∅, fun _ ↦ none, List.Perm.refl _, PageInv.start hdir, ?_,
      List.Pairwise.nil, ?_⟩, rfl, rfl, by decide, by decide, _, rfl⟩
    · exact fun j hj ↦ absurd hj not_covers_nil
    · exact fun r hrs ↦ absurd hrs List.not_mem_nil
  have hsize : 0 < 16 ∧ 16 < (m₀.pool .kernel).poolSize := by
    rw [hm₀]
    decide
  have hpage' : Returns (mallocPage .kernel (pagesFor 16)) m₀ (some (heapPage 0)) m := hpage
  rcases hstart.ok.heapMalloc 16 with ⟨e, hstop, -⟩ | ⟨r, s, hret, -, hdone⟩
  · exact absurd hstop hpage'.ne_error
  · cases r with
    | some b => exact ⟨m₀, hinit, s, b, s₀, hstart, .single (.malloc hret)⟩
    | none =>
      rcases hdone.2 with hno | ⟨m', hnone⟩
      · exact absurd hsize hno
      · cases (hnone.unique hpage').1

theorem heapRun_sound_firstBlock : ∃ (m₀ : Machine) (hr : m₀.PoolsReady) (s : HeapSys Machine)
    (b : ℕ), BlocksSound (kernelSpec hr (fun _ ↦ 0) 0 firstDescs_le) s [(b, 16)] := by
  obtain ⟨m₀, hinit, s, b, h⟩ := exists_firstBlock
  exact ⟨m₀, memPoolInit_ready hinit, s, b, heapRun_sound h⟩

theorem heapRun_malloc_firstBlock : ∃ (s : HeapSys Machine) (b : ℕ),
    MallocSafe (kernelPages 0xc0010000 fun _ ↦ 0) .kernel s [(b, 16)] 2000 := by
  obtain ⟨m₀, hinit, s, b, h⟩ := exists_firstBlock
  exact ⟨s, b, heapRun_malloc h 2000⟩

theorem heapRun_free_firstBlock : ∃ (m₀ : Machine) (hr : m₀.PoolsReady) (s : HeapSys Machine)
    (b : ℕ), FreeSafe (kernelSpec hr (fun _ ↦ 0) 0 firstDescs_le) s [(b, 16)] (b, 16) := by
  obtain ⟨m₀, hinit, s, b, h⟩ := exists_firstBlock
  exact ⟨m₀, memPoolInit_ready hinit, s, b, heapRun_free h List.mem_cons_self⟩

theorem kernelHeap_mapped_firstBlock : ∃ (s : HeapSys Machine) (b : ℕ),
    BlocksMapped s.mem [(b, 16)] := by
  obtain ⟨m₀, hinit, s, b, h⟩ := exists_firstBlock
  exact ⟨s, b, kernelHeap_mapped hinit firstDescs_le h⟩

end Physical

end GlowOS
