import Mathlib
import GlowOS.Kernel.Heap
import GlowOS.Kernel.PageMap

/-!
# The locks of the pools

Five calls of `kernel/memory.c` hold the lock of a pool while they change it: `get_user_pages`,
`get_a_page`, `get_a_page_without_opvaddrbitmap`, `sys_malloc` and `sys_free`. Between the
`lock_acquire` and the `lock_release` of a call nothing touches the locks, so a call that reaches
its `lock_release` leaves them as they were.

`get_a_page` does not reach it when the pool has no frame: it returns `NULL` at once, and the lock
stays taken.
-/

namespace GlowOS

open Bytes Program

/-! ## The other calls -/

/-- The page level on its own, for given addresses of the descriptors. -/
def machinePages (kBlockDescs : ℕ) (uBlockDesc : ℕ → ℕ) : Pages Machine where
  mallocPage := mallocPage
  mfreePage := mfreePage
  poolSize m pf := (m.pool pf).poolSize
  kernelThread m := m.pgdir.isNone
  kBlockDescs := kBlockDescs
  uBlockDesc := uBlockDesc

/-- `get_user_pages`. -/
def getUserPages (pgCnt : ℕ) : HeapM Machine (Option ℕ) := do
  lockAcquire .user
  let vaddr ← onPages (mallocPage .user pgCnt)
  match vaddr with
  | some va => clear va (pgCnt * pgSize)
  | none => pure ()
  lockRelease .user
  pure vaddr

/-- The bit that `get_a_page` sets for an address. -/
def VirtualAddr.bitIdx (v : VirtualAddr) (va : ℕ) : ℕ :=
  (va + 2 ^ 32 - v.vaddrStart) % 2 ^ 32 / pgSize

/-- `get_a_page` may be called for this pool by the running thread. -/
def Machine.Owns (m : Machine) (pf : PoolFlags) : Prop := pf = .user ↔ m.pgdir.isSome

instance (m : Machine) (pf : PoolFlags) : Decidable (m.Owns pf) :=
  inferInstanceAs (Decidable (_ ↔ _))

/-- `get_a_page` up to the call of `palloc`: it sets the bit of the address. -/
def reserveAPage (pf : PoolFlags) (va : ℕ) : MemM PUnit := do
  let m ← get
  check Fault.assert (m.Owns pf)
  let bitIdx := (m.vaddr pf).bitIdx va
  check Fault.assert (0 < bitIdx)
  check Fault.bounds (bitIdx / 8 < (m.vaddr pf).vaddrBitmap.btmpBytesLen)
  modify fun m ↦ m.setVaddrBitmap ((m.vaddr pf).vaddrBitmap.set bitIdx true) pf

/-- `get_a_page`: `none` stands for `NULL`. -/
def getAPage (pf : PoolFlags) (va : ℕ) : HeapM Machine (Option ℕ) := do
  lockAcquire pf
  onPages (reserveAPage pf va)
  match ← onPages (palloc pf) with
  | none => pure none
  | some pa => do
    onPages (pageTableAdd va pa)
    lockRelease pf
    pure (some va)

/-- `get_a_page_without_opvaddrbitmap`. -/
def getAPageNoBitmap (pf : PoolFlags) (va : ℕ) : HeapM Machine (Option ℕ) := do
  lockAcquire pf
  match ← onPages (palloc pf) with
  | none => do
    lockRelease pf
    pure none
  | some pa => do
    onPages (pageTableAdd va pa)
    lockRelease pf
    pure (some va)

/-- The calls that take the lock of a pool. -/
inductive PoolCall
  | getUserPages (pgCnt : ℕ)
  | getAPage (pf : PoolFlags) (va : ℕ)
  | getAPageNoBitmap (pf : PoolFlags) (va : ℕ)
  | sysMalloc (size : ℕ)
  | sysFree (ptr : ℕ)

/-- Run a call and forget what it returns. -/
def PoolCall.run (P : Pages Machine) : PoolCall → HeapM Machine PUnit
  | .getUserPages n => do let _ ← GlowOS.getUserPages n
  | .getAPage pf va => do let _ ← GlowOS.getAPage pf va
  | .getAPageNoBitmap pf va => do let _ ← GlowOS.getAPageNoBitmap pf va
  | .sysMalloc size => do let _ ← heapMalloc P size
  | .sysFree ptr => heapFree P ptr

/-! ## What leaves the locks alone -/

section Frames

variable {μ α β : Type} {s s' : HeapSys μ} {pf : PoolFlags}

/-- The locks and the running thread are the same. -/
def SameLocks (s s' : HeapSys μ) : Prop := s'.lock = s.lock ∧ s'.running = s.running

instance : Std.Refl (SameLocks (μ := μ)) := ⟨fun _ ↦ ⟨rfl, rfl⟩⟩

instance : IsTrans (HeapSys μ) SameLocks :=
  ⟨fun _ _ _ h h' ↦ ⟨h'.1.trans h.1, h'.2.trans h.2⟩⟩

@[simp] theorem returns_onPages {p : StateT μ (Except Fault) α} {a : α} :
    Returns (onPages p) s a s' ↔ ∃ m, Returns p s.mem a m ∧ s' = { s with mem := m } := by
  rw [onPages, returns_get_bind]
  cases hp : p s.mem with
  | error e =>
    refine ⟨fun h ↦ absurd h returns_throw, ?_⟩
    rintro ⟨m, h, -⟩
    exact absurd (hp.symm.trans h) (by simp)
  | ok r =>
    obtain ⟨b, t⟩ := r
    dsimp only
    rw [returns_modify_bind, returns_pure]
    refine ⟨?_, ?_⟩
    · rintro ⟨rfl, rfl⟩
      exact ⟨t, hp, rfl⟩
    · rintro ⟨m, h, rfl⟩
      obtain ⟨rfl, rfl⟩ := Prod.mk.inj (Except.ok.inj (hp.symm.trans h))
      exact ⟨rfl, rfl⟩

theorem within_onPages (p : StateT μ (Except Fault) α) : Within SameLocks (onPages p) := by
  intro s a s' h
  obtain ⟨m, -, rfl⟩ := returns_onPages.mp h
  exact ⟨rfl, rfl⟩

theorem within_loadWord (a : ℕ) : Within (SameLocks (μ := μ)) (loadWord a) :=
  Within.get.bind fun _ ↦ Within.pure _

theorem within_storeWord (a w : ℕ) : Within (SameLocks (μ := μ)) (storeWord a w) :=
  Within.modify fun _ ↦ ⟨rfl, rfl⟩

theorem within_storeLarge (a : ℕ) (b : Bool) : Within (SameLocks (μ := μ)) (storeLarge a b) :=
  Within.modify fun _ ↦ ⟨rfl, rfl⟩

theorem within_clear (a n : ℕ) : Within (SameLocks (μ := μ)) (clear a n) :=
  (Within.check _ _).bind fun _ ↦ Within.modify fun _ ↦ ⟨rfl, rfl⟩

theorem within_listAppend (plist elem : ℕ) : Within (SameLocks (μ := μ)) (listAppend plist elem) :=
  (within_storeWord _ _).bind fun _ ↦ (within_loadWord _).bind fun _ ↦
    (within_storeWord _ _).bind fun _ ↦ (within_loadWord _).bind fun _ ↦
      (within_storeWord _ _).bind fun _ ↦ within_storeWord _ _

theorem within_listRemove (elem : ℕ) : Within (SameLocks (μ := μ)) (listRemove elem) :=
  (within_loadWord _).bind fun _ ↦ (within_loadWord _).bind fun _ ↦
    (within_storeWord _ _).bind fun _ ↦ (within_loadWord _).bind fun _ ↦
      (within_loadWord _).bind fun _ ↦ within_storeWord _ _

theorem within_listEmpty (plist : ℕ) : Within (SameLocks (μ := μ)) (listEmpty plist) :=
  (within_loadWord _).bind fun _ ↦ Within.pure _

theorem within_listPop (plist : ℕ) : Within (SameLocks (μ := μ)) (listPop plist) :=
  (within_loadWord _).bind fun _ ↦ (Within.check _ _).bind fun _ ↦
    (within_listRemove _).bind fun _ ↦ Within.pure _

theorem within_elemFindFrom (plist obj fuel ptr : ℕ) :
    Within (SameLocks (μ := μ)) (elemFindFrom plist obj fuel ptr) := by
  induction fuel generalizing ptr with
  | zero => exact Within.throw _
  | succ fuel ih =>
    exact Within.ite (Within.pure _)
      (Within.ite (Within.pure _) ((within_loadWord _).bind fun next ↦ ih next))

theorem within_elemFind (plist obj : ℕ) : Within (SameLocks (μ := μ)) (elemFind plist obj) :=
  (within_loadWord _).bind fun _ ↦ within_elemFindFrom _ _ _ _

theorem within_findDesc (descs size left i : ℕ) :
    Within (SameLocks (μ := μ)) (findDesc descs size left i) := by
  induction left generalizing i with
  | zero => exact Within.pure _
  | succ left ih => exact (within_loadWord _).bind fun _ ↦ Within.ite (Within.pure _) (ih _)

theorem within_splitArena (a left i : ℕ) : Within (SameLocks (μ := μ)) (splitArena a left i) := by
  induction left generalizing i with
  | zero => exact Within.pure _
  | succ left ih =>
    exact (within_loadWord _).bind fun _ ↦ (within_loadWord _).bind fun _ ↦
      (within_elemFind _ _).bind fun _ ↦ (Within.check _ _).bind fun _ ↦
        (within_listAppend _ _).bind fun _ ↦ ih _

theorem within_unlinkArena (a left i : ℕ) : Within (SameLocks (μ := μ)) (unlinkArena a left i) := by
  induction left generalizing i with
  | zero => exact Within.pure _
  | succ left ih =>
    exact (within_loadWord _).bind fun _ ↦ (within_loadWord _).bind fun _ ↦
      (within_elemFind _ _).bind fun _ ↦ (Within.check _ _).bind fun _ ↦
        (within_listRemove _).bind fun _ ↦ ih _

theorem within_sysFreeSmall (P : Pages μ) (pf : PoolFlags) (a b : ℕ) :
    Within SameLocks (sysFreeSmall P pf a b) :=
  (within_loadWord _).bind fun _ ↦ (within_listAppend _ _).bind fun _ ↦
    (within_loadWord _).bind fun _ ↦ (within_storeWord _ _).bind fun _ ↦
      (within_loadWord _).bind fun _ ↦
        Within.ite ((within_unlinkArena _ _ _).bind fun _ ↦ within_onPages _) (Within.pure _)

theorem within_sysFreeLocked (P : Pages μ) (pf : PoolFlags) (ptr : ℕ) :
    Within SameLocks (sysFreeLocked P pf ptr) :=
  Within.get.bind fun _ ↦ (Within.check _ _).bind fun _ ↦ (within_loadWord _).bind fun _ ↦
    Within.ite ((within_loadWord _).bind fun _ ↦ within_onPages _) (within_sysFreeSmall P _ _ _)

end Frames

/-! ## Taking and releasing a lock -/

section Locks

variable {μ α : Type} {s s' : HeapSys μ} {pf : PoolFlags}

/-- A lock that has a holder has been taken at least once, and the count has 32 bits. -/
def HeapSys.Counted (s : HeapSys μ) : Prop :=
  ∀ pf, (s.lock pf).holder ≠ none →
    0 < (s.lock pf).holderRepeatNr ∧ (s.lock pf).holderRepeatNr < 2 ^ 32

/-- `lock_acquire` returns for the running thread. -/
def HeapSys.Free (s : HeapSys μ) (pf : PoolFlags) : Prop :=
  (s.lock pf).holder = some s.running ∨
    (s.lock pf).holder = none ∧ (s.lock pf).holderRepeatNr = 0

/-- A lock after `lock_acquire`. -/
def PoolLock.acquired (l : PoolLock) (t : ℕ) : PoolLock :=
  if l.holder = some t then ⟨l.holder, (l.holderRepeatNr + 1) % 2 ^ 32⟩ else ⟨some t, 1⟩

/-- The lock of `pf` is taken once more, and nothing else is changed about the locks. -/
def LockAcquired (pf : PoolFlags) (s s' : HeapSys μ) : Prop :=
  s.Free pf ∧ s'.running = s.running ∧
    s'.lock = Function.update s.lock pf ((s.lock pf).acquired s.running)

/-- The lock of `pf` is released once. -/
def LockReleased (pf : PoolFlags) (s s' : HeapSys μ) : Prop :=
  s'.running = s.running ∧ (s.lock pf).holder = some s.running ∧
    (1 < (s.lock pf).holderRepeatNr ∧
        s'.lock = Function.update s.lock pf
          ⟨(s.lock pf).holder, (s.lock pf).holderRepeatNr - 1⟩ ∨
      (s.lock pf).holderRepeatNr = 1 ∧ s'.lock = Function.update s.lock pf ⟨none, 0⟩)

theorem returns_lockAcquire :
    Returns (lockAcquire pf) s () s' ↔
      s.Free pf ∧ s' = s.setLock pf ((s.lock pf).acquired s.running) := by
  rw [lockAcquire, returns_get_bind, returns_ite, HeapSys.Free, PoolLock.acquired]
  by_cases hh : (s.lock pf).holder = some s.running
  · simp [hh]
  · simp [hh, and_assoc]

theorem within_lockAcquire : Within (LockAcquired (μ := μ) pf) (lockAcquire pf) := by
  rintro s u s' h
  obtain ⟨hf, rfl⟩ := returns_lockAcquire.mp h
  exact ⟨hf, rfl, rfl⟩

theorem within_lockRelease : Within (LockReleased (μ := μ) pf) (lockRelease pf) := by
  rintro s u s' h
  rw [lockRelease, returns_get_bind, returns_check_bind, returns_ite] at h
  obtain ⟨hh, ⟨hn, h⟩ | ⟨hn, h⟩⟩ := h
  · obtain rfl := returns_modify.mp h
    exact ⟨rfl, hh, .inl ⟨hn, rfl⟩⟩
  · obtain ⟨h1, h⟩ := returns_check_bind.mp h
    obtain rfl := returns_modify.mp h
    exact ⟨rfl, hh, .inr ⟨h1, rfl⟩⟩

/-- A program that ends with `lock_release`. -/
theorem LockReleased.after {m : HeapM μ α} {β : Type} {f : α → HeapM μ β} (hm : Within SameLocks m)
    (hf : ∀ a, Within (LockReleased pf) (f a)) : Within (LockReleased pf) (m >>= f) := by
  refine Within.comp ?_ hm hf
  rintro s t s' ⟨hl, hr⟩ ⟨hr', h⟩
  rw [hl, hr] at h
  exact ⟨hr'.trans hr, h⟩

/-- What follows `lock_release` does not touch the locks. -/
theorem LockReleased.before {m : HeapM μ α} {β : Type} {f : α → HeapM μ β}
    (hm : Within (LockReleased pf) m) (hf : ∀ a, Within SameLocks (f a)) :
    Within (LockReleased pf) (m >>= f) := by
  refine Within.comp ?_ hm hf
  rintro s t s' ⟨hr, hh, h⟩ ⟨hl, hr'⟩
  rw [← hl] at h
  exact ⟨hr'.trans hr, hh, h⟩

theorem released_pure (a : α) :
    Within (LockReleased (μ := μ) pf) (do lockRelease pf; pure a) :=
  LockReleased.before within_lockRelease fun _ ↦ Within.pure a

/-- A lock that is taken and then released is as before. -/
theorem LockAcquired.released {t : HeapSys μ} (hc : s.Counted) (ha : LockAcquired pf s t)
    (hr : LockReleased pf t s') : s'.lock = s.lock := by
  obtain ⟨hfree, hrun, hl⟩ := ha
  obtain ⟨-, -, h⟩ := hr
  rw [hl, Function.update_self, Function.update_idem, Function.update_idem,
    PoolLock.acquired] at h
  have hself := Function.update_eq_self pf s.lock
  obtain hh | ⟨hh, hz⟩ := hfree
  · have hnr := hc pf (by simp [hh])
    rw [if_pos hh] at h
    obtain ⟨hn, h⟩ | ⟨hn, h⟩ := h
    · change 1 < ((s.lock pf).holderRepeatNr + 1) % 2 ^ 32 at hn
      have hl : (⟨(s.lock pf).holder, ((s.lock pf).holderRepeatNr + 1) % 2 ^ 32 - 1⟩ : PoolLock) =
          s.lock pf := PoolLock.ext rfl (by change _ % _ - 1 = _; omega)
      exact h.trans ((congrArg _ hl).trans hself)
    · change ((s.lock pf).holderRepeatNr + 1) % 2 ^ 32 = 1 at hn
      omega
  · rw [if_neg (by simp [hh])] at h
    obtain ⟨hn, -⟩ | ⟨-, h⟩ := h
    · exact absurd hn (by simp)
    · have hl : (⟨none, 0⟩ : PoolLock) = s.lock pf := PoolLock.ext hh.symm hz.symm
      rw [h, hl, hself]

/-- A lock that was only taken has changed. -/
theorem LockAcquired.lock_ne (ha : LockAcquired pf s s') : s'.lock ≠ s.lock := by
  obtain ⟨hfree, -, hl⟩ := ha
  intro h
  have hpf := congrFun (hl.symm.trans h) pf
  rw [Function.update_self, PoolLock.acquired] at hpf
  split_ifs at hpf with hh
  · have := congrArg PoolLock.holderRepeatNr hpf
    change (_ + 1) % 2 ^ 32 = _ at this
    omega
  · exact hh (congrArg PoolLock.holder hpf).symm

end Locks

/-! ## The calls -/

section Calls

variable {s s' : HeapSys Machine} {pf : PoolFlags} (P : Pages Machine)

theorem released_sysMallocLarge (pf : PoolFlags) (size : ℕ) :
    Within (LockReleased pf) (sysMallocLarge P pf size) := by
  refine LockReleased.after (within_onPages _) fun r ↦ ?_
  cases r with
  | none => exact released_pure none
  | some a =>
    exact LockReleased.after (within_clear _ _) fun _ ↦ LockReleased.after (within_storeWord _ _) fun _ ↦
      LockReleased.after (within_storeWord _ _) fun _ ↦ LockReleased.after (within_storeLarge _ _) fun _ ↦
        released_pure _

theorem released_sysMallocPop (pf : PoolFlags) (desc : ℕ) :
    Within (LockReleased (μ := Machine) pf) (sysMallocPop pf desc) :=
  LockReleased.after (within_listPop _) fun _ ↦ LockReleased.after (within_loadWord _) fun _ ↦
    LockReleased.after (within_clear _ _) fun _ ↦ LockReleased.after (within_loadWord _) fun _ ↦
      LockReleased.after (within_storeWord _ _) fun _ ↦ released_pure _

theorem released_sysMallocSmall (pf : PoolFlags) (descs size : ℕ) :
    Within (LockReleased pf) (sysMallocSmall P pf descs size) := by
  refine LockReleased.after (within_findDesc _ _ _ _) fun i ↦ ?_
  refine LockReleased.after (within_listEmpty _) fun empty ↦ ?_
  refine Within.ite ?_ (released_sysMallocPop pf _)
  refine LockReleased.after (within_onPages _) fun r ↦ ?_
  cases r with
  | none => exact released_pure none
  | some a =>
    exact LockReleased.after (within_clear _ _) fun _ ↦ LockReleased.after (within_storeWord _ _) fun _ ↦
      LockReleased.after (within_storeLarge _ _) fun _ ↦ LockReleased.after (within_loadWord _) fun _ ↦
        LockReleased.after (within_storeWord _ _) fun _ ↦
          LockReleased.after (within_splitArena _ _ _) fun _ ↦ released_sysMallocPop pf _

theorem released_mapped (pf : PoolFlags) (va pa : ℕ) :
    Within (LockReleased pf) (do
      onPages (pageTableAdd va pa)
      lockRelease pf
      pure (some va)) :=
  LockReleased.after (within_onPages _) fun _ ↦ released_pure _

/-- What holds of the locks after a call that holds the lock of `pf` while it runs. -/
theorem lock_eq_of_holds {α : Type} {f : PUnit → HeapM Machine α} {a : α} (hc : s.Counted)
    (hf : ∀ u, Within (LockReleased pf) (f u)) (h : Returns (lockAcquire pf >>= f) s a s') :
    s'.lock = s.lock := by
  obtain ⟨u, t, h₁, h₂⟩ := returns_bind.mp h
  exact (within_lockAcquire s u t h₁).released hc (hf u t a s' h₂)

theorem lock_getUserPages {n : ℕ} {a : Option ℕ} (hc : s.Counted)
    (h : Returns (getUserPages n) s a s') : s'.lock = s.lock := by
  refine lock_eq_of_holds hc (fun u ↦ ?_) h
  refine LockReleased.after (within_onPages _) fun r ↦ ?_
  cases r with
  | none => exact released_pure none
  | some va => exact LockReleased.after (within_clear _ _) fun _ ↦ released_pure _

theorem lock_getAPageNoBitmap {va : ℕ} {a : Option ℕ} (hc : s.Counted)
    (h : Returns (getAPageNoBitmap pf va) s a s') : s'.lock = s.lock := by
  refine lock_eq_of_holds hc (fun u ↦ ?_) h
  refine LockReleased.after (within_onPages _) fun r ↦ ?_
  cases r with
  | none => exact released_pure none
  | some pa => exact released_mapped pf va pa

theorem lock_heapMalloc {size : ℕ} {a : Option ℕ} (hc : s.Counted)
    (h : Returns (heapMalloc P size) s a s') : s'.lock = s.lock := by
  rw [heapMalloc, returns_get_bind, returns_ite] at h
  obtain ⟨-, h⟩ | ⟨-, h⟩ := h
  · obtain ⟨-, rfl⟩ := returns_pure.mp h
    rfl
  · exact lock_eq_of_holds hc
      (fun u ↦ Within.ite (released_sysMallocLarge P _ _) (released_sysMallocSmall P _ _ _)) h

theorem lock_heapFree {ptr : ℕ} (hc : s.Counted) (h : Returns (heapFree P ptr) s () s') :
    s'.lock = s.lock := by
  rw [heapFree, returns_check_bind, returns_get_bind, returns_check_bind] at h
  exact lock_eq_of_holds hc
    (fun u ↦ LockReleased.after (within_sysFreeLocked P _ _) fun u ↦ within_lockRelease) h.2.2

/-- `get_a_page` goes on to `palloc`: the lock is free, the pool is that of the running thread, and
the address has a bit in the bitmap behind the first one. -/
def HeapSys.Admits (s : HeapSys Machine) (pf : PoolFlags) (va : ℕ) : Prop :=
  s.Free pf ∧ s.mem.Owns pf ∧ 0 < (s.mem.vaddr pf).bitIdx va ∧
    (s.mem.vaddr pf).bitIdx va / 8 < (s.mem.vaddr pf).vaddrBitmap.btmpBytesLen

theorem returns_reserveAPage {m m' : Machine} {va : ℕ} :
    Returns (reserveAPage pf va) m () m' ↔
      (m.Owns pf ∧ 0 < (m.vaddr pf).bitIdx va ∧
        (m.vaddr pf).bitIdx va / 8 < (m.vaddr pf).vaddrBitmap.btmpBytesLen) ∧
      m' = m.setVaddrBitmap
        ((m.vaddr pf).vaddrBitmap.set ((m.vaddr pf).bitIdx va) true) pf := by
  rw [reserveAPage, returns_get_bind, returns_check_bind, returns_check_bind, returns_check_bind,
    returns_modify, and_assoc, and_assoc]

theorem pool_setVaddrBitmap (m : Machine) (b : Bitmap) (pf pf' : PoolFlags) :
    (m.setVaddrBitmap b pf').pool pf = m.pool pf := by
  cases pf' <;> cases pf <;> rfl

theorem palloc_ne_none {m m' : Machine} (h : (m.pool pf).poolBitmap.scan 1 ≠ none) :
    ¬Returns (palloc pf) m none m' := by
  intro hr
  obtain ⟨i, hi⟩ := Option.ne_none_iff_exists'.mp h
  cases (hr.unique (returns_palloc pf hi)).1

/-- `get_a_page` leaves the locks alone if the pool has a frame. -/
theorem lock_getAPage {va : ℕ} {a : Option ℕ} (hc : s.Counted)
    (hp : s.Admits pf va → (s.mem.pool pf).poolBitmap.scan 1 ≠ none)
    (h : Returns (getAPage pf va) s a s') : s'.lock = s.lock := by
  obtain ⟨u, s₁, h₁, h⟩ := returns_bind.mp h
  obtain ⟨v, s₂, h₂, h⟩ := returns_bind.mp h
  obtain ⟨r, s₃, h₃, h⟩ := returns_bind.mp h
  have hacq := within_lockAcquire s u s₁ h₁
  obtain ⟨hfree, rfl⟩ := returns_lockAcquire.mp h₁
  obtain ⟨m₂, hm₂, rfl⟩ := returns_onPages.mp h₂
  obtain ⟨m₃, hm₃, rfl⟩ := returns_onPages.mp h₃
  obtain ⟨hadm, rfl⟩ := returns_reserveAPage.mp hm₂
  cases r with
  | none =>
    refine absurd hm₃ (palloc_ne_none ?_)
    rw [pool_setVaddrBitmap]
    exact hp ⟨hfree, hadm⟩
  | some pa =>
    have hrel : LockReleased pf _ s' := released_mapped pf va pa _ _ _ h
    exact hacq.released hc hrel

/-- `get_a_page` with no frame left keeps the lock. -/
theorem getAPage_exhausted {va : ℕ} (ha : s.Admits pf va)
    (hp : (s.mem.pool pf).poolBitmap.scan 1 = none) :
    ∃ s', Returns (getAPage pf va) s none s' ∧ LockAcquired pf s s' := by
  obtain ⟨hfree, hadm⟩ := ha
  let s₁ := s.setLock pf ((s.lock pf).acquired s.running)
  let m := s.mem.setVaddrBitmap
    ((s.mem.vaddr pf).vaddrBitmap.set ((s.mem.vaddr pf).bitIdx va) true) pf
  have hacq : Returns (lockAcquire pf) s () s₁ := returns_lockAcquire.mpr ⟨hfree, rfl⟩
  have hres : Returns (onPages (reserveAPage pf va)) s₁ () { s₁ with mem := m } :=
    returns_onPages.mpr ⟨m, returns_reserveAPage.mpr ⟨hadm, rfl⟩, rfl⟩
  have hnone : (m.pool pf).poolBitmap.scan 1 = none := by rwa [pool_setVaddrBitmap]
  have hpal : Returns (onPages (palloc pf)) { s₁ with mem := m } none { s₁ with mem := m } :=
    returns_onPages.mpr ⟨m, returns_palloc_none pf hnone, rfl⟩
  exact ⟨_, returns_bind.mpr ⟨(), s₁, hacq, returns_bind.mpr ⟨(), _, hres, returns_bind.mpr
    ⟨none, _, hpal, returns_pure.mpr ⟨rfl, rfl⟩⟩⟩⟩, hfree, rfl, rfl⟩

end Calls

/-! ## Balance -/

/-- On every path on which the call returns, the two locks are what they were on entry. -/
def Balanced (P : Pages Machine) (call : PoolCall) (s : HeapSys Machine) : Prop :=
  ∀ s', Returns (call.run P) s () s' → s'.lock = s.lock

/-- The call is `get_a_page`, and it finds no frame. -/
def OutOfFrames (s : HeapSys Machine) : PoolCall → Prop
  | .getAPage pf va => s.Admits pf va ∧ (s.mem.pool pf).poolBitmap.scan 1 = none
  | _ => False

/-- The calls leave the locks as they were, except for `get_a_page` when it finds no frame. -/
theorem balanced_iff (P : Pages Machine) (call : PoolCall) {s : HeapSys Machine}
    (hc : s.Counted) : Balanced P call s ↔ ¬OutOfFrames s call := by
  cases call with
  | getUserPages n =>
    refine iff_of_true (fun s' h ↦ ?_) not_false
    obtain ⟨a, t, h, h'⟩ := returns_bind.mp h
    obtain ⟨-, rfl⟩ := returns_pure.mp h'
    exact lock_getUserPages hc h
  | getAPage pf va =>
    refine ⟨?_, fun hp s' h ↦ ?_⟩
    · rintro hb ⟨ha, hp⟩
      obtain ⟨s', h, hacq⟩ := getAPage_exhausted ha hp
      exact hacq.lock_ne (hb s' (returns_bind.mpr ⟨none, s', h, returns_pure.mpr ⟨rfl, rfl⟩⟩))
    · obtain ⟨a, t, h, h'⟩ := returns_bind.mp h
      obtain ⟨-, rfl⟩ := returns_pure.mp h'
      exact lock_getAPage hc (fun ha hnone ↦ hp ⟨ha, hnone⟩) h
  | getAPageNoBitmap pf va =>
    refine iff_of_true (fun s' h ↦ ?_) not_false
    obtain ⟨a, t, h, h'⟩ := returns_bind.mp h
    obtain ⟨-, rfl⟩ := returns_pure.mp h'
    exact lock_getAPageNoBitmap hc h
  | sysMalloc size =>
    refine iff_of_true (fun s' h ↦ ?_) not_false
    obtain ⟨a, t, h, h'⟩ := returns_bind.mp h
    obtain ⟨-, rfl⟩ := returns_pure.mp h'
    exact lock_heapMalloc P hc h
  | sysFree ptr => exact iff_of_true (fun s' h ↦ lock_heapFree P hc h) not_false

/-! ## A process without memory -/

/-- A process of the pools of which no frame is left; the locks are free. -/
def fullPools : HeapSys Machine where
  mem :=
    { phys := fun _ ↦ 0
      cr3 := 0x100000
      kernelPool := ⟨⟨1, fun _ ↦ 0xff⟩, 0x200000, 0x8000⟩
      userPool := ⟨⟨1, fun _ ↦ 0xff⟩, 0x208000, 0x8000⟩
      kernelVaddr := ⟨⟨1, fun _ ↦ 0xff⟩, 0xc0100000⟩
      pgdir := some 0xc0101000
      userprogVaddr := ⟨⟨1, fun _ ↦ 0⟩, 0x8048000⟩ }
  vm := fun _ ↦ 0
  lock := fun _ ↦ ⟨none, 0⟩
  running := 0xc009e000

theorem fullPools_counted : fullPools.Counted := fun _ h ↦ absurd rfl h

theorem fullPools_admits : fullPools.Admits .user 0x8049000 :=
  ⟨.inr ⟨rfl, rfl⟩, by decide, by decide, by decide⟩

theorem fullPools_exhausted : (fullPools.mem.pool .user).poolBitmap.scan 1 = none := by decide

/-- The pages of a kernel with its descriptors at the start of the data segment. -/
def fullPages : Pages Machine := machinePages 0xc000a000 fun t ↦ t + 0x100

/-- `get_a_page` for the second page of that process keeps the lock; `sys_malloc` fails and releases
it. -/
theorem balanced_iff_fullPools :
    ¬Balanced fullPages (.getAPage .user 0x8049000) fullPools ∧
      Balanced fullPages (.sysMalloc 64) fullPools :=
  ⟨fun h ↦ (balanced_iff fullPages _ fullPools_counted).mp h
      ⟨fullPools_admits, fullPools_exhausted⟩,
    (balanced_iff fullPages _ fullPools_counted).mpr not_false⟩

theorem not_forall_balanced :
    ¬∀ (P : Pages Machine) (call : PoolCall) (s : HeapSys Machine), s.Counted →
      Balanced P call s := by
  intro h
  obtain ⟨s', hret, hacq⟩ := getAPage_exhausted fullPools_admits fullPools_exhausted
  exact hacq.lock_ne (h fullPages (.getAPage .user 0x8049000) fullPools fullPools_counted s'
    (returns_bind.mpr ⟨none, s', hret, returns_pure.mpr ⟨rfl, rfl⟩⟩))

end GlowOS
