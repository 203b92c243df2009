import Mathlib
import GlowOS.Kernel.PageAlloc
import GlowOS.Lib.Interleave
import GlowOS.Thread.State

/-!
# Allocating pages under preemption

`palloc` and `vaddr_get` look for free bits in a bitmap and set them afterwards. A thread may lose
the processor in between, and most callers hold the lock of a pool meanwhile, but not all of them:
`get_kernel_pages` takes no lock, and the frame for a page table comes from `kernel_pool` whatever
lock the caller holds. If no thread sets a bit of a bitmap that another one is looking at, nothing
is handed out twice.

Which pool a call is for, whether the table for an address is present, and whether `sys_malloc`
needs new pages, is left open: a call has it as a parameter. The programs are those of
`Interleave`, one statement at a time. A thread whose assertion fails goes no further.
-/

namespace GlowOS.Preemption

open Interleave Interleave.Prog Relation

/-! ## Data -/

/-- The bitmaps of the pools, of `kernel_vaddr`, and of `userprog_vaddr` of each thread. -/
inductive Btmp
  | pool (pf : PoolFlags)
  | kernelVaddr
  | userVaddr (t : ℕ)
  deriving DecidableEq

/-- The bitmaps and the locks of the pools. The other fields are ghosts: how often a frame or a page
was handed out since it was freed, the threads between the start of a search and the last bit that
they set for it, and who set a bit last. -/
structure Mem where
  btmp : Btmp → Bitmap
  lock : PoolFlags → Thread.Lock
  given : Btmp → ℕ → ℕ
  searching : Btmp → Finset ℕ
  sets : ℕ
  target : Btmp
  setter : ℕ

/-- Programs over the memory. -/
abbrev MemProg := Prog Mem

/-- `ASSERT`. -/
def ASSERT (p : Mem → Prop) [DecidablePred p] : MemProg PUnit :=
  stmt fun s ↦ if p s then some (PUnit.unit, s) else none

/-! ## Locks -/

/-- Assign the fields of a lock. -/
def modifyLock (pf : PoolFlags) (f : Thread.Lock → Thread.Lock) : MemProg PUnit :=
  assign fun s ↦ { s with lock := Function.update s.lock pf (f (s.lock pf)) }

/-- Give the semaphore of a lock the value `v`, which has the other one before. -/
def moveSema (pf : PoolFlags) (v : ℕ) : MemProg PUnit :=
  stmt fun s ↦
    if (s.lock pf).value = 1 - v then
      some (PUnit.unit, { s with lock := Function.update s.lock pf { s.lock pf with value := v } })
    else none

/-- `sema_down`, which waits while the semaphore is down. -/
def semaDown (pf : PoolFlags) : MemProg PUnit := moveSema pf 0

/-- `sema_up`. -/
def semaUp (pf : PoolFlags) : MemProg PUnit := moveSema pf 1

/-- `lock_acquire`. -/
def lockAcquire (t : ℕ) (pf : PoolFlags) : MemProg PUnit := do
  let holder ← look fun s ↦ (s.lock pf).holder
  if holder ≠ some t then
    semaDown pf
    modifyLock pf fun k ↦ { k with holder := some t }
    ASSERT fun s ↦ (s.lock pf).holderRepeatNr = 0
    modifyLock pf fun k ↦ { k with holderRepeatNr := 1 }
  else modifyLock pf fun k ↦ { k with holderRepeatNr := (k.holderRepeatNr + 1) % 2 ^ 32 }

/-- `lock_release`. -/
def lockRelease (t : ℕ) (pf : PoolFlags) : MemProg PUnit := do
  ASSERT fun s ↦ (s.lock pf).holder = some t
  let nr ← look fun s ↦ (s.lock pf).holderRepeatNr
  if 1 < nr then modifyLock pf fun k ↦ { k with holderRepeatNr := k.holderRepeatNr - 1 }
  else
    ASSERT fun s ↦ (s.lock pf).holderRepeatNr = 1
    modifyLock pf fun k ↦ { k with holder := none }
    modifyLock pf fun k ↦ { k with holderRepeatNr := 0 }
    semaUp pf

/-! ## Bitmaps -/

/-- A search begins. -/
def enter (t : ℕ) (b : Btmp) : MemProg PUnit :=
  assign fun s ↦ { s with
    searching := Function.update s.searching b (insert t (s.searching b)) }

/-- A search, and what was set for it, is over. -/
def leave (t : ℕ) (b : Btmp) : MemProg PUnit :=
  assign fun s ↦ { s with
    searching := Function.update s.searching b ((s.searching b).erase t) }

/-- The state after `bitmap_set` of bit `i` to 1 by the thread `t`. -/
def Mem.setBit (s : Mem) (t : ℕ) (b : Btmp) (i : ℕ) : Mem :=
  { s with
    btmp := Function.update s.btmp b ((s.btmp b).set i true)
    sets := s.sets + 1
    target := b
    setter := t }

/-- `bitmap_set` to 1 in `palloc` and `vaddr_get`, which hand out what the bit stands for. -/
def bitmapTake (t : ℕ) (b : Btmp) (i : ℕ) : MemProg PUnit :=
  assign fun s ↦ { s.setBit t b i with
    given := Function.update s.given b (Function.update (s.given b) i (s.given b i + 1)) }

/-- `bitmap_set` to 1 in `get_a_page`, for an address that the caller has chosen. -/
def bitmapReserve (t : ℕ) (b : Btmp) (i : ℕ) : MemProg PUnit := assign fun s ↦ s.setBit t b i

/-- `bitmap_set` to 0. -/
def bitmapClear (b : Btmp) (i : ℕ) : MemProg PUnit :=
  assign fun s ↦ { s with
    btmp := Function.update s.btmp b ((s.btmp b).set i false)
    given := Function.update s.given b (Function.update (s.given b) i 0) }

/-- The loop of `bitmap_scan` over the bytes. -/
def scanBytes (b : Btmp) : ℕ → ℕ → MemProg (Option ℕ)
  | 0, _ => pure none
  | left + 1, k => do
    let full ← look fun s ↦ (s.btmp b).bits k == 0xff
    if full then scanBytes b left (k + 1) else pure (some k)

/-- The loop of `bitmap_scan` over the bits of a byte. Behind the eighth bit the mask is zero. -/
def scanBits (b : Btmp) (k : ℕ) : ℕ → ℕ → MemProg ℕ
  | 0, j => pure j
  | left + 1, j => do
    let used ← look fun s ↦ (s.btmp b).scanTest (8 * k + j)
    if used then scanBits b k left (j + 1) else pure j

/-- The loop of `bitmap_scan` over the bits after the first free one. -/
def scanRun (b : Btmp) (cnt : ℕ) : ℕ → ℕ → ℕ → MemProg (Option ℕ)
  | 0, _, _ => pure none
  | left + 1, next, count => do
    let used ← look fun s ↦ (s.btmp b).scanTest next
    if (if used then 0 else count + 1) = cnt then pure (some (next + 1 - cnt))
    else scanRun b cnt left (next + 1) (if used then 0 else count + 1)

/-- `bitmap_scan`, which the thread `t` begins here. -/
def bitmapScan (t : ℕ) (b : Btmp) (cnt : ℕ) : MemProg (Option ℕ) := do
  ASSERT fun _ ↦ 1 ≤ cnt
  enter t b
  let len ← look fun s ↦ (s.btmp b).btmpBytesLen
  match ← scanBytes b len 0 with
  | none => pure none
  | some k => do
    let j ← scanBits b k 8 0
    if cnt = 1 then pure (some (j + 8 * k))
    else scanRun b cnt (len * 8 - (j + 8 * k)) (j + 8 * k + 1) 1

/-- The loop of `vaddr_get` that sets the bits. -/
def takeRun (t : ℕ) (b : Btmp) : ℕ → ℕ → MemProg PUnit
  | 0, _ => pure PUnit.unit
  | left + 1, i => do
    bitmapTake t b i
    takeRun t b left (i + 1)

/-- Look for free bits and set them. -/
def takeBits (t : ℕ) (b : Btmp) (cnt : ℕ) : MemProg (Option ℕ) := do
  match ← bitmapScan t b cnt with
  | none => do
    leave t b
    pure none
  | some i => do
    takeRun t b cnt i
    leave t b
    pure (some i)

/-! ## Pages -/

/-- `palloc`: the index of the frame. -/
def palloc (t : ℕ) (pf : PoolFlags) : MemProg (Option ℕ) := takeBits t (.pool pf) 1

/-- The virtual addresses of a thread. -/
def vaddrBtmp (t : ℕ) : PoolFlags → Btmp
  | .kernel => .kernelVaddr
  | .user => .userVaddr t

/-- `vaddr_get`: the index of the first page. -/
def vaddrGet (t : ℕ) (pf : PoolFlags) (pgCnt : ℕ) : MemProg (Option ℕ) :=
  takeBits t (vaddrBtmp t pf) pgCnt

/-- `page_table_add`, for an address whose table is `present` or not. -/
def pageTableAdd (t : ℕ) (present : Bool) : MemProg PUnit :=
  if present then pure PUnit.unit
  else do
    let _ ← palloc t .kernel
    pure PUnit.unit

/-- The loop of `malloc_page` over the pages. -/
def mapPages (t : ℕ) (pf : PoolFlags) (present : ℕ → Bool) : ℕ → MemProg PUnit
  | 0 => pure PUnit.unit
  | left + 1 => do
    match ← palloc t pf with
    | none => pure PUnit.unit
    | some _ => do
      pageTableAdd t (present left)
      mapPages t pf present left

/-- `malloc_page`. -/
def mallocPage (t : ℕ) (pf : PoolFlags) (pgCnt : ℕ) (present : ℕ → Bool) : MemProg PUnit := do
  ASSERT fun _ ↦ 0 < pgCnt ∧ pgCnt < 3840
  match ← vaddrGet t pf pgCnt with
  | none => pure PUnit.unit
  | some _ => mapPages t pf present pgCnt

/-- `get_kernel_pages`. -/
def getKernelPages (t pgCnt : ℕ) (present : ℕ → Bool) : MemProg PUnit :=
  mallocPage t .kernel pgCnt present

/-- `get_user_pages`. -/
def getUserPages (t pgCnt : ℕ) (present : ℕ → Bool) : MemProg PUnit := do
  lockAcquire t .user
  mallocPage t .user pgCnt present
  lockRelease t .user

/-- `get_a_page`, for the address of bit `i`. Without a frame the lock stays taken. -/
def getAPage (t : ℕ) (pf : PoolFlags) (i : ℕ) (present : Bool) : MemProg PUnit := do
  lockAcquire t pf
  ASSERT fun _ ↦ 0 < i
  bitmapReserve t (vaddrBtmp t pf) i
  match ← palloc t pf with
  | none => pure PUnit.unit
  | some _ => do
    pageTableAdd t present
    lockRelease t pf

/-- `get_a_page_without_opvaddrbitmap`. -/
def getAPageNoBitmap (t : ℕ) (pf : PoolFlags) (present : Bool) : MemProg PUnit := do
  lockAcquire t pf
  match ← palloc t pf with
  | none => lockRelease t pf
  | some _ => do
    pageTableAdd t present
    lockRelease t pf

/-- `sys_malloc`, with the pages that it asks `malloc_page` for, if the block is not in a free
list. -/
def sysMalloc (t : ℕ) (pf : PoolFlags) (pages : Option ℕ) (present : ℕ → Bool) :
    MemProg PUnit := do
  lockAcquire t pf
  match pages with
  | none => pure PUnit.unit
  | some pgCnt => mallocPage t pf pgCnt present
  lockRelease t pf

/-- The loop of `mfree_page` that calls `pfree`. -/
def pfreeAll : List (PoolFlags × ℕ) → MemProg PUnit
  | [] => pure PUnit.unit
  | (pf, i) :: frames => do
    bitmapClear (.pool pf) i
    pfreeAll frames

/-- `vaddr_remove`. -/
def vaddrRemove (b : Btmp) : ℕ → ℕ → MemProg PUnit
  | 0, _ => pure PUnit.unit
  | left + 1, i => do
    bitmapClear b i
    vaddrRemove b left (i + 1)

/-- `mfree_page`, for the pages from `i` on that are mapped to the frames. -/
def mfreePage (t : ℕ) (pf : PoolFlags) (i : ℕ) (frames : List (PoolFlags × ℕ)) :
    MemProg PUnit := do
  ASSERT fun _ ↦ 1 ≤ frames.length
  pfreeAll frames
  vaddrRemove (vaddrBtmp t pf) frames.length i

/-- `sys_free`, with the pages that it gives to `mfree_page`. -/
def sysFree (t : ℕ) (pf : PoolFlags) (pages : Option (ℕ × List (PoolFlags × ℕ))) :
    MemProg PUnit := do
  lockAcquire t pf
  match pages with
  | none => pure PUnit.unit
  | some (i, frames) => mfreePage t pf i frames
  lockRelease t pf

/-- The calls of a thread. -/
inductive Calls (t : ℕ) : MemProg PUnit → Prop
  | getKernelPages (pgCnt : ℕ) (present : ℕ → Bool) : Calls t (getKernelPages t pgCnt present)
  | getUserPages (pgCnt : ℕ) (present : ℕ → Bool) : Calls t (getUserPages t pgCnt present)
  | getAPage (pf : PoolFlags) (i : ℕ) (present : Bool) : Calls t (getAPage t pf i present)
  | getAPageNoBitmap (pf : PoolFlags) (present : Bool) : Calls t (getAPageNoBitmap t pf present)
  | sysMalloc (pf : PoolFlags) (pages : Option ℕ) (present : ℕ → Bool) :
    Calls t (sysMalloc t pf pages present)
  | sysFree (pf : PoolFlags) (pages : Option (ℕ × List (PoolFlags × ℕ))) :
    Calls t (sysFree t pf pages)
  | mfreePage (pf : PoolFlags) (i : ℕ) (frames : List (PoolFlags × ℕ)) :
    Calls t (mfreePage t pf i frames)

/-- After `mem_init`, for bitmaps of these lengths. -/
def Mem.init (len : Btmp → ℕ) : Mem where
  btmp b := ⟨len b, fun _ ↦ 0⟩
  lock _ := ⟨none, 1, 0⟩
  given _ _ := 0
  searching _ := ∅
  sets := 0
  target := .kernelVaddr
  setter := 0

/-- A step in which a thread sets a bit of a bitmap while another one is between the start of a
search in it and the last bit that it sets there. -/
def Crosses (s s' : Mem) : Prop := s'.sets ≠ s.sets ∧ ∃ u ∈ s.searching s'.target, u ≠ s'.setter

instance : DecidableRel Crosses := fun s s' ↦
  inferInstanceAs (Decidable (s'.sets ≠ s.sets ∧ ∃ u ∈ s.searching s'.target, u ≠ s'.setter))

/-- Nothing was handed out again before it was freed: no frame of a pool and no page of the virtual
addresses of the kernel. -/
def Mem.Unique (s : Mem) : Prop :=
  (∀ pf i, s.given (.pool pf) i ≤ 1) ∧ ∀ i, s.given .kernelVaddr i ≤ 1

/-! ## The invariant -/

/-- What was handed out is marked, and was handed out once. -/
structure Inv (s : Mem) : Prop where
  once : ∀ b i, s.given b i ≤ 1
  marked : ∀ b i, (s.btmp b).bit i = false → s.given b i = 0

/-- What a statement of the thread `t` leaves to the others: their searches, and the free bits of
the bitmaps that they look at. -/
structure Guar (t : ℕ) (s s' : Mem) : Prop where
  searching : ∀ u ≠ t, ∀ b, u ∈ s'.searching b ↔ u ∈ s.searching b
  free : ∀ u ≠ t, ∀ b, u ∈ s.searching b → ∀ i, (s.btmp b).bit i = false →
    (s'.btmp b).bit i = false

/-- The thread is not searching. -/
def Out (t : ℕ) (s : Mem) : Prop := ∀ b, t ∉ s.searching b

/-- The thread searches in `b` only, and the bits with `F` are free. -/
def Search (t : ℕ) (b : Btmp) (F : ℕ → Prop) (s : Mem) : Prop :=
  (∀ b', t ∈ s.searching b' ↔ b' = b) ∧ ∀ i, F i → (s.btmp b).bit i = false

/-- Nothing but the threads changes the memory. -/
def still (_ _ : Mem) : Prop := False

section Stability

theorem stable_out (t : ℕ) : Stable Inv Guar still t (Out t) := by
  rintro s s' - ⟨-, hE | ⟨u, hu, hg⟩⟩ hout b
  · exact hE.elim
  · exact fun h ↦ hout b ((hg.searching t hu.symm b).mp h)

theorem stable_search (t : ℕ) (b : Btmp) (F : ℕ → Prop) :
    Stable Inv Guar still t (Search t b F) := by
  rintro s s' - ⟨-, hE | ⟨u, hu, hg⟩⟩ ⟨hin, hfree⟩
  · exact hE.elim
  · refine ⟨fun b' ↦ (hg.searching t hu.symm b').trans (hin b'), fun i hi ↦ ?_⟩
    exact hg.free t hu.symm b ((hin b).mpr rfl) i (hfree i hi)

/-- One of several bits stays free. -/
theorem stable_exists {ι : Type} (t : ℕ) (b : Btmp) (p : ι → Prop) (F : ι → ℕ → Prop) :
    Stable Inv Guar still t fun s ↦ ∃ j, p j ∧ Search t b (F j) s := by
  rintro s s' hi hr ⟨j, hj, h⟩
  exact ⟨j, hj, stable_search t b (F j) s s' hi hr h⟩

end Stability

/-! ## The statements -/

section Statements

variable {t : ℕ} {b : Btmp} {pf : PoolFlags} {F : ℕ → Prop} {s s' : Mem}

/-- What is proved about a piece of a call: in a run without crossing. -/
abbrev Step {α : Type} (t : ℕ) (P : Mem → Prop) (p : MemProg α) (Q : α → Mem → Prop) : Prop :=
  Triple Inv Guar still (fun s s' ↦ ¬Crosses s s') t P p Q

theorem Guar.refl (t : ℕ) (s : Mem) : Guar t s s :=
  ⟨fun _ _ _ ↦ Iff.rfl, fun _ _ _ _ _ h ↦ h⟩

theorem step_ret {α : Type} {P : Mem → Prop} {a : α} {Q : α → Mem → Prop}
    (h : ∀ s, P s → Q a s) : Step t P (pure a) Q := .ret fun s _ hp ↦ h s hp

/-- A statement that only looks. -/
theorem step_look {α : Type} {P : Mem → Prop} {f : Mem → α} {Q : α → Mem → Prop}
    (hP : Stable Inv Guar still t P) (hQ : ∀ s, P s → Q (f s) s) : Step t P (look f) Q := by
  refine .stmt hP fun s a s' hi hp hf _ ↦ ?_
  obtain ⟨rfl, rfl⟩ := Prod.mk.inj (Option.some.inj hf)
  exact ⟨hi, .refl t s, hQ s hp⟩

theorem step_ASSERT {P : Mem → Prop} {p : Mem → Prop} [DecidablePred p]
    (hP : Stable Inv Guar still t P) : Step t P (ASSERT p) fun _ s ↦ P s ∧ p s := by
  refine .stmt hP fun s a s' hi hp hf _ ↦ ?_
  obtain ⟨hps, hf⟩ := Option.ite_none_right_eq_some.mp hf
  obtain ⟨-, rfl⟩ := Prod.mk.inj (Option.some.inj hf)
  exact ⟨hi, .refl t s, hp, hps⟩

/-- A fact that is no fact about the memory. -/
theorem step_and {α : Type} {P : Mem → Prop} {c : Prop} {p : MemProg α} {Q : α → Mem → Prop}
    (h : c → Step t P p Q) : Step t (fun s ↦ P s ∧ c) p Q :=
  fun s hi hp ↦ h hp.2 s hi hp.1

theorem step_modifyLock (f : Thread.Lock → Thread.Lock) :
    Step t (Out t) (modifyLock pf f) fun _ ↦ Out t := by
  refine .stmt (stable_out t) fun s a s' hi hp hf _ ↦ ?_
  obtain ⟨-, rfl⟩ := Prod.mk.inj (Option.some.inj hf)
  exact ⟨⟨hi.once, hi.marked⟩, ⟨fun _ _ _ ↦ Iff.rfl, fun _ _ _ _ _ h ↦ h⟩, hp⟩

theorem step_moveSema (v : ℕ) : Step t (Out t) (moveSema pf v) fun _ ↦ Out t := by
  refine .stmt (stable_out t) fun s a s' hi hp hf _ ↦ ?_
  obtain ⟨-, hf⟩ := Option.ite_none_right_eq_some.mp hf
  obtain ⟨-, rfl⟩ := Prod.mk.inj (Option.some.inj hf)
  exact ⟨⟨hi.once, hi.marked⟩, ⟨fun _ _ _ ↦ Iff.rfl, fun _ _ _ _ _ h ↦ h⟩, hp⟩

/-- An assertion about a lock. -/
theorem step_ASSERT_lock {p : Mem → Prop} [DecidablePred p] :
    Step t (Out t) (ASSERT p) fun _ ↦ Out t :=
  (step_ASSERT (stable_out t)).post fun _ _ _ h ↦ h.1

theorem step_look_lock {α : Type} (f : Mem → α) : Step t (Out t) (look f) fun _ ↦ Out t :=
  step_look (stable_out t) fun _ h ↦ h

theorem step_lockAcquire : Step t (Out t) (lockAcquire t pf) fun _ ↦ Out t := by
  refine .bind (step_look_lock _) fun holder ↦ ?_
  split_ifs
  · exact .bind (step_moveSema 0) fun _ ↦ .bind (step_modifyLock _) fun _ ↦
      .bind step_ASSERT_lock fun _ ↦ step_modifyLock _
  · exact step_modifyLock _

theorem step_lockRelease : Step t (Out t) (lockRelease t pf) fun _ ↦ Out t := by
  refine .bind step_ASSERT_lock fun _ ↦ .bind (step_look_lock _) fun nr ↦ ?_
  split_ifs
  · exact step_modifyLock _
  · exact .bind step_ASSERT_lock fun _ ↦ .bind (step_modifyLock _) fun _ ↦
      .bind (step_modifyLock _) fun _ ↦ step_moveSema 1

/-! ## Searching -/

theorem step_enter : Step t (Out t) (enter t b) fun _ ↦ Search t b fun _ ↦ False := by
  refine .stmt (stable_out t) fun s a s' hi hp hf _ ↦ ?_
  obtain ⟨-, rfl⟩ := Prod.mk.inj (Option.some.inj hf)
  refine ⟨⟨hi.once, hi.marked⟩, ⟨fun u hu b' ↦ ?_, fun _ _ _ _ _ h ↦ h⟩, fun b' ↦ ?_,
    fun _ h ↦ h.elim⟩
  · dsimp only
    by_cases hb : b' = b
    · rw [hb, Function.update_self, Finset.mem_insert]
      exact or_iff_right hu
    · rw [Function.update_of_ne hb]
  · dsimp only
    by_cases hb : b' = b
    · rw [hb, Function.update_self]
      exact iff_of_true (Finset.mem_insert_self ..) rfl
    · rw [Function.update_of_ne hb]
      exact iff_of_false (hp b') hb

theorem step_leave : Step t (Search t b F) (leave t b) fun _ ↦ Out t := by
  refine .stmt (stable_search t b F) fun s a s' hi hp hf _ ↦ ?_
  obtain ⟨-, rfl⟩ := Prod.mk.inj (Option.some.inj hf)
  refine ⟨⟨hi.once, hi.marked⟩, ⟨fun u hu b' ↦ ?_, fun _ _ _ _ _ h ↦ h⟩, fun b' ↦ ?_⟩
  · dsimp only
    by_cases hb : b' = b
    · rw [hb, Function.update_self, Finset.mem_erase]
      exact and_iff_right hu
    · rw [Function.update_of_ne hb]
  · dsimp only
    by_cases hb : b' = b
    · rw [hb, Function.update_self]
      exact Finset.notMem_erase t _
    · rw [Function.update_of_ne hb]
      exact fun h ↦ hb ((hp.1 b').mp h)

/-- A byte that is not full has a free bit, and keeps one. -/
theorem step_scanBytes (left k : ℕ) :
    Step t (Search t b fun _ ↦ False) (scanBytes b left k) fun r s ↦
      match r with
      | none => Search t b (fun _ ↦ False) s
      | some k' => ∃ j, (0 ≤ j ∧ j < 0 + 8) ∧ Search t b (fun i ↦ i = 8 * k' + j) s := by
  induction left generalizing k with
  | zero => exact step_ret fun _ h ↦ h
  | succ left ih =>
    refine .bind (Q := fun full s ↦ Search t b (fun _ ↦ False) s ∧ (full = false →
      ∃ j, (0 ≤ j ∧ j < 0 + 8) ∧ Search t b (fun i ↦ i = 8 * k + j) s))
      (step_look (stable_search t b _) fun s h ↦ ⟨h, fun hfull ↦ ?_⟩) fun full ↦ ?_
    · obtain ⟨j, hj, hfree⟩ := (s.btmp b).exists_bit_of_byte_ne (beq_eq_false_iff_ne.mp hfull)
      exact ⟨j, ⟨j.zero_le, by omega⟩, h.1, fun i hi ↦ by rwa [hi]⟩
    · cases full with
      | true => exact (ih (k + 1)).pre fun _ _ h ↦ h.1
      | false => exact step_ret fun _ h ↦ h.2 rfl

/-- The free bit of a byte is found, or one before it. -/
theorem step_scanBits (k left j : ℕ) :
    Step t (fun s ↦ ∃ j', (j ≤ j' ∧ j' < j + left) ∧ Search t b (fun i ↦ i = 8 * k + j') s)
      (scanBits b k left j) fun r ↦ Search t b fun i ↦ i = r + 8 * k := by
  induction left generalizing j with
  | zero =>
    refine step_ret ?_
    rintro s ⟨j', ⟨h1, h2⟩, -⟩
    omega
  | succ left ih =>
    refine .bind (Q := fun used s ↦ if used = true then
        ∃ j', (j + 1 ≤ j' ∧ j' < j + 1 + left) ∧ Search t b (fun i ↦ i = 8 * k + j') s
        else Search t b (fun i ↦ i = j + 8 * k) s)
      (step_look (stable_exists t b _ _) ?_) fun used ↦ ?_
    · rintro s ⟨j', ⟨h1, h2⟩, hin, hfree⟩
      rw [Bitmap.scanTest_eq_bit]
      split_ifs with hused
      · have hne : j' ≠ j := by
          rintro rfl
          rw [hfree _ rfl] at hused
          cases hused
        exact ⟨j', ⟨by omega, by omega⟩, hin, hfree⟩
      · refine ⟨hin, fun i hi ↦ ?_⟩
        rw [hi, Nat.add_comm]
        exact Bool.eq_false_of_not_eq_true hused
    · cases used with
      | true => exact ih (j + 1)
      | false => exact step_ret fun _ h ↦ h

/-- The bits that a search has found. -/
def Found (cnt : ℕ) (r : Option ℕ) (i : ℕ) : Prop := ∃ start ∈ r, start ≤ i ∧ i < start + cnt

/-- The loop keeps a run of free bits that ends where it stands. -/
theorem step_scanRun {cnt : ℕ} (hcnt : 1 ≤ cnt) (left next count : ℕ) (hle : count ≤ next) :
    Step t (Search t b fun i ↦ next ≤ i + count ∧ i < next) (scanRun b cnt left next count)
      fun r ↦ Search t b (Found cnt r) := by
  induction left generalizing next count with
  | zero =>
    refine step_ret fun s h ↦ ⟨h.1, ?_⟩
    rintro i ⟨start, hstart, -⟩
    cases hstart
  | succ left ih =>
    refine .bind (Q := fun used ↦ Search t b fun i ↦
        next + 1 ≤ i + (if used = true then 0 else count + 1) ∧ i < next + 1)
      (step_look (stable_search t b _) fun s h ↦ ⟨h.1, fun i hi ↦ ?_⟩) fun used ↦ ?_
    · rw [Bitmap.scanTest_eq_bit] at hi
      split_ifs at hi with hused
      · omega
      · rcases Nat.lt_succ_iff_lt_or_eq.mp hi.2 with hlt | rfl
        · exact h.2 i ⟨by omega, hlt⟩
        · exact Bool.eq_false_of_not_eq_true hused
    · have hcount : (if used = true then 0 else count + 1) ≤ next + 1 := by
        split_ifs <;> omega
      generalize (if used = true then 0 else count + 1) = count' at hcount
      split_ifs with hfound
      · refine step_ret fun s h ↦ ⟨h.1, ?_⟩
        rintro i ⟨start, hstart, h1, h2⟩
        obtain rfl := Option.some.inj hstart
        exact h.2 i ⟨by omega, by omega⟩
      · exact ih (next + 1) count' hcount

theorem step_bitmapScan (cnt : ℕ) : Step t (Out t) (bitmapScan t b cnt) fun r ↦
    Search t b (Found cnt r) := by
  refine .bind (step_ASSERT (stable_out t)) fun _ ↦ step_and fun hcnt ↦ ?_
  refine .bind step_enter fun _ ↦ .bind (step_look (Q := fun _ ↦ Search t b fun _ ↦ False)
    (stable_search t b _) fun _ h ↦ h) fun len ↦ .bind (step_scanBytes len 0) fun r ↦ ?_
  cases r with
  | none =>
    refine step_ret fun s h ↦ ⟨h.1, ?_⟩
    rintro i ⟨start, hstart, -⟩
    cases hstart
  | some k =>
    refine .bind (step_scanBits k 8 0) fun j ↦ ?_
    split_ifs with hone
    · refine step_ret fun s h ↦ ⟨h.1, ?_⟩
      rintro i ⟨start, hstart, h1, h2⟩
      obtain rfl := Option.some.inj hstart
      exact h.2 i (by omega)
    · exact (step_scanRun hcnt _ _ 1 (by omega)).pre fun s _ h ↦ ⟨h.1, fun i hi ↦ h.2 i (by omega)⟩

/-! ## Setting and clearing -/

/-- A step that sets a bit leaves the bits that others look at. -/
theorem guar_setBit {i : ℕ} {g : Btmp → ℕ → ℕ}
    (hcross : ¬Crosses s { s.setBit t b i with given := g }) :
    Guar t s { s.setBit t b i with given := g } := by
  refine ⟨fun _ _ _ ↦ Iff.rfl, fun u hu b' hin j hj ↦ ?_⟩
  have hb : b' ≠ b := by
    rintro rfl
    exact hcross ⟨Nat.succ_ne_self _, u, hin, hu⟩
  change (Function.update s.btmp b ((s.btmp b).set i true) b').bit j = false
  rwa [Function.update_of_ne hb]

/-- What is free after a bit was set. -/
theorem bit_setBit {i j : ℕ} {b' : Btmp} (h : ((s.setBit t b i).btmp b').bit j = false) :
    (s.btmp b').bit j = false ∧ ¬(b' = b ∧ j = i) := by
  change (Function.update s.btmp b ((s.btmp b).set i true) b').bit j = false at h
  by_cases hb : b' = b
  · subst hb
    rw [Function.update_self, Bitmap.bit_set] at h
    split_ifs at h with hj
    exact ⟨h, fun h' ↦ hj h'.2⟩
  · rw [Function.update_of_ne hb] at h
    exact ⟨h, fun h' ↦ hb h'.1⟩

/-- A free bit is handed out once more, which is the first time. -/
theorem step_bitmapTake {i : ℕ} (hi : F i) :
    Step t (Search t b F) (bitmapTake t b i) fun _ ↦ Search t b fun j ↦ F j ∧ j ≠ i := by
  refine .stmt (stable_search t b F) fun s a s' hinv hp hf hcross ↦ ?_
  obtain ⟨-, rfl⟩ := Prod.mk.inj (Option.some.inj hf)
  have hzero : s.given b i = 0 := hinv.marked b i (hp.2 i hi)
  have hgiven : ∀ b' j, ¬(b' = b ∧ j = i) → Function.update s.given b
      (Function.update (s.given b) i (s.given b i + 1)) b' j = s.given b' j := by
    intro b' j hne
    by_cases hb : b' = b
    · subst hb
      rw [Function.update_self, Function.update_of_ne fun hj ↦ hne ⟨rfl, hj⟩]
    · rw [Function.update_of_ne hb]
  refine ⟨⟨fun b' j ↦ ?_, fun b' j hj ↦ ?_⟩, guar_setBit hcross, hp.1, fun j hj ↦ ?_⟩
  · by_cases hij : b' = b ∧ j = i
    · obtain ⟨rfl, rfl⟩ := hij
      dsimp only
      rw [Function.update_self, Function.update_self, hzero]
    · exact (hgiven b' j hij).trans_le (hinv.once b' j)
  · obtain ⟨hfree, hne⟩ := bit_setBit (t := t) hj
    exact (hgiven b' j hne).trans (hinv.marked b' j hfree)
  · change (Function.update s.btmp b ((s.btmp b).set i true) b).bit j = false
    rw [Function.update_self, Bitmap.bit_set, if_neg hj.2]
    exact hp.2 j hj.1

theorem step_bitmapReserve {i : ℕ} : Step t (Out t) (bitmapReserve t b i) fun _ ↦ Out t := by
  refine .stmt (stable_out t) fun s a s' hinv hp hf hcross ↦ ?_
  obtain ⟨-, rfl⟩ := Prod.mk.inj (Option.some.inj hf)
  exact ⟨⟨hinv.once, fun b' j hj ↦ hinv.marked b' j (bit_setBit (t := t) hj).1⟩,
    guar_setBit hcross, hp⟩

theorem step_bitmapClear {i : ℕ} : Step t (Out t) (bitmapClear b i) fun _ ↦ Out t := by
  refine .stmt (stable_out t) fun s a s' hinv hp hf _ ↦ ?_
  obtain ⟨-, rfl⟩ := Prod.mk.inj (Option.some.inj hf)
  refine ⟨⟨fun b' j ↦ ?_, fun b' j hj ↦ ?_⟩, ⟨fun _ _ _ ↦ Iff.rfl, fun u _ b' _ j hj ↦ ?_⟩, hp⟩
  · dsimp only
    by_cases hb : b' = b
    · subst hb
      rw [Function.update_self, Function.update_apply]
      split_ifs
      · exact Nat.zero_le 1
      · exact hinv.once b' j
    · rw [Function.update_of_ne hb]
      exact hinv.once b' j
  · dsimp only at hj ⊢
    by_cases hb : b' = b
    · subst hb
      rw [Function.update_self, Bitmap.bit_set] at hj
      rw [Function.update_self, Function.update_apply]
      split_ifs with hij
      · rfl
      · rw [if_neg hij] at hj
        exact hinv.marked b' j hj
    · rw [Function.update_of_ne hb] at hj ⊢
      exact hinv.marked b' j hj
  · dsimp only
    by_cases hb : b' = b
    · subst hb
      rw [Function.update_self, Bitmap.bit_set, hj, ite_self]
    · rwa [Function.update_of_ne hb]

theorem step_takeRun (left i : ℕ) :
    Step t (Search t b fun j ↦ i ≤ j ∧ j < i + left) (takeRun t b left i) fun _ ↦
      Search t b fun _ ↦ False := by
  induction left generalizing i with
  | zero => exact step_ret fun s h ↦ ⟨h.1, fun _ h ↦ h.elim⟩
  | succ left ih =>
    refine .bind (step_bitmapTake ⟨le_rfl, by omega⟩) fun _ ↦ (ih (i + 1)).pre ?_
    exact fun s _ h ↦ ⟨h.1, fun j hj ↦ h.2 j ⟨⟨by omega, by omega⟩, by omega⟩⟩

theorem step_takeBits (cnt : ℕ) : Step t (Out t) (takeBits t b cnt) fun _ ↦ Out t := by
  refine .bind (step_bitmapScan cnt) fun r ↦ ?_
  cases r with
  | none => exact .bind step_leave fun _ ↦ step_ret fun _ h ↦ h
  | some i =>
    have hrun : Step t (Search t b (Found cnt (some i))) (takeRun t b cnt i) fun _ ↦
        Search t b fun _ ↦ False :=
      (step_takeRun cnt i).pre fun s _ h ↦ ⟨h.1, fun j hj ↦ h.2 j ⟨i, rfl, hj⟩⟩
    refine .bind hrun fun _ ↦ ?_
    exact .bind step_leave fun _ ↦ step_ret fun _ h ↦ h

end Statements

/-! ## The calls -/

section Calls

variable {t : ℕ} {pf : PoolFlags}

theorem step_pageTableAdd (present : Bool) :
    Step t (Out t) (pageTableAdd t present) fun _ ↦ Out t := by
  cases present with
  | true => exact step_ret fun _ h ↦ h
  | false => exact .bind (step_takeBits 1) fun _ ↦ step_ret fun _ h ↦ h

theorem step_mapPages (present : ℕ → Bool) (left : ℕ) :
    Step t (Out t) (mapPages t pf present left) fun _ ↦ Out t := by
  induction left with
  | zero => exact step_ret fun _ h ↦ h
  | succ left ih =>
    refine .bind (step_takeBits 1) fun r ↦ ?_
    cases r with
    | none => exact step_ret fun _ h ↦ h
    | some i => exact .bind (step_pageTableAdd _) fun _ ↦ ih

theorem step_mallocPage (pgCnt : ℕ) (present : ℕ → Bool) :
    Step t (Out t) (mallocPage t pf pgCnt present) fun _ ↦ Out t := by
  refine .bind step_ASSERT_lock fun _ ↦ .bind (step_takeBits pgCnt) fun r ↦ ?_
  cases r with
  | none => exact step_ret fun _ h ↦ h
  | some i => exact step_mapPages present pgCnt

theorem step_getAPage (i : ℕ) (present : Bool) :
    Step t (Out t) (getAPage t pf i present) fun _ ↦ Out t := by
  refine .bind step_lockAcquire fun _ ↦ .bind step_ASSERT_lock fun _ ↦
    .bind step_bitmapReserve fun _ ↦ .bind (step_takeBits 1) fun r ↦ ?_
  cases r with
  | none => exact step_ret fun _ h ↦ h
  | some k => exact .bind (step_pageTableAdd present) fun _ ↦ step_lockRelease

theorem step_getAPageNoBitmap (present : Bool) :
    Step t (Out t) (getAPageNoBitmap t pf present) fun _ ↦ Out t := by
  refine .bind step_lockAcquire fun _ ↦ .bind (step_takeBits 1) fun r ↦ ?_
  cases r with
  | none => exact step_lockRelease
  | some k => exact .bind (step_pageTableAdd present) fun _ ↦ step_lockRelease

theorem step_sysMalloc (pages : Option ℕ) (present : ℕ → Bool) :
    Step t (Out t) (sysMalloc t pf pages present) fun _ ↦ Out t := by
  refine .bind step_lockAcquire fun _ ↦ ?_
  cases pages with
  | none => exact step_lockRelease
  | some pgCnt => exact .bind (step_mallocPage pgCnt present) fun _ ↦ step_lockRelease

theorem step_pfreeAll (frames : List (PoolFlags × ℕ)) :
    Step t (Out t) (pfreeAll frames) fun _ ↦ Out t := by
  induction frames with
  | nil => exact step_ret fun _ h ↦ h
  | cons frame frames ih => exact .bind step_bitmapClear fun _ ↦ ih

theorem step_vaddrRemove {b : Btmp} (left i : ℕ) :
    Step t (Out t) (vaddrRemove b left i) fun _ ↦ Out t := by
  induction left generalizing i with
  | zero => exact step_ret fun _ h ↦ h
  | succ left ih => exact .bind step_bitmapClear fun _ ↦ ih (i + 1)

theorem step_mfreePage (i : ℕ) (frames : List (PoolFlags × ℕ)) :
    Step t (Out t) (mfreePage t pf i frames) fun _ ↦ Out t :=
  .bind step_ASSERT_lock fun _ ↦ .bind (step_pfreeAll frames) fun _ ↦ step_vaddrRemove _ _

theorem step_sysFree (pages : Option (ℕ × List (PoolFlags × ℕ))) :
    Step t (Out t) (sysFree t pf pages) fun _ ↦ Out t := by
  refine .bind step_lockAcquire fun _ ↦ ?_
  cases pages with
  | none => exact step_lockRelease
  | some a => exact .bind (step_mfreePage a.1 a.2) fun _ ↦ step_lockRelease

/-- A call keeps the invariant in a run without crossing. -/
theorem step_calls {q : MemProg PUnit} (hq : Calls t q) : Step t (Out t) q fun _ ↦ Out t := by
  cases hq with
  | getKernelPages pgCnt present => exact step_mallocPage pgCnt present
  | getUserPages pgCnt present =>
    exact .bind step_lockAcquire fun _ ↦ .bind (step_mallocPage pgCnt present) fun _ ↦
      step_lockRelease
  | getAPage pf i present => exact step_getAPage i present
  | getAPageNoBitmap pf present => exact step_getAPageNoBitmap present
  | sysMalloc pf pages present => exact step_sysMalloc pages present
  | sysFree pf pages => exact step_sysFree pages
  | mfreePage pf i frames => exact step_mfreePage i frames

end Calls

/-! ## Runs -/

theorem inv_init (len : Btmp → ℕ) : Inv (Mem.init len) := by
  refine ⟨fun _ _ ↦ Nat.zero_le 1, fun _ _ _ ↦ rfl⟩

/-- **In a run without crossing nothing is handed out twice.** -/
theorem once_of_not_crosses {len : Btmp → ℕ} {c : Interleave.Threads Mem}
    (h : ReflTransGen (StepWhen (fun s s' ↦ ¬Crosses s s') Calls still)
      ⟨Mem.init len, fun _ ↦ .ret PUnit.unit⟩ c) : c.shared.Unique := by
  have hstart : Good Inv Guar still (fun s s' ↦ ¬Crosses s s') Out
      ⟨Mem.init len, fun _ ↦ .ret PUnit.unit⟩ :=
    Good.start (inv_init len) fun t _ ↦ Finset.notMem_empty t
  have hend := hstart.run stable_out (fun t q hq ↦ step_calls hq) (fun _ _ _ hE ↦ hE.elim) h
  exact ⟨fun pf i ↦ hend.1.once (.pool pf) i, fun i ↦ hend.1.once .kernelVaddr i⟩

/-- Bitmaps of one byte. -/
def smallLen (_ : Btmp) : ℕ := 1

/-- Two threads, each at the start of `get_kernel_pages`. -/
def twoCalls : Interleave.Threads Mem :=
  ⟨Mem.init smallLen, Function.update (Function.update (fun _ ↦ .ret PUnit.unit) 0
    (getKernelPages 0 1 fun _ ↦ true)) 1 (getKernelPages 1 1 fun _ ↦ true)⟩

/-- One call after the other: two pages and two frames. -/
theorem once_of_not_crosses_two_calls : ∃ c : Interleave.Threads Mem,
    ReflTransGen (StepWhen (fun s s' ↦ ¬Crosses s s') Calls still)
      ⟨Mem.init smallLen, fun _ ↦ .ret PUnit.unit⟩ c ∧ c.shared.Unique ∧
      c.shared.given (.pool .kernel) 0 = 1 ∧ c.shared.given (.pool .kernel) 1 = 1 := by
  have hcalls : ReflTransGen (StepWhen (fun s s' ↦ ¬Crosses s s') Calls still)
      ⟨Mem.init smallLen, fun _ ↦ .ret PUnit.unit⟩ twoCalls :=
    .tail (.tail .refl ⟨.call rfl (.getKernelPages 1 _), fun h ↦ h.1 rfl⟩)
      ⟨.call rfl (.getKernelPages 1 _), fun h ↦ h.1 rfl⟩
  have hturns : ((twoCalls.turnsWhen (fun s s' ↦ ¬Crosses s s')
      (List.replicate 15 0 ++ List.replicate 16 1)).map fun c ↦
        (c.shared.given (.pool .kernel) 0, c.shared.given (.pool .kernel) 1)) = some (1, 1) := by
    decide +kernel
  obtain ⟨c, hc, hgiven⟩ := Option.map_eq_some_iff.mp hturns
  obtain ⟨hzero, hone⟩ := Prod.mk.inj hgiven
  have hrun := hcalls.trans (reaches_of_turnsWhen hc)
  exact ⟨c, hrun, once_of_not_crosses hrun, hzero, hone⟩

/-- The first thread has found frame 0 in `palloc` and has not set its bit yet. The second one finds
the same frame. -/
theorem not_unique_frame :
    ¬∀ c : Interleave.Threads Mem, ReflTransGen (Interleave.Step Calls still)
      ⟨Mem.init smallLen, fun _ ↦ .ret PUnit.unit⟩ c → c.shared.Unique := by
  intro hall
  have hcalls : ReflTransGen (Interleave.Step Calls still)
      ⟨Mem.init smallLen, fun _ ↦ .ret PUnit.unit⟩ twoCalls :=
    .tail (.tail .refl (.call rfl (.getKernelPages 1 _))) (.call rfl (.getKernelPages 1 _))
  have hturns : ((twoCalls.turns (List.replicate 13 0 ++ List.replicate 15 1 ++ [0])).map
      fun c ↦ c.shared.given (.pool .kernel) 0) = some 2 := by
    decide +kernel
  obtain ⟨c, hc, hgiven⟩ := Option.map_eq_some_iff.mp hturns
  have hunique := (hall c (hcalls.trans (reaches_of_turns hc))).1 .kernel 0
  rw [hgiven] at hunique
  exact absurd hunique (by decide)

end GlowOS.Preemption
