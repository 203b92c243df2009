import Mathlib
import GlowOS.Kernel.Memory

/-!
# The heap

`sys_malloc` and `sys_free` of `kernel/memory.c`. Requests of more than 1024 bytes get pages of
their own; smaller ones get a block of one of seven sizes, which are cut from pages. A page or run
of pages starts with a `struct arena`, the free blocks of a size are linked in the `free_list` of
its `struct mem_block_desc`, and the list elements stand in the blocks themselves.

All of this is memory: `vm` holds the words of the current address space by their virtual addresses.
What lies below, `malloc_page` and `mfree_page` with the bitmaps and page tables, is `Pages`.

The calls hold the lock of their pool. A thread that finds the lock taken by another thread waits,
and goes on when it is free; here such a call stops.
-/

namespace GlowOS

open Bytes Program

/-! ## Data -/

/-- The fields `holder` and `holder_repeat_nr` of `struct lock`. -/
@[ext] structure PoolLock where
  holder : Option ℕ
  holderRepeatNr : ℕ

/-- The page level: its state, and what the heap uses of it. -/
structure Pages (μ : Type) where
  mallocPage : PoolFlags → ℕ → StateT μ (Except Fault) (Option ℕ)
  mfreePage : PoolFlags → ℕ → ℕ → StateT μ (Except Fault) PUnit
  poolSize : μ → PoolFlags → ℕ
  /-- `pgdir` of the running thread is null. -/
  kernelThread : μ → Bool
  /-- The addresses of `k_block_descs`, and of `u_block_desc` in a `task_struct`. -/
  kBlockDescs : ℕ
  uBlockDesc : ℕ → ℕ

/-- The state of the heap. -/
structure HeapSys (μ : Type) where
  mem : μ
  /-- Memory, by virtual address. -/
  vm : Image
  lock : PoolFlags → PoolLock
  /-- The `task_struct` of the running thread. -/
  running : ℕ

/-- Programs over the heap. -/
abbrev HeapM (μ : Type) := StateT (HeapSys μ) (Except Fault)

variable {μ : Type}

/-- `DESC_CNT`. -/
abbrev descCnt : ℕ := 7

/-- `sizeof(struct arena)`. -/
abbrev arenaSize : ℕ := 12

/-! ## Access to memory -/

/-- A program of the page level. -/
def onPages {α : Type} (p : StateT μ (Except Fault) α) : HeapM μ α := do
  let s ← get
  match p s.mem with
  | .ok (r, m) => do
    modify fun s ↦ { s with mem := m }
    pure r
  | .error e => throw e

/-- Read the word at a virtual address. -/
def loadWord (a : ℕ) : HeapM μ ℕ := do
  let s ← get
  pure (le32 s.vm a)

/-- Write the word at a virtual address. -/
def storeWord (a w : ℕ) : HeapM μ PUnit := modify fun s ↦ { s with vm := setWord s.vm a w }

/-- `memset` with zero. -/
def clear (a n : ℕ) : HeapM μ PUnit := do
  check Fault.assert (a ≠ 0)
  modify fun s ↦ { s with vm := splice s.vm a n fun _ ↦ 0 }

/-! ## Lists

A `struct list_elem` is the word `prev` and the word `next`; a `struct list` is its `head` and,
eight bytes behind, its `tail`. -/

/-- `list_insert_before`. -/
def listInsertBefore (before elem : ℕ) : HeapM μ PUnit := do
  storeWord (elem + 4) before
  let prev ← loadWord before
  storeWord elem prev
  let prev ← loadWord before
  storeWord (prev + 4) elem
  storeWord before elem

/-- `list_append`. -/
def listAppend (plist elem : ℕ) : HeapM μ PUnit := listInsertBefore (plist + 8) elem

/-- `list_remove`. -/
def listRemove (pelem : ℕ) : HeapM μ PUnit := do
  let next ← loadWord (pelem + 4)
  let prev ← loadWord pelem
  storeWord (prev + 4) next
  let prev ← loadWord pelem
  let next ← loadWord (pelem + 4)
  storeWord next prev

/-- `list_empty`. -/
def listEmpty (plist : ℕ) : HeapM μ Bool := do
  let first ← loadWord (plist + 4)
  pure (first == plist + 8)

/-- `list_pop`. -/
def listPop (plist : ℕ) : HeapM μ ℕ := do
  let first ← loadWord (plist + 4)
  check Fault.assert (first ≠ plist + 8)
  listRemove first
  pure first

/-- The loop of `elem_find`, which does not end if there is no way to the tail. -/
def elemFindFrom (plist obj : ℕ) : ℕ → ℕ → HeapM μ Bool
  | 0, _ => throw Fault.hang
  | fuel + 1, ptr =>
    if ptr = plist + 8 then pure false
    else if ptr = obj then pure true
    else do
      let next ← loadWord (ptr + 4)
      elemFindFrom plist obj fuel next

/-- `elem_find`. -/
def elemFind (plist obj : ℕ) : HeapM μ Bool := do
  let first ← loadWord (plist + 4)
  elemFindFrom plist obj (2 ^ 32) first

/-! ## Locks -/

/-- Assign the fields of a lock. -/
def HeapSys.setLock (s : HeapSys μ) (pf : PoolFlags) (l : PoolLock) : HeapSys μ :=
  { s with lock := Function.update s.lock pf l }

/-- `lock_acquire`. -/
def lockAcquire (pf : PoolFlags) : HeapM μ PUnit := do
  let s ← get
  if (s.lock pf).holder ≠ some s.running then
    -- `sema_down`
    check Fault.hang ((s.lock pf).holder = none)
    check Fault.assert ((s.lock pf).holderRepeatNr = 0)
    modify fun s ↦ s.setLock pf ⟨some s.running, 1⟩
  else
    modify fun s ↦
      s.setLock pf ⟨(s.lock pf).holder, ((s.lock pf).holderRepeatNr + 1) % 2 ^ 32⟩

/-- `lock_release`. -/
def lockRelease (pf : PoolFlags) : HeapM μ PUnit := do
  let s ← get
  check Fault.assert ((s.lock pf).holder = some s.running)
  if 1 < (s.lock pf).holderRepeatNr then
    modify fun s ↦ s.setLock pf ⟨(s.lock pf).holder, (s.lock pf).holderRepeatNr - 1⟩
  else
    check Fault.assert ((s.lock pf).holderRepeatNr = 1)
    modify fun s ↦ s.setLock pf ⟨none, 0⟩

/-! ## Blocks and arenas

`struct mem_block_desc` has 24 bytes: `block_size`, `block_per_arena` and `free_list`.
`struct arena` has the words `desc` and `cnt` and the byte `large`. -/

/-- The address of `descs[i]`. -/
def descAt (descs i : ℕ) : ℕ := descs + 24 * i

/-- `&desc->free_list`. -/
def freeList (desc : ℕ) : ℕ := desc + 8

/-- `arena2block`. -/
def arena2block (a idx blockSize : ℕ) : ℕ := a + arenaSize + idx * blockSize

/-- `block2arena`. -/
def block2arena (b : ℕ) : ℕ := b / 4096 * 4096

/-- The search for the block size in `sys_malloc`, from `descs[i]` on. -/
def findDesc (descs size : ℕ) : ℕ → ℕ → HeapM μ ℕ
  | 0, i => pure i
  | left + 1, i => do
    let blockSize ← loadWord (descAt descs i)
    if size ≤ blockSize then pure i else findDesc descs size left (i + 1)

/-- The loop of `sys_malloc` that cuts an arena into blocks, from block `i` on. -/
def splitArena (a : ℕ) : ℕ → ℕ → HeapM μ PUnit
  | 0, _ => pure ()
  | left + 1, i => do
    let desc ← loadWord a
    let blockSize ← loadWord desc
    let found ← elemFind (freeList desc) (arena2block a i blockSize)
    check Fault.assert (found = false)
    listAppend (freeList desc) (arena2block a i blockSize)
    splitArena a left (i + 1)

/-- The loop of `sys_free` that takes the blocks of an arena off the list, from block `i` on. -/
def unlinkArena (a : ℕ) : ℕ → ℕ → HeapM μ PUnit
  | 0, _ => pure ()
  | left + 1, i => do
    let desc ← loadWord a
    let blockSize ← loadWord desc
    let found ← elemFind (freeList desc) (arena2block a i blockSize)
    check Fault.assert (found = true)
    listRemove (arena2block a i blockSize)
    unlinkArena a left (i + 1)

/-- `a->large = large`. -/
def storeLarge (a : ℕ) (large : Bool) : HeapM μ PUnit :=
  modify fun s ↦ { s with vm := Function.update s.vm (a + 8) (if large then 1 else 0) }

/-! ## The calls -/

variable (P : Pages μ)

/-- The pool of the running thread. -/
def Pages.flag (m : μ) : PoolFlags := if P.kernelThread m then .kernel else .user

/-- The descriptors of the running thread. -/
def Pages.descs (s : HeapSys μ) : ℕ :=
  if P.kernelThread s.mem then P.kBlockDescs else P.uBlockDesc s.running

/-- The part of `sys_malloc` for more than 1024 bytes. -/
def sysMallocLarge (pf : PoolFlags) (size : ℕ) : HeapM μ (Option ℕ) := do
  let pageCnt := (size + arenaSize + pgSize - 1) / pgSize
  match ← onPages (P.mallocPage pf pageCnt) with
  | some a => do
    clear a (pageCnt * pgSize)
    storeWord a 0
    storeWord (a + 4) pageCnt
    storeLarge a true
    lockRelease pf
    pure (some (a + arenaSize))
  | none => do
    lockRelease pf
    pure none

/-- The part of `sys_malloc` that takes a block from a list that has one. -/
def sysMallocPop (pf : PoolFlags) (desc : ℕ) : HeapM μ (Option ℕ) := do
  let b ← listPop (freeList desc)
  let blockSize ← loadWord desc
  clear b blockSize
  let cnt ← loadWord (block2arena b + 4)
  storeWord (block2arena b + 4) ((cnt + 2 ^ 32 - 1) % 2 ^ 32)
  lockRelease pf
  pure (some b)

/-- The part of `sys_malloc` for at most 1024 bytes. -/
def sysMallocSmall (pf : PoolFlags) (descs size : ℕ) : HeapM μ (Option ℕ) := do
  let descIdx ← findDesc descs size descCnt 0
  let desc := descAt descs descIdx
  if ← listEmpty (freeList desc) then
    match ← onPages (P.mallocPage pf 1) with
    | none => do
      lockRelease pf
      pure none
    | some a => do
      clear a pgSize
      storeWord a desc
      storeLarge a false
      let blockPerArena ← loadWord (desc + 4)
      storeWord (a + 4) blockPerArena
      splitArena a blockPerArena 0
      sysMallocPop pf desc
  else sysMallocPop pf desc

/-- `sys_malloc`: `none` stands for `NULL`. -/
def heapMalloc (size : ℕ) : HeapM μ (Option ℕ) := do
  let s ← get
  let pf := P.flag s.mem
  if ¬(0 < size ∧ size < P.poolSize s.mem pf) then pure none
  else
    lockAcquire pf
    if 1024 < size then sysMallocLarge P pf size else sysMallocSmall P pf (P.descs s) size

/-- The part of `sys_free` for a block that is not large. -/
def sysFreeSmall (pf : PoolFlags) (a b : ℕ) : HeapM μ PUnit := do
  let desc ← loadWord a
  listAppend (freeList desc) b
  let cnt ← loadWord (a + 4)
  storeWord (a + 4) ((cnt + 1) % 2 ^ 32)
  let blockPerArena ← loadWord (desc + 4)
  if (cnt + 1) % 2 ^ 32 = blockPerArena then
    unlinkArena a blockPerArena 0
    onPages (P.mfreePage pf a 1)
  else pure ()

/-- The part of `sys_free` that holds the lock. -/
def sysFreeLocked (pf : PoolFlags) (ptr : ℕ) : HeapM μ PUnit := do
  let a := block2arena ptr
  let s ← get
  check Fault.assert (s.vm (a + 8) = 0 ∨ s.vm (a + 8) = 1)
  let desc ← loadWord a
  if desc = 0 ∧ s.vm (a + 8) = 1 then
    let cnt ← loadWord (a + 4)
    onPages (P.mfreePage pf a cnt)
  else sysFreeSmall P pf a ptr

/-- `sys_free`. -/
def heapFree (ptr : ℕ) : HeapM μ PUnit := do
  check Fault.assert (ptr ≠ 0)
  let s ← get
  let pf := P.flag s.mem
  check Fault.assert (pf = .kernel → 0xc0100000 ≤ ptr)
  lockAcquire pf
  sysFreeLocked P pf ptr
  lockRelease pf

end GlowOS
