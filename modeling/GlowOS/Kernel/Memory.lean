import Mathlib
import GlowOS.Kernel.Bitmap
import GlowOS.Kernel.Debug
import GlowOS.Lib.Paging
import GlowOS.Lib.Program

/-!
# Pages

The page level of `kernel/memory.c`: the two pools of frames, the virtual addresses handed out, and
the page tables. The kernel reads and writes memory through the page tables that it changes, so the
state holds physical memory by byte, and every access to a virtual address is translated there; an
access to a page that is not mapped stops the program.

The bitmaps are kept apart from physical memory. What the translation of an address was before a
page table was changed is not remembered.
-/

namespace GlowOS

open Bytes Paging Program

/-! ## Data -/

/-- `PG_SIZE`. -/
abbrev pgSize : ℕ := 4096

/-- `enum pool_flags`. -/
inductive PoolFlags
  | kernel
  | user
  deriving DecidableEq, Repr

/-- `struct pool`, without the lock. -/
structure Pool where
  poolBitmap : Bitmap
  phyAddrStart : ℕ
  poolSize : ℕ

/-- `struct virtual_addr`. -/
structure VirtualAddr where
  vaddrBitmap : Bitmap
  vaddrStart : ℕ

/-- Physical memory, the directory in use, the pools, and the fields `pgdir` and `userprog_vaddr` of
the running thread. -/
structure Machine where
  phys : Image
  cr3 : ℕ
  kernelPool : Pool
  userPool : Pool
  kernelVaddr : VirtualAddr
  pgdir : Option ℕ
  userprogVaddr : VirtualAddr

/-- Programs over memory. -/
abbrev MemM := StateT Machine (Except Fault)

namespace Machine

/-- What a virtual address is translated to. -/
def walk (m : Machine) (va : ℕ) : Option ℕ := Paging.walk m.phys m.cr3 va

/-- The directory entry of an address, and the place of its page-table entry. -/
def pde (m : Machine) (va : ℕ) : ℕ := le32 m.phys (pdeAddr m.cr3 va)

@[inherit_doc pde] def pteAddr (m : Machine) (va : ℕ) : ℕ := Paging.pteAddr m.phys m.cr3 va

/-- The translation of an address reads the word at `a`. -/
def Reads (m : Machine) (va a : ℕ) : Prop := Paging.Reads m.phys m.cr3 va a

/-- The pool of a flag. -/
def pool (m : Machine) : PoolFlags → Pool
  | .kernel => m.kernelPool
  | .user => m.userPool

/-- Assign the bitmap of a pool. -/
def setPoolBitmap (m : Machine) (b : Bitmap) : PoolFlags → Machine
  | .kernel => { m with kernelPool := { m.kernelPool with poolBitmap := b } }
  | .user => { m with userPool := { m.userPool with poolBitmap := b } }

/-- The virtual addresses of a flag. -/
def vaddr (m : Machine) : PoolFlags → VirtualAddr
  | .kernel => m.kernelVaddr
  | .user => m.userprogVaddr

/-- Assign the bitmap of virtual addresses. -/
def setVaddrBitmap (m : Machine) (b : Bitmap) : PoolFlags → Machine
  | .kernel => { m with kernelVaddr := { m.kernelVaddr with vaddrBitmap := b } }
  | .user => { m with userprogVaddr := { m.userprogVaddr with vaddrBitmap := b } }

end Machine

/-- Frame `i` of a pool. -/
def Pool.frameAddr (p : Pool) (i : ℕ) : ℕ := i * pgSize + p.phyAddrStart

/-! ## Access to memory -/

/-- The physical address of a virtual one. -/
def translate (va : ℕ) : MemM ℕ := do
  let m ← get
  match m.walk va with
  | none => throw Fault.bounds
  | some pa => pure pa

/-- Read the aligned word at a virtual address. -/
def readWord (va : ℕ) : MemM ℕ := do
  let pa ← translate va
  let m ← get
  pure (le32 m.phys pa)

/-- Write the aligned word at a virtual address. -/
def writeWord (va w : ℕ) : MemM PUnit := do
  let pa ← translate va
  modify fun m ↦ { m with phys := setWord m.phys pa w }

/-- Write a byte. -/
def writeByte (va : ℕ) (x : UInt8) : MemM PUnit := do
  let pa ← translate va
  modify fun m ↦ { m with phys := Function.update m.phys pa x }

/-- The loop of `memset`. -/
def fill (x : UInt8) : ℕ → ℕ → MemM PUnit
  | _, 0 => pure ()
  | va, n + 1 => do
    writeByte va x
    fill x (va + 1) n

/-- `memset`. -/
def memset (va : ℕ) (x : UInt8) (n : ℕ) : MemM PUnit := do
  check Fault.assert (va ≠ 0)
  fill x va n

/-! ## Frames and page tables -/

/-- `pte_ptr`. -/
def ptePtr (va : ℕ) : ℕ := 0xffc00000 + va / 2 ^ 22 * 2 ^ 12 + pteIdx va * 4

/-- `pde_ptr`. -/
def pdePtr (va : ℕ) : ℕ := 0xfffff000 + pdeIdx va * 4

/-- `palloc`: `none` stands for `NULL`. -/
def palloc (pf : PoolFlags) : MemM (Option ℕ) := do
  let m ← get
  match (m.pool pf).poolBitmap.scan 1 with
  | none => pure none
  | some i => do
    modify fun m ↦ m.setPoolBitmap ((m.pool pf).poolBitmap.set i true) pf
    pure (some ((m.pool pf).frameAddr i))

/-- `PG_US_U | PG_RW_W | PG_P_1` with a physical address. -/
def entry (pa : ℕ) : ℕ := pa ||| 7

/-- `page_table_add`. -/
def pageTableAdd (va pa : ℕ) : MemM PUnit := do
  let pde ← readWord (pdePtr va)
  if present pde then
    let pte ← readWord (ptePtr va)
    check Fault.assert (present pte = false)
    writeWord (ptePtr va) (entry pa)
  else
    let r ← palloc .kernel
    writeWord (pdePtr va) (entry (r.getD 0))
    memset (ptePtr va / 4096 * 4096) 0 pgSize
    let pte ← readWord (ptePtr va)
    check Fault.assert (present pte = false)
    writeWord (ptePtr va) (entry pa)

/-- `addr_v2p`. -/
def addrV2p (va : ℕ) : MemM ℕ := do
  let pte ← readWord (ptePtr va)
  pure (frame pte + va % 4096)

/-- `page_table_pte_remove`. -/
def pageTablePteRemove (va : ℕ) : MemM PUnit := do
  let pte ← readWord (ptePtr va)
  writeWord (ptePtr va) (pte - pte % 2)

/-- `pfree`. -/
def pfree (pa : ℕ) : MemM PUnit := do
  let m ← get
  if m.userPool.phyAddrStart ≤ pa then
    modify fun m ↦ m.setPoolBitmap
      (m.userPool.poolBitmap.set ((pa - m.userPool.phyAddrStart) / pgSize) false) .user
  else
    modify fun m ↦ m.setPoolBitmap
      (m.kernelPool.poolBitmap.set ((pa - m.kernelPool.phyAddrStart) / pgSize) false) .kernel

/-! ## Ranges of pages -/

/-- `vaddr_get`: `none` stands for `NULL`. -/
def vaddrGet (pf : PoolFlags) (n : ℕ) : MemM (Option ℕ) := do
  let m ← get
  match (m.vaddr pf).vaddrBitmap.scan n with
  | none => pure none
  | some i => do
    modify fun m ↦ m.setVaddrBitmap ((m.vaddr pf).vaddrBitmap.setRun i n true) pf
    let va := (m.vaddr pf).vaddrStart + i * pgSize
    check Fault.assert (pf = .user → va < 0xc0000000 - pgSize)
    pure (some va)

/-- The loop of `malloc_page`: whether all pages got a frame. -/
def mapPages (pf : PoolFlags) : ℕ → ℕ → MemM Bool
  | _, 0 => pure true
  | va, n + 1 => do
    match ← palloc pf with
    | none => pure false
    | some pa => do
      pageTableAdd va pa
      mapPages pf (va + pgSize) n

/-- `malloc_page`: `none` stands for `NULL`. -/
def mallocPage (pf : PoolFlags) (n : ℕ) : MemM (Option ℕ) := do
  check Fault.assert (0 < n ∧ n < 3840)
  match ← vaddrGet pf n with
  | none => pure none
  | some va => do
    let ok ← mapPages pf va n
    pure (if ok then some va else none)

/-- `vaddr_remove`. -/
def vaddrRemove (pf : PoolFlags) (va n : ℕ) : MemM PUnit :=
  modify fun m ↦ m.setVaddrBitmap
    ((m.vaddr pf).vaddrBitmap.setRun ((va - (m.vaddr pf).vaddrStart) / pgSize) n false) pf

/-- The two loops of `mfree_page`; `ok` is what the assertion says of a physical address. -/
def unmapPages (ok : Machine → ℕ → Bool) : ℕ → ℕ → MemM PUnit
  | _, 0 => pure ()
  | va, n + 1 => do
    let pa ← addrV2p va
    let m ← get
    check Fault.assert (pa % pgSize = 0 ∧ ok m pa = true)
    pfree pa
    pageTablePteRemove va
    unmapPages ok (va + pgSize) n

/-- `mfree_page`. -/
def mfreePage (pf : PoolFlags) (va n : ℕ) : MemM PUnit := do
  check Fault.assert (1 ≤ n ∧ va % pgSize = 0)
  let pa ← addrV2p va
  check Fault.assert (pa % pgSize = 0 ∧ 0x102000 ≤ pa)
  let m ← get
  if m.userPool.phyAddrStart ≤ pa then
    unmapPages (fun m pa ↦ m.userPool.phyAddrStart ≤ pa) va n
    vaddrRemove pf va n
  else
    unmapPages (fun m pa ↦ m.kernelPool.phyAddrStart ≤ pa ∧ pa < m.userPool.phyAddrStart) va n
    vaddrRemove pf va n

/-- `get_kernel_pages`. -/
def getKernelPages (n : ℕ) : MemM (Option ℕ) := do
  match ← mallocPage .kernel n with
  | none => pure none
  | some va => do
    memset va 0 (n * pgSize)
    pure (some va)

/-- `mem_pool_init`, for a memory of `allMem` bytes. -/
def memPoolInit (allMem : ℕ) : MemM PUnit := do
  let usedMem := pgSize * 256 + 0x100000
  let freeMem := (allMem + 2 ^ 32 - usedMem) % 2 ^ 32
  let allFreePages := freeMem / pgSize % 2 ^ 16
  let kernelFreePages := allFreePages / 2
  let userFreePages := allFreePages - kernelFreePages
  let kbmLength := kernelFreePages / 8
  let ubmLength := userFreePages / 8
  let upStart := usedMem + kernelFreePages * pgSize
  let clear (b : Bitmap) (len : ℕ) : Bitmap :=
    ⟨len, splice b.bits 0 len fun _ ↦ 0⟩
  modify fun m ↦
    { m with
      kernelPool := ⟨clear m.kernelPool.poolBitmap kbmLength, usedMem, kernelFreePages * pgSize⟩
      userPool := ⟨clear m.userPool.poolBitmap ubmLength, upStart, userFreePages * pgSize⟩
      kernelVaddr := ⟨clear m.kernelVaddr.vaddrBitmap kbmLength, 0xc0100000⟩ }

end GlowOS
