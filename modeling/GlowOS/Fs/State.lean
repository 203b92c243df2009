import Mathlib
import GlowOS.Kernel.Bitmap
import GlowOS.Kernel.Debug
import GlowOS.Lib.Bytes
import GlowOS.Lib.Links
import GlowOS.Lib.Program

/-!
# The state of the file system

The objects that the files under `fs/` share, and the services they are built on.

## What a call can do

Every function of the source is a program over the state that returns or stops at a `Fault`: a
failed `ASSERT` (`panic_spin` never returns), an access outside an object, an access through a null
pointer, the use of a variable that was never written, or a loop that does not end. A call that
stops leaves no state behind.

## What is outside

`Env` collects what the file system relies on and does not define: the geometry of the mounted
partition, and the answers of the heap. An answer is any block that is not live; which one, and when
the heap is exhausted, is left open, so a statement about all environments covers every behaviour
of `sys_malloc`. A block is known by its address; the addresses of the kernel pool start at
`kHeapStart`, those of the pool of user processes lie below it.

Blocks freed by `inode_close` stay linked in `open_inodes`. Their first two words, `i_no` and
`i_size` of the inode that was there, then hold the links of the heap's free list, which are
addresses and so match no inode number; `Env.freeLink` supplies them. The ghost field `stale` of the
state marks these blocks.
-/

namespace GlowOS

open Bytes

/-! ## Constants

Sectors and blocks have 512 bytes (`SECTOR_SIZE`, `BLOCK_SIZE`), a `struct inode` has 76 and a
`struct dir_entry` 24. These sizes are written out below. -/

/-- `max_lba` of `device/ide.c`. -/
def maxLba : ℕ := 80 * 1024 * 1024 / 512 - 1

/-- `MAX_FILE_OPEN`. -/
abbrev maxFileOpen : ℕ := 32

/-- `MAX_FILES_OPEN_PER_PROC`. -/
abbrev maxFilesOpenPerProc : ℕ := 8

/-- `MAX_FILE_NAME_LEN`. -/
abbrev maxFileNameLen : ℕ := 16

/-- `K_HEAP_START`. -/
abbrev kHeapStart : ℕ := 0xc0100000

/-- `USER_VADDR_START`, the least address either heap hands out. -/
abbrev userVaddrStart : ℕ := 0x8048000

/-- The two sentinels of `open_inodes`, which lie inside `struct partition`. -/
abbrev openHead : ℕ := 1

@[inherit_doc openHead] abbrev openTail : ℕ := 2

/-! ## Data -/

/-- `struct super_block`. -/
structure SuperBlock where
  magic : ℕ
  secCnt : ℕ
  inodeCnt : ℕ
  partLbaBase : ℕ
  blockBitmapLba : ℕ
  blockBitmapSects : ℕ
  inodeBitmapLba : ℕ
  inodeBitmapSects : ℕ
  inodeTableLba : ℕ
  inodeTableSects : ℕ
  dataStartLba : ℕ
  rootInodeNo : ℕ
  dirEntrySize : ℕ

/-- The fields of `struct partition` that do not change after mounting. -/
structure Partition where
  startLba : ℕ
  secCnt : ℕ
  sb : SuperBlock

/-- `struct inode`, without the list element. -/
structure Inode where
  iNo : ℕ
  iSize : ℕ
  iOpenCnts : ℕ
  writeDeny : Bool
  /-- Twelve direct blocks and, at index 12, the indirect table. -/
  iSectors : ℕ → ℕ

/-- `struct file`. -/
structure File where
  fdPos : ℕ
  fdFlag : ℕ
  fdInode : Option ℕ

/-- `struct dir`: the address of its inode, and its own heap block; `root_dir` is static. -/
structure Dir where
  inode : ℕ
  block : Option ℕ

/-- The fields of `struct task_struct` that the file system uses. `pgdir` is null for a kernel
thread. -/
structure Task where
  fdTable : ℕ → ℤ
  pgdir : Option ℕ

/-- What a live heap block is used for. -/
inductive Blk
  | buffer
  | inode
  | dir
  deriving DecidableEq, Repr

/-- The state of the mounted file system. -/
structure Fs where
  /-- The contents of the disk, by byte. -/
  disk : Image
  blockBitmap : Bitmap
  inodeBitmap : Bitmap
  /-- The contents of the `struct inode` at an address. -/
  inode : ℕ → Inode
  /-- The list elements of these inodes and the sentinels of `open_inodes`. -/
  tags : Links ℕ
  /-- The live heap blocks. -/
  heap : ℕ → Option Blk
  /-- The blocks that `inode_close` freed (ghost). -/
  stale : ℕ → Bool
  /-- How often the heap was asked (ghost). -/
  tick : ℕ
  fileTable : ℕ → File
  tasks : ℕ → Task
  running : ℕ
  /-- `root_dir.inode`. -/
  rootInode : ℕ

/-- What the file system relies on. -/
structure Env where
  part : Partition
  /-- The answer of `sys_malloc`: the number of the request, the blocks that are live or stale,
  whether the caller counts as a kernel thread, and the size. -/
  malloc : ℕ → (ℕ → Option Blk) → (ℕ → Bool) → Bool → ℕ → Option ℕ
  /-- The links the heap writes into the first two words of a block that is given back. -/
  freeLink : ℕ → ℕ × ℕ
  malloc_fresh : ∀ {t h st k n a}, malloc t h st k n = some a → h a = none
  malloc_ge : ∀ {t h st k n a}, malloc t h st k n = some a → userVaddrStart ≤ a
  malloc_kernel : ∀ {t h st k n a}, malloc t h st k n = some a → (k = true ↔ kHeapStart ≤ a)
  freeLink_ge : ∀ t, userVaddrStart ≤ (freeLink t).1

/-- Programs over the file system. -/
abbrev FsM := StateT Fs (Except Fault)

/-- `ASSERT`. -/
abbrev ASSERT (p : Prop) [Decidable p] : FsM PUnit := Program.check Fault.assert p

/-- An access that is legal only if `p` holds. -/
abbrev inBounds (p : Prop) [Decidable p] : FsM PUnit := Program.check Fault.bounds p

/-! ## The heap -/

/-- All fields zero, as `sys_malloc` leaves a block. -/
def Inode.zero : Inode := ⟨0, 0, 0, false, fun _ ↦ 0⟩

/-- The calling thread. -/
def Fs.cur (s : Fs) : Task := s.tasks s.running

/-- The state after the heap answered with the block `a`, which it clears. -/
def Fs.alloc (s : Fs) (a : ℕ) (k : Blk) : Fs :=
  { s with
    tick := s.tick + 1
    heap := Function.update s.heap a (some k)
    stale := Function.update s.stale a false
    inode := Function.update s.inode a Inode.zero
    tags := ⟨Function.update s.tags.prev a 0, Function.update s.tags.next a 0⟩ }

/-- `sys_malloc`, for a block used as `k`. -/
def sysMalloc (E : Env) (k : Blk) (size : ℕ) : FsM (Option ℕ) := do
  let s ← get
  match E.malloc s.tick s.heap s.stale s.cur.pgdir.isNone size with
  | none => modify fun s ↦ { s with tick := s.tick + 1 }
            pure none
  | some a => modify fun s ↦ s.alloc a k
              pure (some a)

/-- `sys_malloc` where the source uses the result without a null check. -/
def sysMallocUnchecked (E : Env) (k : Blk) (size : ℕ) : FsM ℕ := do
  match ← sysMalloc E k size with
  | none => throw Fault.null
  | some a => pure a

/-- The state after the block `a` was given back. -/
def Fs.free (E : Env) (s : Fs) (a : ℕ) : Fs :=
  { s with
    tick := s.tick + 1
    heap := Function.update s.heap a none
    inode := Function.update s.inode a
      { s.inode a with iNo := (E.freeLink s.tick).1, iSize := (E.freeLink s.tick).2 } }

/-- `sys_free`. A kernel thread may only give back blocks of the kernel pool. -/
def sysFree (E : Env) (a : ℕ) : FsM PUnit := do
  let s ← get
  ASSERT (s.cur.pgdir = none → kHeapStart ≤ a)
  modify fun s ↦ s.free E a

/-- Assign `cur->pgdir`. -/
@[simps -fullyApplied] def Fs.setPgdir (s : Fs) (pgdir : Option ℕ) : Fs :=
  { s with tasks := Function.update s.tasks s.running { s.cur with pgdir := pgdir } }

/-- Run `m` with `cur->pgdir` set to null and put it back afterwards. -/
def withKernelPgdir {α : Type} (m : FsM α) : FsM α := do
  let s ← get
  let back := s.cur.pgdir
  modify fun s ↦ s.setPgdir none
  let r ← m
  modify fun s ↦ s.setPgdir back
  pure r

/-! ## The disk -/

/-- The state after `n` bytes were written to the disk at offset `o`. -/
@[simps -fullyApplied] def Fs.store (s : Fs) (o n : ℕ) (g : Image) : Fs := { s with disk := splice s.disk o n g }

/-- `ide_read` of `secCnt` sectors into a buffer with `room` bytes: the bytes transferred. -/
def ideRead (lba room secCnt : ℕ) : FsM Image := do
  ASSERT (lba ≤ maxLba)
  ASSERT (0 < secCnt)
  Program.check Fault.overrun (512 * secCnt ≤ room)
  ASSERT (lba + (secCnt - 1) / 256 * 256 ≤ maxLba)
  let s ← get
  pure fun i ↦ s.disk (512 * lba + i)

/-- `ide_write` of `secCnt` sectors from a buffer with `room` bytes. -/
def ideWrite (lba room secCnt : ℕ) (buf : Image) : FsM PUnit := do
  ASSERT (lba ≤ maxLba)
  ASSERT (0 < secCnt)
  Program.check Fault.overrun (512 * secCnt ≤ room)
  ASSERT (lba + (secCnt - 1) / 256 * 256 ≤ maxLba)
  modify fun s ↦ s.store (512 * lba) (512 * secCnt) buf

/-! ## A heap that never reuses an address -/

/-- Page `t` of the kernel pool, or of the pool of user processes. -/
def bumpAddr (t : ℕ) (k : Bool) : ℕ :=
  if k then kHeapStart + 4096 * t else userVaddrStart + 4096 * (t % 2 ^ 16)

theorem bumpAddr_ge (t : ℕ) (k : Bool) : userVaddrStart ≤ bumpAddr t k := by
  rw [bumpAddr, kHeapStart, userVaddrStart]
  split_ifs <;> omega

theorem bumpAddr_kernel (t : ℕ) (k : Bool) : k = true ↔ kHeapStart ≤ bumpAddr t k := by
  rw [bumpAddr, kHeapStart, userVaddrStart]
  cases k with
  | true => simp
  | false =>
    have := Nat.mod_lt t (show 0 < 2 ^ 16 by decide)
    simp only [Bool.false_eq_true, if_false, false_iff]
    omega

/-- The environment whose heap answers the request number `t` with page `t` of the pool. -/
def Env.bump (part : Partition) : Env where
  part := part
  malloc t h _ k _ := if h (bumpAddr t k) = none then some (bumpAddr t k) else none
  freeLink _ := (kHeapStart, kHeapStart)
  malloc_fresh := by
    intro t h st k n a ha
    obtain ⟨hnone, ⟨⟩⟩ := Option.ite_none_right_eq_some.mp ha
    exact hnone
  malloc_ge := by
    intro t h st k n a ha
    obtain ⟨-, ⟨⟩⟩ := Option.ite_none_right_eq_some.mp ha
    exact bumpAddr_ge t k
  malloc_kernel := by
    intro t h st k n a ha
    obtain ⟨-, ⟨⟩⟩ := Option.ite_none_right_eq_some.mp ha
    exact bumpAddr_kernel t k
  freeLink_ge _ := by decide

/-- A kernel thread on an empty disk, with an empty cache. -/
def Fs.blank : Fs where
  disk _ := 0
  blockBitmap := ⟨0, fun _ ↦ 0⟩
  inodeBitmap := ⟨0, fun _ ↦ 0⟩
  inode _ := Inode.zero
  tags := ⟨fun _ ↦ openHead, fun _ ↦ openTail⟩
  heap _ := none
  stale _ := false
  tick := 0
  fileTable _ := ⟨0, 0, none⟩
  tasks _ := ⟨fun _ ↦ -1, none⟩
  running := 0
  rootInode := 0

/-! ## What the services do -/

section Services

open Program

variable {E : Env} {s s' : Fs}

/-- The answer of the heap to the next request of the calling thread. -/
def Fs.answer (E : Env) (s : Fs) (size : ℕ) : Option ℕ :=
  E.malloc s.tick s.heap s.stale s.cur.pgdir.isNone size

/-- The state after the heap answered `r`. -/
def Fs.answered (s : Fs) (k : Blk) : Option ℕ → Fs
  | none => { s with tick := s.tick + 1 }
  | some a => s.alloc a k

theorem returns_sysMalloc {k : Blk} {size : ℕ} {r : Option ℕ} :
    Returns (sysMalloc E k size) s r s' ↔ r = s.answer E size ∧ s' = s.answered k r := by
  rw [sysMalloc, returns_get_bind]
  change Returns (match s.answer E size with | none => _ | some a => _) s r s' ↔ _
  cases s.answer E size with
  | none =>
    simp only [returns_modify_bind, returns_pure]
    constructor
    · rintro ⟨rfl, rfl⟩
      exact ⟨rfl, rfl⟩
    · rintro ⟨rfl, rfl⟩
      exact ⟨rfl, rfl⟩
  | some a =>
    simp only [returns_modify_bind, returns_pure]
    constructor
    · rintro ⟨rfl, rfl⟩
      exact ⟨rfl, rfl⟩
    · rintro ⟨rfl, rfl⟩
      exact ⟨rfl, rfl⟩

theorem returns_sysMallocUnchecked {k : Blk} {size a : ℕ} :
    Returns (sysMallocUnchecked E k size) s a s' ↔
      s.answer E size = some a ∧ s' = s.alloc a k := by
  simp only [sysMallocUnchecked, returns_bind, returns_sysMalloc]
  constructor
  · rintro ⟨r, t, ⟨rfl, rfl⟩, h⟩
    cases hr : s.answer E size with
    | none =>
      rw [hr] at h
      exact absurd h returns_throw
    | some b =>
      rw [hr] at h
      obtain ⟨rfl, rfl⟩ := returns_pure.mp h
      exact ⟨rfl, rfl⟩
  · rintro ⟨hr, rfl⟩
    exact ⟨some a, s.alloc a k, ⟨hr.symm, rfl⟩, returns_pure.mpr ⟨rfl, rfl⟩⟩

theorem returns_sysFree {a : ℕ} {u : PUnit} :
    Returns (sysFree E a) s u s' ↔
      (s.cur.pgdir = none → kHeapStart ≤ a) ∧ s' = s.free E a := by
  simp only [sysFree, returns_get_bind, returns_check_bind, returns_modify]

@[simp] theorem Fs.setPgdir_cur (s : Fs) (p : Option ℕ) : (s.setPgdir p).cur.pgdir = p := by
  simp [Fs.setPgdir, Fs.cur]

theorem returns_withKernelPgdir {α : Type} {m : FsM α} {r : α} :
    Returns (withKernelPgdir m) s r s' ↔
      ∃ t, Returns m (s.setPgdir none) r t ∧ s' = t.setPgdir s.cur.pgdir := by
  rw [withKernelPgdir, returns_get_bind, returns_modify_bind, returns_bind]
  constructor
  · rintro ⟨a, t, h, h'⟩
    rw [returns_modify_bind, returns_pure] at h'
    obtain ⟨rfl, rfl⟩ := h'
    exact ⟨t, h, rfl⟩
  · rintro ⟨t, h, rfl⟩
    refine ⟨r, t, h, ?_⟩
    rw [returns_modify_bind, returns_pure]
    exact ⟨rfl, rfl⟩

/-- Clearing and restoring `pgdir` leaves the tasks as they were. -/
theorem Fs.tasks_setPgdir_back (s : Fs) :
    Function.update (Function.update s.tasks s.running { s.cur with pgdir := none }) s.running
      { s.cur with pgdir := s.cur.pgdir } = s.tasks := by
  rw [Function.update_idem]
  exact Function.update_eq_self ..

/-- A block for the kernel pool, whoever the caller is. -/
theorem returns_malloc_kernel {k : Blk} {size a : ℕ} :
    Returns (withKernelPgdir (sysMallocUnchecked E k size)) s a s' ↔
      E.malloc s.tick s.heap s.stale true size = some a ∧ s' = s.alloc a k := by
  rw [returns_withKernelPgdir]
  have hans : (s.setPgdir none).answer E size = E.malloc s.tick s.heap s.stale true size := by
    rw [Fs.answer, Fs.setPgdir_cur]
    rfl
  have hback : ((s.setPgdir none).alloc a k).setPgdir s.cur.pgdir = s.alloc a k := by
    have htasks : ((s.setPgdir none).alloc a k).setPgdir s.cur.pgdir
        = { s.alloc a k with tasks := Function.update (Function.update s.tasks s.running
              { s.cur with pgdir := none }) s.running { s.cur with pgdir := s.cur.pgdir } } := by
      simp only [Fs.setPgdir, Fs.alloc, Fs.cur, Function.update_self]
    rw [htasks, Fs.tasks_setPgdir_back]
    rfl
  constructor
  · rintro ⟨t, h, rfl⟩
    obtain ⟨h1, rfl⟩ := returns_sysMallocUnchecked.mp h
    exact ⟨hans ▸ h1, hback⟩
  · rintro ⟨h1, rfl⟩
    exact ⟨_, returns_sysMallocUnchecked.mpr ⟨hans.trans h1, rfl⟩, hback.symm⟩

/-- A block is given back to the kernel pool, whoever the caller is. -/
theorem returns_free_kernel {a : ℕ} {u : PUnit} :
    Returns (withKernelPgdir (sysFree E a)) s u s' ↔ kHeapStart ≤ a ∧ s' = s.free E a := by
  rw [returns_withKernelPgdir]
  have hback : ((s.setPgdir none).free E a).setPgdir s.cur.pgdir = s.free E a := by
    have htasks : ((s.setPgdir none).free E a).setPgdir s.cur.pgdir
        = { s.free E a with tasks := Function.update (Function.update s.tasks s.running
              { s.cur with pgdir := none }) s.running { s.cur with pgdir := s.cur.pgdir } } := by
      simp only [Fs.setPgdir, Fs.free, Fs.cur, Function.update_self]
    rw [htasks, Fs.tasks_setPgdir_back]
    rfl
  constructor
  · rintro ⟨t, h, rfl⟩
    obtain ⟨h1, rfl⟩ := returns_sysFree.mp h
    exact ⟨h1 (Fs.setPgdir_cur s none), hback⟩
  · rintro ⟨h1, rfl⟩
    exact ⟨_, returns_sysFree.mpr ⟨fun _ ↦ h1, rfl⟩, hback.symm⟩

end Services

end GlowOS
