import Mathlib
import GlowOS.Fs.CacheInv

/-!
# Formatting and mounting

`partition_format`, `mount_partition` and the rest of `filesys_init` for the partition that is
mounted. The super block is a field of `Env`; what is read here is the two bitmaps and, by
`open_root_dir`, the inode of the root directory.

`Fs.FreshlyMounted` describes what these leave in memory, and `freshlyMounted_of_init` says so.
-/

namespace GlowOS

open Bytes Program

/-! ## Formatting -/

/-- The words of a super block. -/
def SuperBlock.word (sb : SuperBlock) (k : ℕ) : ℕ :=
  [sb.magic, sb.secCnt, sb.inodeCnt, sb.partLbaBase, sb.blockBitmapLba, sb.blockBitmapSects,
    sb.inodeBitmapLba, sb.inodeBitmapSects, sb.inodeTableLba, sb.inodeTableSects, sb.dataStartLba,
    sb.rootInodeNo, sb.dirEntrySize].getD k 0

/-- The block bitmap on disk. The bits behind the data area are set, but the loop that clears the
valid bits of the last byte clears one more. -/
def formatBlockBitmap (secCnt : ℕ) : Image :=
  let lastByte := blockBitmapBitLen secCnt / 8
  let lastBit := blockBitmapBitLen secCnt % 8
  let lastSize := 512 - lastByte % 512
  let buf := splice (fun i ↦ if i = 0 then 1 else 0) lastByte lastSize fun _ ↦ 0xff
  Function.update buf lastByte
    ((List.range (lastBit + 1)).foldl (fun byte j ↦ byte &&& UInt8.ofNat (255 ^^^ 1 <<< j))
      (buf lastByte))

/-- The inode bitmap on disk. -/
def formatInodeBitmap : Image := fun i ↦ if i = 0 then 1 else 0

/-- The inode of the root directory on disk. -/
def formatRootInode (E : Env) : Inode :=
  (Inode.zero.setSector 0 E.part.sb.dataStartLba).grow (E.part.sb.dirEntrySize * 2)

/-- The size of the buffer that `partition_format` works with. -/
def formatBufSize (sb : SuperBlock) : ℕ :=
  max (max sb.blockBitmapSects sb.inodeBitmapSects) sb.inodeTableSects * 512

/-- `partition_format`. -/
def partitionFormat (E : Env) : FsM PUnit := do
  let sb := E.part.sb
  ideWrite (E.part.startLba + 1) 512 1 (ofWords sb.word)
  let buf ← sysMallocUnchecked E Blk.buffer (formatBufSize sb)
  inBounds (blockBitmapBitLen E.part.secCnt / 8 + 512 ≤ formatBufSize sb)
  ideWrite sb.blockBitmapLba (formatBufSize sb) sb.blockBitmapSects
    (formatBlockBitmap E.part.secCnt)
  ideWrite sb.inodeBitmapLba (formatBufSize sb) sb.inodeBitmapSects formatInodeBitmap
  ideWrite sb.inodeTableLba (formatBufSize sb) sb.inodeTableSects
    (splice (fun _ ↦ 0) 0 76 (formatRootInode E).encode)
  ideWrite sb.dataStartLba (formatBufSize sb) 1 (dotEntries 0 0)
  sysFree E buf

/-! ## Mounting -/

/-- `sys_malloc` where the source panics without memory. -/
def sysMallocPanic (E : Env) (size : ℕ) : FsM PUnit := do
  let r ← sysMalloc E Blk.buffer size
  ASSERT (r ≠ none)

/-- `list_init` on `open_inodes`. -/
def Fs.initOpen (s : Fs) : Fs :=
  { s with
    tags := ⟨Function.update (Function.update s.tags.prev openHead 0) openTail openHead,
      Function.update (Function.update s.tags.next openTail 0) openHead openTail⟩ }

/-- `mount_partition`, for the partition to be mounted. -/
def mountPartition (E : Env) : FsM PUnit := do
  let sb := E.part.sb
  sysMallocPanic E 512
  let _ ← ideRead (E.part.startLba + 1) 512 1
  sysMallocPanic E (sb.blockBitmapSects * 512)
  let bits ← ideRead sb.blockBitmapLba (sb.blockBitmapSects * 512) sb.blockBitmapSects
  modify fun s ↦ { s with blockBitmap := ⟨sb.blockBitmapSects * 512, bits⟩ }
  sysMallocPanic E (sb.inodeBitmapSects * 512)
  let bits ← ideRead sb.inodeBitmapLba (sb.inodeBitmapSects * 512) sb.inodeBitmapSects
  modify fun s ↦ { s with inodeBitmap := ⟨sb.inodeBitmapSects * 512, bits⟩ }
  modify Fs.initOpen

/-- `filesys_init`, for a partition without a file system. -/
def filesysInit (E : Env) : FsM PUnit := do
  partitionFormat E
  mountPartition E
  openRootDir E
  modify fun s ↦ { s with fileTable := fun f ↦ { s.fileTable f with fdInode := none } }

/-! ## What mounting leaves behind -/

/-- The root directory is open, in a block of the kernel pool, and nothing else is. -/
structure Fs.FreshlyMounted (s : Fs) : Prop where
  openInodes : s.tags.IsList openHead openTail [s.rootInode]
  rootLive : s.heap s.rootInode = some Blk.inode
  rootKernel : kHeapStart ≤ s.rootInode
  files : ∀ f, (s.fileTable f).fdInode = none

section Mounting

variable {E : Env} {s s' : Fs} {u : PUnit}

/-- `list_init`. -/
theorem isList_initOpen (s : Fs) : s.initOpen.tags.IsList openHead openTail [] := by
  refine Links.isList_nil (by decide) ?_ ?_
  · exact Function.update_self openHead openTail (Function.update s.tags.next openTail 0)
  · exact Function.update_self openTail openHead (Function.update s.tags.prev openHead 0)

theorem mountPartition_list (h : Returns (mountPartition E) s u s') :
    s'.tags.IsList openHead openTail [] := by
  obtain ⟨u₁, t₁, -, h⟩ := returns_bind.mp h
  obtain ⟨b₁, t₂, -, h⟩ := returns_bind.mp h
  obtain ⟨u₂, t₃, -, h⟩ := returns_bind.mp h
  obtain ⟨b₂, t₄, -, h⟩ := returns_bind.mp h
  rw [returns_modify_bind] at h
  obtain ⟨u₃, t₅, -, h⟩ := returns_bind.mp h
  obtain ⟨b₃, t₆, -, h⟩ := returns_bind.mp h
  rw [returns_modify_bind, returns_modify] at h
  subst h
  exact isList_initOpen _

/-- The root directory is the first inode in memory. -/
theorem openRootDir_list (hl : s.tags.IsList openHead openTail [])
    (h : Returns (openRootDir E) s u s') :
    s'.tags.IsList openHead openTail [s'.rootInode] ∧ s'.heap s'.rootInode = some Blk.inode ∧
      kHeapStart ≤ s'.rootInode := by
  obtain ⟨a, t, h1, h⟩ := returns_bind.mp h
  rw [returns_modify] at h
  subst h
  rcases returns_inodeOpen.mp h1 with ⟨hfind, -⟩ | ⟨-, hload⟩
  · cases hl.find_eq hfind
  · obtain ⟨-, -, ha, b, hb, rfl⟩ := returns_inodeLoad.mp hload
    have hba : b ≠ a := by
      rintro rfl
      have hlive : (s.alloc b Blk.inode).heap b = some Blk.inode := Function.update_self ..
      cases hlive.symm.trans (E.malloc_fresh hb)
    -- the list is empty, so no block that is touched is a member
    have h₀ : CacheInv s [] := ⟨hl, nofun, nofun, nofun⟩
    have h₁ := (h₀.alloc (k := Blk.inode) List.not_mem_nil (E.malloc_ge ha)).alloc
      (k := Blk.buffer) List.not_mem_nil (E.malloc_ge hb)
    set v := (s.alloc a Blk.inode).alloc b Blk.buffer with hv
    set img : Image := fun i ↦ s.disk (512 * (inodePosition E E.part.sb.rootInodeNo).secLba + i)
    set o := (inodePosition E E.part.sb.rootInodeNo).offSize
    have h₂ : CacheInv (v.loadInode a img o) [] :=
      h₁.of_notMem List.not_mem_nil (E.malloc_ge ha)
        (fun x hx ↦ ⟨Function.update_of_ne hx .., Function.update_of_ne hx ..⟩) (fun _ _ ↦ rfl)
        (fun _ _ ↦ rfl) fun x hx ↦ congrArg Inode.iNo (Function.update_of_ne hx ..)
    have hlive : v.heap a = some Blk.inode :=
      (Function.update_of_ne hba.symm ..).trans (Function.update_self ..)
    have h₃ := h₂.push (a := a) List.not_mem_nil (E.malloc_ge ha) hlive nofun
    exact ⟨h₃.list, (Function.update_of_ne hba.symm ..).trans hlive, (E.malloc_kernel ha).mp rfl⟩

/-- **`filesys_init`** leaves the root directory open and nothing else. -/
theorem freshlyMounted_of_init (h : Returns (filesysInit E) s u s') : s'.FreshlyMounted := by
  obtain ⟨u₁, t₁, -, h⟩ := returns_bind.mp h
  obtain ⟨u₂, t₂, h2, h⟩ := returns_bind.mp h
  obtain ⟨u₃, t₃, h3, h⟩ := returns_bind.mp h
  rw [returns_modify] at h
  subst h
  obtain ⟨hlist, hlive, hkernel⟩ := openRootDir_list (mountPartition_list h2) h3
  exact ⟨hlist, hlive, hkernel, fun _ ↦ rfl⟩

end Mounting

end GlowOS
