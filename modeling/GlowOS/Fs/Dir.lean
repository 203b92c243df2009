import Mathlib
import GlowOS.Fs.Entry

/-!
# Directories

The functions of `fs/dir.c`. A `struct dir` is the address of its inode together with its own heap
block; the static `root_dir` has none.

`sync_dir_entry` looks at the twelve direct blocks only: `all_blocks` starts out as zero and the
indirect table is not read into it. Once the direct blocks are full it therefore finds block 12
unallocated, whatever `i_sectors[12]` says.
-/

namespace GlowOS

open Bytes Program Scan

/-! ## Access -/

/-- Change a live inode. -/
def modifyInode (a : ℕ) (f : Inode → Inode) : FsM PUnit := do
  let ino ← inodeAt a
  setInodeAt a (f ino)

theorem returns_modifyInode {a : ℕ} {f : Inode → Inode} {s s' : Fs} {u : PUnit} :
    Returns (modifyInode a f) s u s' ↔
      s.heap a = some Blk.inode ∧ s' = s.setInode a (f (s.inode a)) := by
  rw [modifyInode, returns_bind]
  constructor
  · rintro ⟨ino, t, h1, h⟩
    obtain ⟨hlive, rfl, rfl⟩ := returns_inodeAt.mp h1
    exact ⟨hlive, (returns_setInodeAt.mp h).2⟩
  · rintro ⟨hlive, rfl⟩
    exact ⟨_, s, returns_inodeAt.mpr ⟨hlive, rfl, rfl⟩, returns_setInodeAt.mpr ⟨hlive, rfl⟩⟩

@[simp] theorem Fs.setInode_setInode (s : Fs) (a : ℕ) (i j : Inode) :
    (s.setInode a i).setInode a j = s.setInode a j := by
  rw [Fs.setInode, Fs.setInode, Fs.setInode, Function.update_idem]

/-- Assign `i_sectors[k]`. -/
def Inode.setSector (ino : Inode) (k lba : ℕ) : Inode :=
  { ino with iSectors := Function.update ino.iSectors k lba }

theorem Fs.setInode_store (s : Fs) (a : ℕ) (i : Inode) (o n : ℕ) (g : Image) :
    (s.setInode a i).store o n g = (s.store o n g).setInode a i := rfl

theorem Fs.setInode_setBitmap (s : Fs) (a : ℕ) (i : Inode) (b : Bitmap) (ty : BitmapType) :
    (s.setInode a i).setBitmap b ty = (s.setBitmap b ty).setInode a i := by
  cases ty <;> rfl

@[simp] theorem Inode.setSector_self (ino : Inode) (k lba : ℕ) :
    (ino.setSector k lba).iSectors k = lba := Function.update_self ..

theorem Inode.setSector_of_ne (ino : Inode) {k k' : ℕ} (h : k' ≠ k) (lba : ℕ) :
    (ino.setSector k lba).iSectors k' = ino.iSectors k' := Function.update_of_ne h ..

@[simp] theorem Inode.setSector_setSector (ino : Inode) (k lba lba' : ℕ) :
    (ino.setSector k lba).setSector k lba' = ino.setSector k lba' := by
  rw [setSector, setSector, setSector, Function.update_idem]

/-- Add to `i_size`. -/
def Inode.grow (ino : Inode) (n : ℕ) : Inode := { ino with iSize := ino.iSize + n }

/-- Subtract from `i_size`. -/
def Inode.shrink (ino : Inode) (n : ℕ) : Inode := { ino with iSize := ino.iSize - n }

/-- `dir_entrys_per_sec`. -/
def dirEntrysPerSec (E : Env) : ℕ := 512 / E.part.sb.dirEntrySize

/-- `root_dir`. -/
def rootDir (s : Fs) : Dir := ⟨s.rootInode, none⟩

/-! ## Opening, closing, searching -/

/-- `open_root_dir`. -/
def openRootDir (E : Env) : FsM PUnit := do
  let a ← inodeOpen E E.part.sb.rootInodeNo
  modify fun s ↦ { s with rootInode := a }

/-- `dir_open`. -/
def dirOpen (E : Env) (n : ℕ) : FsM Dir := do
  let pdir ← sysMallocUnchecked E Blk.dir 520
  let a ← inodeOpen E n
  pure ⟨a, some pdir⟩

/-- `dir_close`. The root directory stays open. -/
def dirClose (E : Env) (dir : Dir) : FsM PUnit := do
  match dir.block with
  | none => pure PUnit.unit
  | some b => do
    inodeClose E dir.inode
    sysFree E b

/-- The loop of `search_dir_entry` over the blocks from index `k` on. -/
def searchBlocks (E : Env) (name : List UInt8) (allBlocks : ℕ → ℕ) :
    ℕ → ℕ → FsM (Option DirEntry)
  | 0, _ => pure none
  | left + 1, k =>
    if allBlocks k = 0 then searchBlocks E name allBlocks left (k + 1)
    else do
      let buf ← ideRead (allBlocks k) 512 1
      match firstFrom (fun j ↦ strEq buf (24 * j) name) (dirEntrysPerSec E) 0 with
      | some j => pure (some (DirEntry.decode buf (24 * j)))
      | none => searchBlocks E name allBlocks left (k + 1)

/-- `search_dir_entry`: the entry it copies to `dir_e`, `none` for `false`. -/
def searchDirEntry (E : Env) (pdir : Dir) (name : List UInt8) : FsM (Option DirEntry) := do
  match ← sysMalloc E Blk.buffer 560 with
  | none => pure none
  | some allBlocks => do
    let ino ← inodeAt pdir.inode
    let blocks ← collectBlocks ino
    let buf ← sysMallocUnchecked E Blk.buffer 512
    let r ← searchBlocks E name blocks 140 0
    sysFree E buf
    sysFree E allBlocks
    pure r

/-! ## Inserting -/

/-- `create_dir_entry` on an entry that is all zero. -/
def createDirEntry (filename : List UInt8) (n : ℕ) (fType : FileType) : FsM DirEntry := do
  ASSERT (filename.length ≤ maxFileNameLen)
  pure ⟨fun i ↦ filename.getD i 0, n, fType⟩

/-- The end of an insertion into a new block: the block with the entry in front is written. -/
def placeEntry (E : Env) (a : ℕ) (pDe : DirEntry) (ioBuf lba : ℕ) : FsM Bool := do
  ideWrite lba ioBuf 1 (splice (fun _ ↦ 0) 0 E.part.sb.dirEntrySize pDe.encode)
  modifyInode a fun ino ↦ ino.grow E.part.sb.dirEntrySize
  pure true

/-- The branch of `sync_dir_entry` for a block that is not allocated. -/
def syncNewBlock (E : Env) (a : ℕ) (pDe : DirEntry) (ioBuf : ℕ) (allBlocks : ℕ → ℕ) (k : ℕ) :
    FsM Bool := do
  match ← blockBitmapAlloc E with
  | none => pure false
  | some lba => do
    bitmapSync E (blockBitmapIdx E lba) .blockBitmap
    if k < 12 then
      modifyInode a fun ino ↦ ino.setSector k lba
      placeEntry E a pDe ioBuf lba
    else if k = 12 then
      modifyInode a fun ino ↦ ino.setSector 12 lba
      match ← blockBitmapAlloc E with
      | none =>
        let ino ← inodeAt a
        bitmapSet .blockBitmap (blockBitmapIdx E (ino.iSectors 12)) false
        modifyInode a fun ino ↦ ino.setSector 12 0
        pure false
      | some lba' => do
        bitmapSync E (blockBitmapIdx E lba') .blockBitmap
        let ino ← inodeAt a
        writeTable (ino.iSectors 12) (Function.update allBlocks 12 lba')
        placeEntry E a pDe ioBuf lba'
    else
      let ino ← inodeAt a
      writeTable (ino.iSectors 12) (Function.update allBlocks k lba)
      placeEntry E a pDe ioBuf lba

/-- The loop of `sync_dir_entry` over the blocks from index `k` on. -/
def syncBlocks (E : Env) (a : ℕ) (pDe : DirEntry) (ioBuf : ℕ) (allBlocks : ℕ → ℕ) :
    ℕ → ℕ → FsM Bool
  | 0, _ => pure false
  | left + 1, k =>
    if allBlocks k = 0 then syncNewBlock E a pDe ioBuf allBlocks k
    else do
      let buf ← ideRead (allBlocks k) ioBuf 1
      match firstFrom (fun j ↦ (DirEntry.decode buf (24 * j)).fType == .unknown)
          (dirEntrysPerSec E) 0 with
      | some j => do
        ideWrite (allBlocks k) ioBuf 1 (splice buf (24 * j) E.part.sb.dirEntrySize pDe.encode)
        modifyInode a fun ino ↦ ino.grow E.part.sb.dirEntrySize
        pure true
      | none => syncBlocks E a pDe ioBuf allBlocks left (k + 1)

/-- `sync_dir_entry`, with a buffer of `ioBuf` bytes. -/
def syncDirEntry (E : Env) (parentDir : Dir) (pDe : DirEntry) (ioBuf : ℕ) : FsM Bool := do
  let ino ← inodeAt parentDir.inode
  ASSERT (ino.iSize % E.part.sb.dirEntrySize = 0)
  syncBlocks E parentDir.inode pDe ioBuf ino.direct 140 0

/-! ## Deleting -/

/-- "." and "..". -/
def dot : List UInt8 := [46]

@[inherit_doc dot] def dotDot : List UInt8 := [46, 46]

/-- What `delete_dir_entry` learns about a block. -/
structure BlockScan where
  isDirFirstBlock : Bool
  dirEntryCnt : ℕ
  dirEntryFound : Option ℕ

/-- The loop of `delete_dir_entry` over the entries of a block from index `j` on. -/
def scanBlock (buf : Image) (n : ℕ) : ℕ → ℕ → BlockScan → FsM BlockScan
  | 0, _, r => pure r
  | left + 1, j, r =>
    if (DirEntry.decode buf (24 * j)).fType ≠ .unknown then
      if strEq buf (24 * j) dot then
        scanBlock buf n left (j + 1) { r with isDirFirstBlock := true }
      else if strEq buf (24 * j) dotDot then
        scanBlock buf n left (j + 1) r
      else if (DirEntry.decode buf (24 * j)).iNo = n then do
        ASSERT (r.dirEntryFound = none)
        scanBlock buf n left (j + 1)
          { r with dirEntryCnt := r.dirEntryCnt + 1, dirEntryFound := some j }
      else
        scanBlock buf n left (j + 1) { r with dirEntryCnt := r.dirEntryCnt + 1 }
    else
      scanBlock buf n left (j + 1) r

/-- The part of `delete_dir_entry` that gives back the block that held only the deleted entry. For
a block of the indirect table the source counts the table's entries in a loop whose index never
changes. -/
def dropBlock (E : Env) (a k lba : ℕ) : FsM PUnit := do
  freeBlock E lba
  if k < 12 then modifyInode a fun ino ↦ ino.setSector k 0
  else throw Fault.hang

/-- The loop of `delete_dir_entry` over the blocks from index `k` on. -/
def deleteBlocks (E : Env) (a n ioBuf : ℕ) (allBlocks : ℕ → ℕ) : ℕ → ℕ → FsM Bool
  | 0, _ => pure false
  | left + 1, k =>
    if allBlocks k = 0 then deleteBlocks E a n ioBuf allBlocks left (k + 1)
    else do
      let buf ← ideRead (allBlocks k) ioBuf 1
      let r ← scanBlock buf n (dirEntrysPerSec E) 0 ⟨false, 0, none⟩
      match r.dirEntryFound with
      | none => deleteBlocks E a n ioBuf allBlocks left (k + 1)
      | some j => do
        ASSERT (1 ≤ r.dirEntryCnt)
        if r.dirEntryCnt = 1 ∧ r.isDirFirstBlock = false then
          dropBlock E a k (allBlocks k)
        else
          ideWrite (allBlocks k) ioBuf 1 (splice buf (24 * j) E.part.sb.dirEntrySize fun _ ↦ 0)
        let ino ← inodeAt a
        ASSERT (E.part.sb.dirEntrySize ≤ ino.iSize)
        modifyInode a fun ino ↦ ino.shrink E.part.sb.dirEntrySize
        inBounds (1024 ≤ ioBuf)
        let ino ← inodeAt a
        inodeSync E ino ioBuf
        pure true

/-- `delete_dir_entry`, with a buffer of `ioBuf` bytes. -/
def deleteDirEntry (E : Env) (pdir : Dir) (n ioBuf : ℕ) : FsM Bool := do
  let ino ← inodeAt pdir.inode
  let blocks ← collectBlocks ino
  deleteBlocks E pdir.inode n ioBuf blocks 140 0

/-! ## Removing a directory -/

/-- `dir_is_empty`. -/
def dirIsEmpty (E : Env) (dir : Dir) : FsM Bool := do
  let ino ← inodeAt dir.inode
  pure (ino.iSize == E.part.sb.dirEntrySize * 2)

/-- `dir_remove`: whether it succeeded. -/
def dirRemove (E : Env) (parentDir childDir : Dir) : FsM Bool := do
  let ino ← inodeAt childDir.inode
  ASSERT ((List.range 12).all fun k ↦ ino.iSectors (k + 1) == 0)
  match ← sysMalloc E Blk.buffer 1024 with
  | none => pure false
  | some ioBuf => do
    let _ ← deleteDirEntry E parentDir ino.iNo 1024
    let ino ← inodeAt childDir.inode
    inodeRelease E ino.iNo
    sysFree E ioBuf
    pure true

end GlowOS
