import Mathlib
import GlowOS.Fs.Dir

/-!
# Files

The functions of `fs/file.c`. A `struct file` is an entry of the global `file_table` and is known by
its index; the `fd_table` of a process holds such indices.

`file_write` first finds the blocks it will write to. Depending on the blocks the file has and will
have there is nothing to allocate, or blocks up to the twelfth (situation 1), or an indirect table
and blocks behind it (situation 2), or blocks behind an existing table (situation 3). In situation 2
a direct block is stored at `i_sectors[block_lba]`; in situation 3 the existing table is not read.
-/

namespace GlowOS

open Bytes Program Scan

/-! ## Descriptors -/

/-- Replace an entry of the file table. -/
@[simps -fullyApplied] def Fs.setFile (s : Fs) (f : ℕ) (file : File) : Fs :=
  { s with fileTable := Function.update s.fileTable f file }

/-- Assign `cur->fd_table[fd]`. -/
@[simps -fullyApplied] def Fs.setFd (s : Fs) (fd : ℕ) (g : ℤ) : Fs :=
  { s with
    tasks := Function.update s.tasks s.running
      { s.cur with fdTable := Function.update s.cur.fdTable fd g } }

/-- `get_free_slot_in_global`: `none` for the source's -1. -/
def getFreeSlotInGlobal : FsM (Option ℕ) := do
  let s ← get
  pure (firstFrom (fun i ↦ (s.fileTable i).fdInode.isNone) (maxFileOpen - 3) 3)

/-- `pcb_fd_install`: `none` for the source's -1. -/
def pcbFdInstall (globalFdIdx : ℕ) : FsM (Option ℕ) := do
  let s ← get
  match firstFrom (fun fd ↦ s.cur.fdTable fd == -1) (maxFilesOpenPerProc - 3) 3 with
  | none => pure none
  | some fd => do
    modify fun s ↦ s.setFd fd globalFdIdx
    pure (some fd)

/-- The inode of an open file. -/
def fdInodeOf (f : ℕ) : FsM ℕ := do
  let s ← get
  match (s.fileTable f).fdInode with
  | none => throw Fault.null
  | some a => pure a

theorem returns_fdInodeOf {f a : ℕ} {s s' : Fs} :
    Returns (fdInodeOf f) s a s' ↔ (s.fileTable f).fdInode = some a ∧ s' = s := by
  rw [fdInodeOf, returns_get_bind]
  cases (s.fileTable f).fdInode with
  | none => simp
  | some b =>
    rw [returns_pure, Option.some.injEq, eq_comm]

/-- Assign `write_deny`. -/
def Inode.deny (ino : Inode) (b : Bool) : Inode := { ino with writeDeny := b }

/-! ## Creating, opening, closing -/

/-- The end of a `file_create` that fails: the steps are undone in reverse order. -/
def fileCreateRollback (E : Env) (ioBuf n : ℕ) (newInode fdIdx : Option ℕ) : FsM (Option ℕ) := do
  match fdIdx with
  | some f => modify fun s ↦ s.setFile f ⟨0, 0, none⟩
  | none => pure PUnit.unit
  match newInode with
  | some a => sysFree E a
  | none => pure PUnit.unit
  bitmapSet .inodeBitmap n false
  sysFree E ioBuf
  pure none

/-- The part of `file_create` from the free slot of the file table on. -/
def fileCreateIn (E : Env) (parentDir : Dir) (filename : List UInt8) (flag ioBuf n a : ℕ) :
    FsM (Option ℕ) := do
  match ← getFreeSlotInGlobal with
  | none => fileCreateRollback E ioBuf n (some a) none
  | some f => do
    modifyInode a fun ino ↦ ino.deny false
    modify fun s ↦ s.setFile f ⟨0, flag, some a⟩
    let newDirEntry ← createDirEntry filename n .regular
    if ← syncDirEntry E parentDir newDirEntry 1024 then
      let parent ← inodeAt parentDir.inode
      inodeSync E parent 1024
      let ino ← inodeAt a
      inodeSync E ino 1024
      bitmapSync E n .inodeBitmap
      modify fun s ↦ s.pushOpen a
      modifyInode a fun ino ↦ { ino with iOpenCnts := 1 }
      sysFree E ioBuf
      pcbFdInstall f
    else
      fileCreateRollback E ioBuf n (some a) (some f)

/-- `file_create`: the descriptor, `none` for the source's -1. -/
def fileCreate (E : Env) (parentDir : Dir) (filename : List UInt8) (flag : ℕ) :
    FsM (Option ℕ) := do
  match ← sysMalloc E Blk.buffer 1024 with
  | none => pure none
  | some ioBuf =>
    match ← inodeBitmapAlloc with
    | none => pure none
    | some n =>
      match ← sysMalloc E Blk.inode 76 with
      | none => fileCreateRollback E ioBuf n none none
      | some a => do
        setInodeAt a (Inode.init n)
        fileCreateIn E parentDir filename flag ioBuf n a

/-- `O_WRONLY`, `O_RDWR`, `O_CREAT`. -/
abbrev oWronly : ℕ := 1

@[inherit_doc oWronly] abbrev oRdwr : ℕ := 2

@[inherit_doc oWronly] abbrev oCreat : ℕ := 4

/-- `file_open`: the descriptor, `none` for the source's -1. -/
def fileOpen (E : Env) (n flag : ℕ) : FsM (Option ℕ) := do
  match ← getFreeSlotInGlobal with
  | none => pure none
  | some f => do
    let a ← inodeOpen E n
    modify fun s ↦ s.setFile f ⟨0, flag, some a⟩
    let ino ← inodeAt a
    if flag &&& oWronly ≠ 0 ∨ flag &&& oRdwr ≠ 0 then
      if ino.writeDeny then pure none
      else
        modifyInode a fun ino ↦ ino.deny true
        pcbFdInstall f
    else pcbFdInstall f

/-- `file_close`. -/
def fileClose (E : Env) (f : ℕ) : FsM PUnit := do
  let a ← fdInodeOf f
  modifyInode a fun ino ↦ ino.deny false
  inodeClose E a
  modify fun s ↦ s.setFile f { s.fileTable f with fdInode := none }

/-! ## Writing -/

/-- The loops of `file_write` that allocate blocks `k`, `k + 1`, …, with what each of them does with
a new block. -/
def allocBlocks (E : Env) (place : ℕ → ℕ → FsM PUnit) : ℕ → ℕ → (ℕ → ℕ) → FsM (Option (ℕ → ℕ))
  | 0, _, allBlocks => pure (some allBlocks)
  | left + 1, k, allBlocks => do
    match ← blockBitmapAlloc E with
    | none => pure none
    | some lba => do
      place k lba
      bitmapSync E (blockBitmapIdx E lba) .blockBitmap
      allocBlocks E place left (k + 1) (Function.update allBlocks k lba)

/-- Situation 1: a direct block. -/
def placeDirect (a k lba : ℕ) : FsM PUnit := do
  let ino ← inodeAt a
  ASSERT (ino.iSectors k = 0)
  setInodeAt a (ino.setSector k lba)

/-- Situation 2: a direct block is stored at the index that is its own address. -/
def placeMixed (a k lba : ℕ) : FsM PUnit := do
  if k < 12 then
    let ino ← inodeAt a
    inBounds (lba < 13)
    ASSERT (ino.iSectors lba = 0)
    setInodeAt a (ino.setSector lba lba)
  else pure PUnit.unit

/-- The allocation of the first block of a file: whether it succeeded. -/
def allocFirst (E : Env) (a : ℕ) : FsM Bool := do
  let ino ← inodeAt a
  if ino.iSectors 0 = 0 then
    match ← blockBitmapAlloc E with
    | none => pure false
    | some lba => do
      setInodeAt a (ino.setSector 0 lba)
      ASSERT (blockBitmapIdx E lba ≠ 0)
      bitmapSync E (blockBitmapIdx E lba) .blockBitmap
      pure true
  else pure true

/-- The blocks `file_write` works with, `none` if there are not enough. -/
def writeBlocks (E : Env) (a has will : ℕ) : FsM (Option (ℕ → ℕ)) := do
  let ino ← inodeAt a
  let addBlocks := (will + 2 ^ 32 - has) % 2 ^ 32
  if addBlocks = 0 then
    if has ≤ 12 then
      pure (some (Function.update (fun _ ↦ 0) (has - 1) (ino.iSectors (has - 1))))
    else
      ASSERT (ino.iSectors 12 ≠ 0)
      let allBlocks ← readTable (ino.iSectors 12) fun _ ↦ 0
      pure (some allBlocks)
  else if will ≤ 12 then
    inBounds (has - 1 < 13)
    ASSERT (ino.iSectors (has - 1) ≠ 0)
    allocBlocks E (placeDirect a) (will - has) has
      (Function.update (fun _ ↦ 0) (has - 1) (ino.iSectors (has - 1)))
  else if has ≤ 12 then
    match ← blockBitmapAlloc E with
    | none => pure none
    | some lba => do
      ASSERT (ino.iSectors 12 = 0)
      setInodeAt a (ino.setSector 12 lba)
      bitmapSync E (blockBitmapIdx E lba) .blockBitmap
      match ← allocBlocks E (placeMixed a) (will - has) has
        (Function.update (fun _ ↦ 0) (has - 1) (ino.iSectors (has - 1))) with
      | none => pure none
      | some allBlocks => do
        writeTable lba allBlocks
        pure (some allBlocks)
  else
    ASSERT (ino.iSectors 12 ≠ 0)
    match ← allocBlocks E (fun _ _ ↦ pure PUnit.unit) (will - has) has fun _ ↦ 0 with
    | none => pure none
    | some allBlocks => do
      writeTable (ino.iSectors 12) allBlocks
      pure (some allBlocks)

/-- Advance `fd_pos`. -/
def Fs.seek (s : Fs) (f n : ℕ) : Fs :=
  s.setFile f { s.fileTable f with fdPos := ((s.fileTable f).fdPos + n) % 2 ^ 32 }

/-- The buffer before the bytes of a sector are put into it: only the first sector is read. -/
def sectorBuf (first : Bool) (lba : ℕ) : FsM Image :=
  if first then ideRead lba 512 1 else pure fun _ ↦ 0

/-- The loop of `file_write` over the sectors. -/
def writeSectors (E : Env) (f a : ℕ) (buf : Image) (allBlocks : ℕ → ℕ) :
    ℕ → ℕ → ℕ → Bool → FsM PUnit
  | 0, _, sizeLeft, _ => if sizeLeft = 0 then pure PUnit.unit else throw Fault.hang
  | fuel + 1, written, sizeLeft, first =>
    if sizeLeft = 0 then pure PUnit.unit
    else do
      let ino ← inodeAt a
      let secIdx := ino.iSize / 512
      inBounds (secIdx < 140)
      let secLba := allBlocks secIdx
      let secOffBytes := ino.iSize % 512
      let chunkSize := min sizeLeft (512 - secOffBytes)
      let ioBuf ← sectorBuf first secLba
      ideWrite secLba 512 1 (splice ioBuf secOffBytes chunkSize fun i ↦ buf (written + i))
      setInodeAt a (ino.grow chunkSize)
      modify fun s ↦ s.seek f chunkSize
      writeSectors E f a buf allBlocks fuel (written + chunkSize) (sizeLeft - chunkSize) false

/-- The part of `file_write` behind the two buffers. -/
def fileWriteIn (E : Env) (f a : ℕ) (buf : Image) (count : ℕ) : FsM (Option ℕ) := do
  if ← allocFirst E a then
    let ino ← inodeAt a
    let has := ino.iSize / 512 + 1
    let will := (ino.iSize + count) % 2 ^ 32 / 512 + 1
    ASSERT (will ≤ 140)
    match ← writeBlocks E a has will with
    | none => pure none
    | some allBlocks => do
      let ino ← inodeAt a
      modify fun s ↦ s.setFile f { s.fileTable f with fdPos := (ino.iSize + 2 ^ 32 - 1) % 2 ^ 32 }
      writeSectors E f a buf allBlocks count 0 count true
      let ino ← inodeAt a
      inodeSync E ino 512
      pure (some count)
  else pure none

/-- `file_write` of `count` bytes at `buf`: the number of bytes written, `none` for the source's
-1. -/
def fileWrite (E : Env) (f : ℕ) (buf : Image) (count : ℕ) : FsM (Option ℕ) := do
  let a ← fdInodeOf f
  let ino ← inodeAt a
  if 512 * 140 < (ino.iSize + count) % 2 ^ 32 then pure none
  else
    match ← sysMalloc E Blk.buffer 512 with
    | none => pure none
    | some ioBuf =>
      match ← sysMalloc E Blk.buffer 560 with
      | none => pure none
      | some allBlocks => do
        let r ← fileWriteIn E f a buf count
        sysFree E allBlocks
        sysFree E ioBuf
        pure r

/-! ## Reading -/

/-- The direct blocks of an inode from index `lo` to index `hi`, zero elsewhere. -/
def Inode.directFrom (ino : Inode) (lo hi i : ℕ) : ℕ :=
  if lo ≤ i ∧ i ≤ hi then ino.iSectors i else 0

/-- The blocks `file_read` works with. -/
def readBlocks (ino : Inode) (lo hi : ℕ) : FsM (ℕ → ℕ) := do
  if lo = hi then
    if hi < 12 then pure (ino.directFrom hi hi)
    else
      ASSERT (ino.iSectors 12 ≠ 0)
      readTable (ino.iSectors 12) fun _ ↦ 0
  else if hi < 12 then pure (ino.directFrom lo hi)
  else if lo < 12 then readTable (ino.iSectors 12) (ino.directFrom lo 11)
  else
    ASSERT (ino.iSectors 12 ≠ 0)
    readTable (ino.iSectors 12) fun _ ↦ 0

/-- The loop of `file_read` over the sectors, with the bytes read so far. -/
def readSectors (f : ℕ) (allBlocks : ℕ → ℕ) : ℕ → ℕ → ℕ → Image → FsM Image
  | 0, _, sizeLeft, out => if sizeLeft = 0 then pure out else throw Fault.hang
  | fuel + 1, bytesRead, sizeLeft, out =>
    if sizeLeft = 0 then pure out
    else do
      let s ← get
      let pos := (s.fileTable f).fdPos
      inBounds (pos / 512 < 140)
      let chunkSize := min sizeLeft (512 - pos % 512)
      let ioBuf ← ideRead (allBlocks (pos / 512)) 512 1
      modify fun s ↦ s.seek f chunkSize
      readSectors f allBlocks fuel (bytesRead + chunkSize) (sizeLeft - chunkSize)
        (splice out bytesRead chunkSize fun i ↦ ioBuf (pos % 512 + i))

/-- The part of `file_read` behind the two buffers. -/
def fileReadIn (f a size count : ℕ) : FsM (Option (ℕ × Image)) := do
  let s ← get
  let pos := (s.fileTable f).fdPos
  let lo := pos / 512
  let hi := (pos + count) % 2 ^ 32 / 512
  ASSERT (lo < 139 ∧ hi < 139)
  let ino ← inodeAt a
  let allBlocks ← readBlocks ino lo hi
  let out ← readSectors f allBlocks size 0 size fun _ ↦ 0
  pure (some (size, out))

/-- `file_read`: the number of bytes and what is stored in the buffer, `none` for the source's
-1. -/
def fileRead (E : Env) (f count : ℕ) : FsM (Option (ℕ × Image)) := do
  let a ← fdInodeOf f
  let ino ← inodeAt a
  let s ← get
  let pos := (s.fileTable f).fdPos
  let size := if ino.iSize < (pos + count) % 2 ^ 32 then (ino.iSize + 2 ^ 32 - pos) % 2 ^ 32
    else count
  if ino.iSize < (pos + count) % 2 ^ 32 ∧ size = 0 then pure none
  else
    match ← sysMalloc E Blk.buffer 512 with
    | none => pure none
    | some ioBuf =>
      match ← sysMalloc E Blk.buffer 560 with
      | none => pure none
      | some allBlocks => do
        let r ← fileReadIn f a size count
        sysFree E allBlocks
        sysFree E ioBuf
        pure r

end GlowOS
