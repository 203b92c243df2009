import Mathlib
import GlowOS.Fs.File

/-!
# The system calls on paths and descriptors

The functions of `fs/fs.c` that take a path, and those that take a descriptor. A path is the list of
its characters; the source walks it with `path_parse`, component by component.

`search_file` keeps the directory it is in open, and hands its parent to the caller in the search
record. For a path that ends in "." the directory it finds is therefore its own parent.
-/

namespace GlowOS

open Bytes Program

/-- The character `/`. -/
abbrev slash : UInt8 := 47

/-- `MAX_PATH_LEN`. -/
abbrev maxPathLen : ℕ := 512

/-! ## Paths -/

/-- `path_parse`: the next component, which is stored in an array of 16 characters, and the rest of
the path. The component is empty if there is none. -/
def pathParse (pathname : List UInt8) : FsM (List UInt8 × List UInt8) := do
  let p := pathname.dropWhile (· == slash)
  let name := p.takeWhile (· != slash)
  inBounds (name.length ≤ maxFileNameLen)
  pure (name, p.dropWhile (· != slash))

/-- The loop of `path_depth_cnt`. -/
def pathDepthFrom : ℕ → List UInt8 → List UInt8 → ℕ → FsM ℕ
  | 0, _, _, _ => throw Fault.hang
  | fuel + 1, name, p, depth =>
    if name = [] then pure depth
    else do
      let (name, p) ← pathParse p
      pathDepthFrom fuel name p (depth + 1)

/-- `path_depth_cnt`. The array for the component is not initialized. -/
def pathDepthCnt (pathname : List UInt8) : FsM ℕ := do
  let (name, p) ← pathParse pathname
  Program.check Fault.uninit (name ≠ [])
  pathDepthFrom (pathname.length + 1) name p 0

/-- `strrchr(pathname, '/') + 1`, for a path with a slash. -/
def strrchrNext (pathname : List UInt8) : List UInt8 :=
  (pathname.reverse.takeWhile (· != slash)).reverse

/-- `struct path_search_record`. -/
structure PathSearchRecord where
  searchedPath : List UInt8
  parentDir : Dir
  fileType : FileType

/-- Append a component to the path searched so far. -/
def PathSearchRecord.extend (r : PathSearchRecord) (name : List UInt8) : PathSearchRecord :=
  { r with searchedPath := r.searchedPath ++ slash :: name }

/-- The loop of `search_file`, with the component to look up, the rest of the path, the number of
the last directory left and the number of the last entry found. -/
def searchFrom (E : Env) : ℕ → List UInt8 → List UInt8 → ℕ → Option ℕ → PathSearchRecord →
    FsM (Option ℕ × PathSearchRecord)
  | 0, _, _, _, _, _ => throw Fault.hang
  | fuel + 1, name, subPath, parentInodeNo, last, r =>
    if name = [] then do
      dirClose E r.parentDir
      let dir ← dirOpen E parentInodeNo
      match last with
      | none => throw Fault.uninit
      | some n => pure (some n, { r with parentDir := dir, fileType := .directory })
    else do
      ASSERT (r.searchedPath.length < maxPathLen)
      inBounds (name.length < maxFileNameLen)
      let r := r.extend name
      match ← searchDirEntry E r.parentDir name with
      | none => pure (none, r)
      | some dirE => do
        let (name, subPath) ← pathParse subPath
        match dirE.fType with
        | .directory => do
          let parent ← inodeAt r.parentDir.inode
          dirClose E r.parentDir
          let dir ← dirOpen E dirE.iNo
          searchFrom E fuel name subPath parent.iNo (some dirE.iNo) { r with parentDir := dir }
        | .regular => pure (some dirE.iNo, { r with fileType := .regular })
        | _ => searchFrom E fuel name subPath parentInodeNo (some dirE.iNo) r

/-- `search_file`: the inode number, `none` for the source's -1, and the search record. -/
def searchFile (E : Env) (pathname : List UInt8) : FsM (Option ℕ × PathSearchRecord) := do
  let s ← get
  if pathname = [slash] ∨ pathname = slash :: dot ∨ pathname = slash :: dotDot then
    pure (some 0, ⟨[], rootDir s, .directory⟩)
  else do
    ASSERT (pathname.head? = some slash ∧ 1 < pathname.length ∧ pathname.length < maxPathLen)
    let (name, subPath) ← pathParse pathname
    searchFrom E (pathname.length + 1) name subPath 0 none ⟨[], rootDir s, .unknown⟩

/-! ## Opening and closing files -/

/-- The part of `sys_open` behind the search. -/
def sysOpenIn (E : Env) (pathname : List UInt8) (flags pathnameDepth : ℕ) (inodeNo : Option ℕ)
    (r : PathSearchRecord) : FsM (Option ℕ) := do
  if r.fileType = .directory then
    dirClose E r.parentDir
    pure none
  else
    let pathSearchedDepth ← pathDepthCnt r.searchedPath
    if pathnameDepth ≠ pathSearchedDepth then
      dirClose E r.parentDir
      pure none
    else
      match inodeNo with
      | none =>
        if flags &&& oCreat = 0 then
          dirClose E r.parentDir
          pure none
        else
          let fd ← fileCreate E r.parentDir (strrchrNext pathname) flags
          dirClose E r.parentDir
          pure fd
      | some n =>
        if flags &&& oCreat ≠ 0 then
          dirClose E r.parentDir
          pure none
        else fileOpen E n flags

/-- `sys_open`: the descriptor, `none` for the source's -1. -/
def sysOpen (E : Env) (pathname : List UInt8) (flags : ℕ) : FsM (Option ℕ) := do
  inBounds (pathname ≠ [])
  if pathname.getLast? = some slash then pure none
  else
    ASSERT (flags ≤ 7)
    let pathnameDepth ← pathDepthCnt pathname
    let (inodeNo, r) ← searchFile E pathname
    sysOpenIn E pathname flags pathnameDepth inodeNo r

/-- `fd_local2global`, for an index into `file_table`. -/
def fdLocal2global (localFd : ℕ) : FsM ℕ := do
  inBounds (localFd < maxFilesOpenPerProc)
  let s ← get
  let globalFd := s.cur.fdTable localFd
  ASSERT (0 ≤ globalFd ∧ globalFd ≤ maxFileOpen)
  inBounds (globalFd < maxFileOpen)
  pure globalFd.toNat

/-- `sys_close`: whether it succeeded. -/
def sysClose (E : Env) (fd : ℤ) : FsM Bool := do
  if 2 < fd then
    let g ← fdLocal2global fd.toNat
    fileClose E g
    modify fun s ↦ s.setFd fd.toNat (-1)
    pure true
  else pure false

/-- `sys_write`: the number of bytes written, `none` for the source's -1. What goes to the console is
put into an array of 1024 characters first, and has to end there. -/
def sysWrite (E : Env) (fd : ℤ) (buf : Image) (count : ℕ) : FsM (Option ℕ) := do
  if fd < 0 then pure none
  else if fd = 1 then
    inBounds (count ≤ 1024)
    inBounds ((List.range 1024).any fun i ↦ count ≤ i || buf i == 0)
    pure (some count)
  else
    let g ← fdLocal2global fd.toNat
    let s ← get
    if (s.fileTable g).fdFlag &&& oWronly ≠ 0 ∨ (s.fileTable g).fdFlag &&& oRdwr ≠ 0 then
      fileWrite E g buf count
    else pure none

/-- `sys_read`: the number of bytes and what is stored in the buffer, `none` for the source's -1. The
characters that `ioq_getchar` hands out to the call are `kb`, in this order. -/
def sysRead (E : Env) (kb : Image) (fd : ℤ) (count : ℕ) : FsM (Option (ℕ × Image)) := do
  if fd < 0 ∨ fd = 1 ∨ fd = 2 then pure none
  else if fd = 0 then pure (if count = 0 then none else some (count, kb))
  else
    let g ← fdLocal2global fd.toNat
    fileRead E g count

/-- A sum of 32-bit words as an `int32_t`. -/
def int32 (x : ℤ) : ℤ := x.bmod (2 ^ 32)

/-- `sys_lseek`: the new position, `none` for the source's -1. -/
def sysLseek (fd offset : ℤ) (whence : ℕ) : FsM (Option ℕ) := do
  if fd < 0 then pure none
  else
    ASSERT (0 < whence ∧ whence < 4)
    let g ← fdLocal2global fd.toNat
    let a ← fdInodeOf g
    let ino ← inodeAt a
    let s ← get
    let fileSize := int32 ino.iSize
    let newPos :=
      if whence = 1 then offset
      else if whence = 2 then int32 (offset + int32 (s.fileTable g).fdPos)
      else int32 (offset + fileSize)
    if newPos < 0 ∨ int32 (fileSize - 1) < newPos then pure none
    else
      modify fun s ↦ s.setFile g { s.fileTable g with fdPos := newPos.toNat }
      pure (some newPos.toNat)

/-! ## Deleting files -/

/-- The part of `sys_unlink` for a file that is not open. -/
def sysUnlinkIn (E : Env) (parentDir : Dir) (n : ℕ) : FsM Bool := do
  match ← sysMalloc E Blk.buffer 1024 with
  | none =>
    dirClose E parentDir
    pure false
  | some ioBuf => do
    let _ ← deleteDirEntry E parentDir n 1024
    inodeRelease E n
    sysFree E ioBuf
    dirClose E parentDir
    pure true

/-- Whether the loop of `sys_unlink` finds an open file with the inode number `n`. -/
def Fs.inUse (s : Fs) (n : ℕ) : Bool :=
  (List.range maxFileOpen).any fun f ↦
    match (s.fileTable f).fdInode with
    | none => false
    | some a => (s.inode a).iNo == n

/-- `sys_unlink`: whether it succeeded. -/
def sysUnlink (E : Env) (pathname : List UInt8) : FsM Bool := do
  ASSERT (pathname.length < maxPathLen)
  let (inodeNo, r) ← searchFile E pathname
  ASSERT (inodeNo ≠ some 0)
  match inodeNo with
  | none =>
    dirClose E r.parentDir
    pure false
  | some n =>
    if r.fileType = .directory then
      dirClose E r.parentDir
      pure false
    else
      let s ← get
      if s.inUse n then
        dirClose E r.parentDir
        pure false
      else sysUnlinkIn E r.parentDir n

/-! ## Creating directories -/

/-- The entries "." and ".." of a new directory. -/
def dotEntries (n parentNo : ℕ) : Image :=
  splice (splice (fun _ ↦ 0) 0 24 (DirEntry.encode ⟨fun i ↦ dot.getD i 0, n, .directory⟩))
    24 24 (DirEntry.encode ⟨fun i ↦ dotDot.getD i 0, parentNo, .directory⟩)

/-- The end of a `sys_mkdir` that fails, for a search record and, if it is to be given back, an
inode number. -/
def sysMkdirRollback (E : Env) (ioBuf : ℕ) (r : PathSearchRecord) (n : Option ℕ) : FsM Bool := do
  match n with
  | some n => bitmapSet .inodeBitmap n false
  | none => pure PUnit.unit
  dirClose E r.parentDir
  sysFree E ioBuf
  pure false

/-- The part of `sys_mkdir` that has an inode number and a block. -/
def sysMkdirIn (E : Env) (ioBuf : ℕ) (r : PathSearchRecord) (n lba : ℕ) : FsM Bool := do
  ASSERT (blockBitmapIdx E lba ≠ 0)
  bitmapSync E (blockBitmapIdx E lba) .blockBitmap
  let parent ← inodeAt r.parentDir.inode
  ideWrite lba 1024 1 (dotEntries n parent.iNo)
  let newDirInode := ((Inode.init n).setSector 0 lba).grow (2 * E.part.sb.dirEntrySize)
  let newDirEntry ← createDirEntry (strrchrNext r.searchedPath) n .directory
  if ← syncDirEntry E r.parentDir newDirEntry 1024 then
    let parent ← inodeAt r.parentDir.inode
    inodeSync E parent 1024
    inodeSync E newDirInode 1024
    bitmapSync E n .inodeBitmap
    sysFree E ioBuf
    dirClose E r.parentDir
    pure true
  else sysMkdirRollback E ioBuf r (some n)

/-- The part of `sys_mkdir` behind the search. -/
def sysMkdirNew (E : Env) (ioBuf : ℕ) (r : PathSearchRecord) : FsM Bool := do
  match ← inodeBitmapAlloc with
  | none => sysMkdirRollback E ioBuf r none
  | some n =>
    match ← blockBitmapAlloc E with
    | none => sysMkdirRollback E ioBuf r (some n)
    | some lba => sysMkdirIn E ioBuf r n lba

/-- `sys_mkdir`: whether it succeeded. -/
def sysMkdir (E : Env) (pathname : List UInt8) : FsM Bool := do
  match ← sysMalloc E Blk.buffer 1024 with
  | none => pure false
  | some ioBuf => do
    let (inodeNo, r) ← searchFile E pathname
    if inodeNo ≠ none then sysMkdirRollback E ioBuf r none
    else
      let pathnameDepth ← pathDepthCnt pathname
      let pathSearchedDepth ← pathDepthCnt r.searchedPath
      if pathnameDepth ≠ pathSearchedDepth then sysMkdirRollback E ioBuf r none
      else sysMkdirNew E ioBuf r

/-! ## Removing directories -/

/-- `sys_rmdir`: whether it succeeded. The directory itself is opened and not closed. -/
def sysRmdir (E : Env) (pathname : List UInt8) : FsM Bool := do
  let (inodeNo, r) ← searchFile E pathname
  ASSERT (inodeNo ≠ some 0)
  let removed ← match inodeNo with
    | none => pure false
    | some n =>
      if r.fileType = .regular then pure false
      else do
        let dir ← dirOpen E n
        if ← dirIsEmpty E dir then dirRemove E r.parentDir dir else pure false
  dirClose E r.parentDir
  pure removed

/-! ## Attributes -/

/-- `struct stat`. -/
structure Stat where
  stIno : ℕ
  stSize : ℕ
  stFiletype : FileType

/-- The special case of `sys_stat` for the root directory. It stores the attributes and does not
return, so they are stored again behind the search. -/
def statRoot (path : List UInt8) : FsM PUnit := do
  let s ← get
  if path = [slash] ∨ path = slash :: dot ∨ path = slash :: dotDot then do
    let _ ← inodeAt s.rootInode
    pure PUnit.unit
  else pure PUnit.unit

/-- The attributes of what the search found. -/
def statFound (E : Env) (fileType : FileType) : Option ℕ → FsM (Option Stat)
  | none => pure none
  | some n => do
    let objInode ← inodeOpen E n
    let obj ← inodeAt objInode
    inodeClose E objInode
    pure (some ⟨n, obj.iSize, fileType⟩)

/-- `sys_stat`: what it stores, `none` if it fails. -/
def sysStat (E : Env) (path : List UInt8) : FsM (Option Stat) := do
  statRoot path
  let (inodeNo, r) ← searchFile E path
  let ret ← statFound E r.fileType inodeNo
  dirClose E r.parentDir
  pure ret

end GlowOS
