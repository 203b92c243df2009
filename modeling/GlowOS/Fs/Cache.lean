import Mathlib
import GlowOS.Fs.Inode

/-!
# The inode cache and the bitmaps

`open_inodes` is the list of the inodes in memory. `inodeOpen` walks it and reads the disk on a
miss; `inodeClose` counts down and gives the memory back at zero, leaving the list as it is.
`inodeRelease` returns the blocks and the number of an inode to the bitmaps.
-/

namespace GlowOS

open Bytes Program

/-! ## Access to an inode in memory -/

/-- The inode a pointer designates, which has to be live. -/
def inodeAt (a : ℕ) : FsM Inode := do
  let s ← get
  Program.check Fault.freed (s.heap a = some Blk.inode)
  pure (s.inode a)

/-- Replace the contents of an inode in memory. -/
@[simps -fullyApplied] def Fs.setInode (s : Fs) (a : ℕ) (ino : Inode) : Fs :=
  { s with inode := Function.update s.inode a ino }

/-- Store a live inode. -/
def setInodeAt (a : ℕ) (ino : Inode) : FsM PUnit := do
  let s ← get
  Program.check Fault.freed (s.heap a = some Blk.inode)
  modify fun s ↦ s.setInode a ino

/-! ## Opening and closing -/

/-- A list has fewer elements than there are addresses, so a longer walk is a cycle. -/
def walkFuel : ℕ := 2 ^ 32

/-- The walk of `inode_open` over `open_inodes`. -/
def Fs.findOpen (s : Fs) (n : ℕ) : Option (Option ℕ) :=
  s.tags.find openTail (fun a ↦ (s.inode a).iNo == n) walkFuel (s.tags.next openHead)

/-- `list_push` on `open_inodes`. -/
def Fs.pushOpen (s : Fs) (a : ℕ) : Fs :=
  { s with tags := s.tags.insertBefore (s.tags.next openHead) a }

/-- The contents of an inode block after the slot at offset `o` of `img` was copied to it. -/
def Fs.loadInode (s : Fs) (a : ℕ) (img : Image) (o : ℕ) : Fs :=
  { s with
    inode := Function.update s.inode a (Inode.decode img o)
    tags := ⟨Function.update s.tags.prev a (le32 img (o + 68)),
      Function.update s.tags.next a (le32 img (o + 72))⟩ }

/-- Set `i_open_cnts`. -/
def Fs.setOpenCnts (s : Fs) (a c : ℕ) : Fs := s.setInode a { s.inode a with iOpenCnts := c }

/-- The part of `inode_open` that reads the disk. -/
def inodeLoad (E : Env) (n : ℕ) : FsM ℕ := do
  let pos ← inodeLocate E n
  let a ← withKernelPgdir (sysMallocUnchecked E Blk.inode 76)
  let size := 512 * pos.sectors
  let inodeBuf ← sysMallocUnchecked E Blk.buffer size
  let img ← ideRead pos.secLba size pos.sectors
  modify fun s ↦ s.loadInode a img pos.offSize
  modify fun s ↦ s.pushOpen a
  modify fun s ↦ s.setOpenCnts a 1
  sysFree E inodeBuf
  pure a

/-- `inode_open`. -/
def inodeOpen (E : Env) (n : ℕ) : FsM ℕ := do
  let s ← get
  match s.findOpen n with
  | none => throw Fault.hang
  | some (some a) =>
    modify fun s ↦ s.setOpenCnts a (((s.inode a).iOpenCnts + 1) % 2 ^ 32)
    pure a
  | some none => inodeLoad E n

/-- `inode_close`. -/
def inodeClose (E : Env) (a : ℕ) : FsM PUnit := do
  let ino ← inodeAt a
  let cnts := (ino.iOpenCnts + 2 ^ 32 - 1) % 2 ^ 32
  modify fun s ↦ s.setOpenCnts a cnts
  if cnts = 0 then
    withKernelPgdir (sysFree E a)
    modify fun s ↦ { s with stale := Function.update s.stale a true }
  else
    pure PUnit.unit

/-! ## What opening and closing does -/

section Open

variable {E : Env} {s s' : Fs}

theorem returns_inodeAt {a : ℕ} {ino : Inode} :
    Returns (inodeAt a) s ino s' ↔ s.heap a = some Blk.inode ∧ ino = s.inode a ∧ s' = s := by
  simp only [inodeAt, returns_get_bind, returns_check_bind, returns_pure]

theorem returns_inodeAt_bind {α : Type} {a : ℕ} {k : Inode → FsM α} {r : α}
    (hlive : s.heap a = some Blk.inode) :
    Returns (inodeAt a >>= k) s r s' ↔ Returns (k (s.inode a)) s r s' :=
  (returns_inodeAt.mpr ⟨hlive, rfl, rfl⟩).bind_iff

theorem returns_setInodeAt {a : ℕ} {ino : Inode} {u : PUnit} :
    Returns (setInodeAt a ino) s u s' ↔ s.heap a = some Blk.inode ∧ s' = s.setInode a ino := by
  simp only [setInodeAt, returns_get_bind, returns_check_bind, returns_modify]

/-- The state after `inode_open` read inode `n` into the block `a`, by way of the buffer `b`. -/
def Fs.loaded (E : Env) (s : Fs) (n a b : ℕ) : Fs :=
  let img : Image := fun i ↦ s.disk (512 * (inodePosition E n).secLba + i)
  let t := ((s.alloc a Blk.inode).alloc b Blk.buffer).loadInode a img (inodePosition E n).offSize
  ((t.pushOpen a).setOpenCnts a 1).free E b

/-- **A cache miss**: the inode is read from its slot into a new block of the kernel pool. -/
theorem returns_inodeLoad {n a : ℕ} :
    Returns (inodeLoad E n) s a s' ↔
      n < 4096 ∧ (inodePosition E n).secLba ≤ maxLba ∧
        E.malloc s.tick s.heap s.stale true 76 = some a ∧
        ∃ b, (s.alloc a Blk.inode).answer E (512 * (inodePosition E n).sectors) = some b ∧
          s' = s.loaded E n a b := by
  have hcnt : (inodePosition E n).sectors ≤ 256 := by
    have := inodePosition_sectors_le E n
    omega
  have hpos := inodePosition_sectors_pos E n
  simp only [inodeLoad, inodeLocate, bind_assoc, pure_bind, returns_check_bind]
  refine and_congr_right fun hn ↦ ?_
  rw [returns_bind]
  constructor
  · rintro ⟨a', t, h1, h⟩
    obtain ⟨hmalloc, rfl⟩ := returns_malloc_kernel.mp h1
    obtain ⟨b, t, h2, h⟩ := returns_bind.mp h
    obtain ⟨hb, rfl⟩ := returns_sysMallocUnchecked.mp h2
    obtain ⟨img, t, h3, h⟩ := returns_bind.mp h
    obtain ⟨hlba, -, -, rfl, rfl⟩ := (returns_ideRead hcnt).mp h3
    simp only [returns_modify_bind] at h
    obtain ⟨u, t, h4, h⟩ := returns_bind.mp h
    obtain ⟨-, rfl⟩ := returns_sysFree.mp h4
    obtain ⟨rfl, rfl⟩ := returns_pure.mp h
    exact ⟨hlba, hmalloc, b, hb, rfl⟩
  · rintro ⟨hlba, hmalloc, b, hb, rfl⟩
    refine ⟨a, _, returns_malloc_kernel.mpr ⟨hmalloc, rfl⟩, ?_⟩
    refine returns_bind.mpr ⟨b, _, returns_sysMallocUnchecked.mpr ⟨hb, rfl⟩, ?_⟩
    refine returns_bind.mpr ⟨_, _, (returns_ideRead hcnt).mpr
      ⟨hlba, hpos, le_refl _, rfl, rfl⟩, ?_⟩
    simp only [returns_modify_bind]
    refine returns_bind.mpr ⟨PUnit.unit, _, returns_sysFree.mpr ⟨fun hk ↦ ?_, rfl⟩,
      returns_pure.mpr ⟨rfl, rfl⟩⟩
    exact (E.malloc_kernel hb).mp (Option.isNone_iff_eq_none.mpr hk)

/-- `inode_open` finds the inode in the cache or loads it. -/
theorem returns_inodeOpen {n a : ℕ} :
    Returns (inodeOpen E n) s a s' ↔
      (s.findOpen n = some (some a) ∧
          s' = s.setOpenCnts a (((s.inode a).iOpenCnts + 1) % 2 ^ 32)) ∨
        (s.findOpen n = some none ∧ Returns (inodeLoad E n) s a s') := by
  rw [inodeOpen, returns_get_bind]
  rcases s.findOpen n with _ | _ | b
  · simp
  · simp
  · simp only [returns_modify_bind, returns_pure, Option.some.injEq, reduceCtorEq, false_and,
      or_false]
    constructor
    · rintro ⟨rfl, rfl⟩
      exact ⟨rfl, rfl⟩
    · rintro ⟨rfl, rfl⟩
      exact ⟨rfl, rfl⟩

/-- The block of a loaded inode holds the slot, with one opener. -/
theorem Fs.loaded_inode (s : Fs) {n a b : ℕ} (hab : a ≠ b) :
    (s.loaded E n a b).inode a = { slot E s.disk n with iOpenCnts := 1 } := by
  have hdec : Inode.decode (fun i ↦ s.disk (512 * (inodePosition E n).secLba + i))
      (inodePosition E n).offSize = slot E s.disk n := by
    refine Inode.decode_congr fun i _ ↦ ?_
    change s.disk (512 * (inodePosition E n).secLba + ((inodePosition E n).offSize + i)) = _
    rw [← Nat.add_assoc, slotBase_eq]
  simp only [Fs.loaded, Fs.free, Fs.setOpenCnts, Fs.setInode, Fs.pushOpen, Fs.loadInode,
    Function.update_of_ne hab, Function.update_self]
  rw [hdec]

end Open

/-! ## The bitmaps -/

/-- `enum bitmap_type`. -/
inductive BitmapType
  | inodeBitmap
  | blockBitmap
  deriving DecidableEq, Repr

/-- The bitmap in memory. -/
def Fs.bitmap (s : Fs) : BitmapType → Bitmap
  | .inodeBitmap => s.inodeBitmap
  | .blockBitmap => s.blockBitmap

/-- Replace the bitmap in memory. -/
def Fs.setBitmap (s : Fs) (b : Bitmap) : BitmapType → Fs
  | .inodeBitmap => { s with inodeBitmap := b }
  | .blockBitmap => { s with blockBitmap := b }

/-- The first sector of a bitmap. -/
def bitmapLba (E : Env) : BitmapType → ℕ
  | .inodeBitmap => E.part.sb.inodeBitmapLba
  | .blockBitmap => E.part.sb.blockBitmapLba

/-- `bitmap_set` on a bitmap of the partition; a byte outside the bitmap is not part of it. -/
def bitmapSet (ty : BitmapType) (i : ℕ) (value : Bool) : FsM PUnit := do
  let s ← get
  inBounds (i / 8 < (s.bitmap ty).btmpBytesLen)
  modify fun s ↦ s.setBitmap ((s.bitmap ty).set i value) ty

/-- The shared part of `inode_bitmap_alloc` and `block_bitmap_alloc`: the index of a free bit, which
is set; `none` for the source's -1. -/
def bitmapAlloc (ty : BitmapType) : FsM (Option ℕ) := do
  let s ← get
  match (s.bitmap ty).scan 1 with
  | none => pure none
  | some i => do
    modify fun s ↦ s.setBitmap ((s.bitmap ty).set i true) ty
    pure (some i)

/-- `inode_bitmap_alloc`. -/
def inodeBitmapAlloc : FsM (Option ℕ) := bitmapAlloc .inodeBitmap

/-- `block_bitmap_alloc`: the address of a free sector of the data area. -/
def blockBitmapAlloc (E : Env) : FsM (Option ℕ) := do
  match ← bitmapAlloc .blockBitmap with
  | none => pure none
  | some i => pure (some (E.part.sb.dataStartLba + i))

/-- `bitmap_sync`: write the 512 bytes that hold bit `i`. -/
def bitmapSync (E : Env) (i : ℕ) (ty : BitmapType) : FsM PUnit := do
  let s ← get
  let offSec := i / 4096
  let offSize := offSec * 512
  ideWrite (bitmapLba E ty + offSec) ((s.bitmap ty).btmpBytesLen - offSize) 1
    fun k ↦ (s.bitmap ty).bits (offSize + k)

/-- The index of a block in the block bitmap, as a `uint32_t`. -/
def blockBitmapIdx (E : Env) (lba : ℕ) : ℕ := (lba + 2 ^ 32 - E.part.sb.dataStartLba) % 2 ^ 32

/-! ## The blocks of an inode -/

/-- The 128 entries of an indirect table. -/
def tableAt (d : Image) (lba k : ℕ) : ℕ := le32 d (512 * lba + 4 * k)

/-- `ide_read` of an indirect table into `all_blocks + 12`. -/
def readTable (lba : ℕ) (allBlocks : ℕ → ℕ) : FsM (ℕ → ℕ) := do
  let b ← ideRead lba 512 1
  pure fun i ↦ if i < 12 then allBlocks i else le32 b (4 * (i - 12))

/-- `ide_write` of `all_blocks + 12` to an indirect table. -/
def writeTable (lba : ℕ) (allBlocks : ℕ → ℕ) : FsM PUnit :=
  ideWrite lba 512 1 (ofWords fun k ↦ allBlocks (12 + k))

/-- The twelve direct blocks, with zero behind them. -/
def Inode.direct (ino : Inode) (i : ℕ) : ℕ := if i < 12 then ino.iSectors i else 0

/-- `all_blocks` as the directory functions fill it: the direct blocks and, if there is a table, its
entries. -/
def collectBlocks (ino : Inode) : FsM (ℕ → ℕ) :=
  if ino.iSectors 12 ≠ 0 then readTable (ino.iSectors 12) ino.direct else pure ino.direct

/-! ## What the bitmap services do -/

section Bitmaps

variable {E : Env} {s s' : Fs}

/-- The state after the 512 bytes of a bitmap that hold bit `i` were written to the disk. -/
def Fs.syncedBitmap (E : Env) (s : Fs) (i : ℕ) (ty : BitmapType) : Fs :=
  s.store (512 * (bitmapLba E ty + i / 4096)) 512
    fun k ↦ (s.bitmap ty).bits (i / 4096 * 512 + k)

theorem returns_bitmapSync {i : ℕ} {ty : BitmapType} {u : PUnit} :
    Returns (bitmapSync E i ty) s u s' ↔
      bitmapLba E ty + i / 4096 ≤ maxLba ∧
        512 ≤ (s.bitmap ty).btmpBytesLen - i / 4096 * 512 ∧ s' = s.syncedBitmap E i ty := by
  rw [bitmapSync, returns_get_bind, returns_ideWrite (by decide)]
  constructor
  · rintro ⟨h1, -, h2, rfl⟩
    exact ⟨h1, by omega, rfl⟩
  · rintro ⟨h1, h2, rfl⟩
    exact ⟨h1, by decide, by omega, rfl⟩

theorem returns_bitmapSet {i : ℕ} {ty : BitmapType} {v : Bool} {u : PUnit} :
    Returns (bitmapSet ty i v) s u s' ↔
      i / 8 < (s.bitmap ty).btmpBytesLen ∧ s' = s.setBitmap ((s.bitmap ty).set i v) ty := by
  rw [bitmapSet, returns_get_bind, returns_check_bind, returns_modify]

theorem returns_bitmapAlloc {ty : BitmapType} {r : Option ℕ} :
    Returns (bitmapAlloc ty) s r s' ↔
      r = (s.bitmap ty).scan 1 ∧
        s' = match r with
          | none => s
          | some i => s.setBitmap ((s.bitmap ty).set i true) ty := by
  rw [bitmapAlloc, returns_get_bind]
  cases (s.bitmap ty).scan 1 with
  | none =>
    rw [returns_pure]
    constructor
    · rintro ⟨rfl, rfl⟩
      exact ⟨rfl, rfl⟩
    · rintro ⟨rfl, rfl⟩
      exact ⟨rfl, rfl⟩
  | some i =>
    rw [returns_modify_bind, returns_pure]
    constructor
    · rintro ⟨rfl, rfl⟩
      exact ⟨rfl, rfl⟩
    · rintro ⟨rfl, rfl⟩
      exact ⟨rfl, rfl⟩

/-- `block_bitmap_alloc` fails on a full bitmap and takes the first free block otherwise. -/
theorem returns_blockBitmapAlloc {r : Option ℕ} :
    Returns (blockBitmapAlloc E) s r s' ↔
      (s.blockBitmap.scan 1 = none ∧ r = none ∧ s' = s) ∨
        ∃ i, s.blockBitmap.scan 1 = some i ∧ r = some (E.part.sb.dataStartLba + i) ∧
          s' = s.setBitmap (s.blockBitmap.set i true) .blockBitmap := by
  rw [blockBitmapAlloc, returns_bind]
  simp only [returns_bitmapAlloc]
  change (∃ a t, (a = s.blockBitmap.scan 1 ∧ _) ∧ _) ↔ _
  cases s.blockBitmap.scan 1 with
  | none =>
    constructor
    · rintro ⟨a, t, ⟨rfl, rfl⟩, h⟩
      obtain ⟨rfl, rfl⟩ := returns_pure.mp h
      exact Or.inl ⟨rfl, rfl, rfl⟩
    · rintro (⟨-, rfl, rfl⟩ | ⟨i, h, -⟩)
      · exact ⟨none, s', ⟨rfl, rfl⟩, returns_pure.mpr ⟨rfl, rfl⟩⟩
      · cases h
  | some j =>
    constructor
    · rintro ⟨a, t, ⟨rfl, rfl⟩, h⟩
      obtain ⟨rfl, rfl⟩ := returns_pure.mp h
      exact Or.inr ⟨j, rfl, rfl, rfl⟩
    · rintro (⟨h, -⟩ | ⟨i, h, rfl, rfl⟩)
      · cases h
      · obtain rfl := Option.some.inj h
        exact ⟨some j, _, ⟨rfl, rfl⟩, returns_pure.mpr ⟨rfl, rfl⟩⟩

theorem returns_writeTable {lba : ℕ} {allBlocks : ℕ → ℕ} {u : PUnit} :
    Returns (writeTable lba allBlocks) s u s' ↔
      lba ≤ maxLba ∧ s' = s.store (512 * lba) 512 (ofWords fun k ↦ allBlocks (12 + k)) := by
  rw [writeTable, returns_ideWrite (by decide)]
  constructor
  · rintro ⟨h1, -, -, rfl⟩
    exact ⟨h1, rfl⟩
  · rintro ⟨h1, rfl⟩
    exact ⟨h1, by decide, by decide, rfl⟩

end Bitmaps

/-! ## Releasing -/

/-- Give a block back to the bitmap, in memory and on disk. -/
def freeBlock (E : Env) (lba : ℕ) : FsM PUnit := do
  bitmapSet .blockBitmap (blockBitmapIdx E lba) false
  bitmapSync E (blockBitmapIdx E lba) .blockBitmap

/-- The last loop of `inode_release`, over the blocks from index `i` on. -/
def releaseBlocks (E : Env) (allBlocks : ℕ → ℕ) : ℕ → ℕ → FsM PUnit
  | 0, _ => pure PUnit.unit
  | left + 1, i => do
    if allBlocks i ≠ 0 then
      ASSERT (0 < blockBitmapIdx E (allBlocks i))
      freeBlock E (allBlocks i)
    releaseBlocks E allBlocks left (i + 1)

/-- `inode_release`. -/
def inodeRelease (E : Env) (n : ℕ) : FsM PUnit := do
  let a ← inodeOpen E n
  let ino ← inodeAt a
  ASSERT (ino.iNo = n)
  let allBlocks ← collectBlocks ino
  if ino.iSectors 12 ≠ 0 then
    ASSERT (0 < blockBitmapIdx E (ino.iSectors 12))
    freeBlock E (ino.iSectors 12)
  releaseBlocks E allBlocks (if ino.iSectors 12 ≠ 0 then 140 else 12) 0
  bitmapSet .inodeBitmap n false
  bitmapSync E n .inodeBitmap
  let ioBuf ← sysMallocUnchecked E Blk.buffer 1024
  inodeDelete E n 1024
  sysFree E ioBuf
  inodeClose E a

end GlowOS
