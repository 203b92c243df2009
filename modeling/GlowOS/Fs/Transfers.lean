import Mathlib
import GlowOS.Fs.Frames
import GlowOS.Fs.Release
import GlowOS.Fs.RoundTrip
import GlowOS.Lib.Avoid

/-!
# The transfers fit their buffers

`ide_read` and `ide_write` move whole sectors, and the caller says how many; how large the buffer is
they do not know. A transfer that is larger than its buffer stops with `Fault.overrun`, so that the
functions whose transfers fit are those that avoid this fault. One pass over the functions shows it,
for the states of a mounted partition.

The exception is `file_write`. It hands `inode_sync` a buffer of one sector, and where the slot of
the inode crosses a sector boundary two sectors are read into it.
-/

namespace GlowOS

open Bytes Program

/-- Started where `I` holds, no transfer of the program is larger than its buffer; the value that is
returned satisfies `p`. -/
abbrev BuffersHoldWith {α : Type} (I : Fs → Prop) (m : FsM α) (p : α → Prop) : Prop :=
  Avoids Fault.overrun I m p

/-- Started where `I` holds, no transfer of the program is larger than its buffer. -/
abbrev BuffersHold {α : Type} (I : Fs → Prop) (m : FsM α) : Prop := BuffersHoldWith I m fun _ ↦ True

/-- The sectors of a bitmap. -/
def bitmapSects (E : Env) : BitmapType → ℕ
  | .inodeBitmap => E.part.sb.inodeBitmapSects
  | .blockBitmap => E.part.sb.blockBitmapSects

/-- Bit `i` lies in the bitmap. -/
def InBitmap (E : Env) (ty : BitmapType) (i : ℕ) : Prop := i / 8 < 512 * bitmapSects E ty

/-- The update keeps the invariant `I`. -/
abbrev Keeps (I : Fs → Prop) (s s' : Fs) : Prop := I s → I s'

instance (I : Fs → Prop) : Std.Refl (Keeps I) where
  refl _ := id

instance (I : Fs → Prop) : IsTrans Fs (Keeps I) where
  trans _ _ _ h h' := h' ∘ h

/-- The invariant says that the partition is mounted. -/
class Sized (E : Env) (I : Fs → Prop) : Prop where
  mounted : ∀ s, I s → s.Mounted E

/-! ## Without opening or closing -/

section Sized

variable {E : Env} {I : Fs → Prop}

theorem fits_ideRead {lba room cnt : ℕ} (h : 512 * cnt ≤ room) :
    BuffersHold I (ideRead lba room cnt) :=
  .seq (.check (by decide)) fun _ ↦ .seq (.check (by decide)) fun _ ↦ .seq (.check_of h) fun _ ↦
    .seq (.check (by decide)) fun _ ↦ .seq .get fun _ ↦ .pure trivial

theorem fits_inodeAt (a : ℕ) : BuffersHold I (inodeAt a) :=
  .seq .get fun _ ↦ .seq (.check (by decide)) fun _ ↦ .pure trivial

theorem fits_readTable (lba : ℕ) (allBlocks : ℕ → ℕ) : BuffersHold I (readTable lba allBlocks) :=
  .seq (fits_ideRead (by decide)) fun _ ↦ .pure trivial

theorem fits_collectBlocks (ino : Inode) : BuffersHold I (collectBlocks ino) :=
  .ite (fun _ ↦ fits_readTable _ _) fun _ ↦ .pure trivial

theorem fits_inodeLocate (n : ℕ) :
    BuffersHoldWith I (inodeLocate E n) fun pos ↦ pos = inodePosition E n :=
  .seq (.check (by decide)) fun _ ↦ .pure rfl

theorem fits_createDirEntry (filename : List UInt8) (n : ℕ) (fType : FileType) :
    BuffersHold I (createDirEntry filename n fType) :=
  .seq (.check (by decide)) fun _ ↦ .pure trivial

theorem fits_scanBlock (buf : Image) (n left j : ℕ) (r : BlockScan) :
    BuffersHold I (scanBlock buf n left j r) := by
  induction left generalizing j r with
  | zero => exact .pure trivial
  | succ left ih =>
    rw [scanBlock]
    exact .ite (fun _ ↦ .ite (fun _ ↦ ih _ _) fun _ ↦ .ite (fun _ ↦ ih _ _) fun _ ↦
      .ite (fun _ ↦ .seq (.check (by decide)) fun _ ↦ ih _ _) fun _ ↦ ih _ _) fun _ ↦ ih _ _

section Steady

variable [Steady (Keeps I)]

theorem fits_ideWrite {lba room cnt : ℕ} {b : Image} (h : 512 * cnt ≤ room) :
    BuffersHold I (ideWrite lba room cnt b) :=
  .seq (.check (by decide)) fun _ ↦ .seq (.check (by decide)) fun _ ↦ .seq (.check_of h) fun _ ↦
    .seq (.check (by decide)) fun _ ↦ .modify fun s ↦ Steady.store (R := Keeps I) s _ _ _

theorem fits_writeTable (lba : ℕ) (allBlocks : ℕ → ℕ) : BuffersHold I (writeTable lba allBlocks) :=
  fits_ideWrite (by decide)

theorem fits_modifyInode (a : ℕ) {f : Inode → Inode} (hno : ∀ i, (f i).iNo = i.iNo)
    (hcnt : ∀ i, (f i).iOpenCnts = i.iOpenCnts) : BuffersHold I (modifyInode a f) :=
  .keep (.seq (fits_inodeAt a) fun _ ↦ .seq .get fun _ ↦ .seq (.check (by decide)) fun _ ↦
    .modify fun _ _ ↦ trivial) (within_modifyInode (R := Keeps I) a hno hcnt)

theorem fits_inodeSync (ino : Inode) {ioBuf : ℕ}
    (h : 512 * (inodePosition E (ino.iNo % 2 ^ 8)).sectors ≤ ioBuf) :
    BuffersHold I (inodeSync E ino ioBuf) :=
  .bind (fits_inodeLocate _) fun pos hpos ↦ .seq (.check (by decide)) fun _ ↦
    .seq (fits_ideRead (hpos ▸ h)) fun _ ↦ fits_ideWrite (hpos ▸ h)

/-- A buffer of two sectors is large enough for every slot. -/
theorem fits_wideSync (ino : Inode) : BuffersHold I (inodeSync E ino 1024) :=
  fits_inodeSync ino <| by
    have := inodePosition_sectors_le E (ino.iNo % 2 ^ 8)
    omega

@[inherit_doc fits_wideSync] theorem fits_inodeDelete (n : ℕ) :
    BuffersHold I (inodeDelete E n 1024) :=
  have h : 512 * (inodePosition E n).sectors ≤ 1024 := by
    have := inodePosition_sectors_le E n
    omega
  .seq (.check (by decide)) fun _ ↦ .bind (fits_inodeLocate _) fun pos hpos ↦
    .seq (.check (by decide)) fun _ ↦ .seq (fits_ideRead (hpos ▸ h)) fun _ ↦
      fits_ideWrite (hpos ▸ h)

variable [Sized E I]

theorem Sized.inBitmap {s : Fs} (E : Env) [Sized E I] (hs : I s) {ty : BitmapType} {i : ℕ} :
    InBitmap E ty i ↔ i / 8 < (s.bitmap ty).btmpBytesLen := by
  have h1 := (Sized.mounted (E := E) s hs).blockLen
  have h2 := (Sized.mounted (E := E) s hs).inodeLen
  cases ty with
  | inodeBitmap => rw [InBitmap, bitmapSects, Fs.bitmap, h2]
  | blockBitmap => rw [InBitmap, bitmapSects, Fs.bitmap, h1]

theorem fits_bitmapSync {i : ℕ} {ty : BitmapType} (h : InBitmap E ty i) :
    BuffersHold I (bitmapSync E i ty) := by
  refine .bind .get fun s hs ↦ fits_ideWrite ?_
  have := (Sized.mounted (E := E) s hs).bitmap_room ((Sized.inBitmap E hs).mp h)
  omega

theorem fits_bitmapSet (ty : BitmapType) (i : ℕ) (v : Bool) :
    BuffersHoldWith I (bitmapSet ty i v) fun _ ↦ InBitmap E ty i :=
  .bind .get fun _ hs ↦ .bind (.check (by decide)) fun _ hi ↦
    (Avoids.modify fun s ↦ Steady.setBitmap (R := Keeps I) s ty i v).mono fun _ _ ↦
      (Sized.inBitmap E hs).mpr hi

/-- The bit of an allocation lies in the bitmap. -/
theorem fits_bitmapAlloc (ty : BitmapType) :
    BuffersHoldWith I (bitmapAlloc ty) fun r ↦ ∀ i, r = some i → InBitmap E ty i := by
  refine .bind .get fun s hs ↦ ?_
  cases hscan : (s.bitmap ty).scan 1 with
  | none => exact .pure (by simp)
  | some i =>
    refine .seq (.modify fun s ↦ Steady.setBitmap (R := Keeps I) s ty i true) fun _ ↦ .pure ?_
    rintro j ⟨rfl⟩
    have := (Bitmap.scan_one_eq_some.mp hscan).1
    exact (Sized.inBitmap E hs).mpr (by omega)

theorem fits_blockBitmapAlloc : BuffersHoldWith I (blockBitmapAlloc E) fun r ↦ ∀ lba, r = some lba →
    InBitmap E .blockBitmap (blockBitmapIdx E lba) := by
  intro s hs
  refine Avoids.bind (fits_bitmapAlloc (E := E) .blockBitmap) (fun r hr ↦ ?_) s hs
  cases r with
  | none => exact .pure (by simp)
  | some i =>
    refine .pure ?_
    rintro j ⟨rfl⟩
    have hm : s.Mounted E := Sized.mounted s hs
    have hi : i / 8 < s.blockBitmap.btmpBytesLen := (Sized.inBitmap E hs).mp (hr i rfl)
    rw [blockBitmapIdx_add (hm.bit_lt (by omega))]
    exact hr i rfl

theorem fits_freeBlock (lba : ℕ) : BuffersHold I (freeBlock E lba) :=
  .bind (fits_bitmapSet _ _ _) fun _ ↦ fits_bitmapSync

theorem fits_releaseBlocks (allBlocks : ℕ → ℕ) (left i : ℕ) :
    BuffersHold I (releaseBlocks E allBlocks left i) := by
  induction left generalizing i with
  | zero => exact .pure trivial
  | succ left ih =>
    rw [releaseBlocks]
    exact .ite (fun _ ↦ .seq (.check (by decide)) fun _ ↦ .seq (fits_freeBlock _) fun _ ↦ ih _)
      fun _ ↦ ih _

theorem fits_placeEntry (a : ℕ) (e : DirEntry) (lba : ℕ) :
    BuffersHold I (placeEntry E a e 1024 lba) :=
  .seq (fits_ideWrite (by decide)) fun _ ↦
    .seq (fits_modifyInode a (fun _ ↦ rfl) fun _ ↦ rfl) fun _ ↦ .pure trivial

theorem fits_setSector (a k lba : ℕ) :
    BuffersHold I (modifyInode a fun ino ↦ ino.setSector k lba) :=
  fits_modifyInode a (fun _ ↦ rfl) fun _ ↦ rfl

theorem fits_syncNewBlock (a : ℕ) (e : DirEntry) (allBlocks : ℕ → ℕ) (k : ℕ) :
    BuffersHold I (syncNewBlock E a e 1024 allBlocks k) := by
  refine .bind fits_blockBitmapAlloc fun r hr ↦ ?_
  cases r with
  | none => exact .pure trivial
  | some lba =>
    refine .seq (fits_bitmapSync (hr lba rfl)) fun _ ↦ .ite (fun _ ↦ ?_) fun _ ↦
      .ite (fun _ ↦ ?_) ?_
    · exact .seq (fits_setSector _ _ _) fun _ ↦ fits_placeEntry _ _ _
    · refine .seq (fits_setSector _ _ _) fun _ ↦ .bind fits_blockBitmapAlloc fun r hr ↦ ?_
      cases r with
      | none =>
        exact .seq (fits_inodeAt _) fun _ ↦ .seq (fits_bitmapSet (E := E) _ _ _) fun _ ↦
          .seq (fits_setSector _ _ _) fun _ ↦ .pure trivial
      | some lba' =>
        exact .seq (fits_bitmapSync (hr lba' rfl)) fun _ ↦ .seq (fits_inodeAt _) fun _ ↦
          .seq (fits_writeTable _ _) fun _ ↦ fits_placeEntry _ _ _
    · exact fun _ ↦ .seq (fits_inodeAt _) fun _ ↦ .seq (fits_writeTable _ _) fun _ ↦
        fits_placeEntry _ _ _

theorem fits_syncBlocks (a : ℕ) (e : DirEntry) (allBlocks : ℕ → ℕ) (left k : ℕ) :
    BuffersHold I (syncBlocks E a e 1024 allBlocks left k) := by
  induction left generalizing k with
  | zero => exact .pure trivial
  | succ left ih =>
    rw [syncBlocks]
    refine .ite (fun _ ↦ fits_syncNewBlock _ _ _ _) fun _ ↦
      .seq (fits_ideRead (by decide)) fun buf ↦ ?_
    cases Scan.firstFrom (fun j ↦ (DirEntry.decode buf (24 * j)).fType == .unknown)
      (dirEntrysPerSec E) 0 with
    | none => exact ih _
    | some j =>
      exact .seq (fits_ideWrite (by decide)) fun _ ↦
        .seq (fits_modifyInode a (fun _ ↦ rfl) fun _ ↦ rfl) fun _ ↦ .pure trivial

theorem fits_syncDirEntry (dir : Dir) (e : DirEntry) : BuffersHold I (syncDirEntry E dir e 1024) :=
  .seq (fits_inodeAt _) fun _ ↦ .seq (.check (by decide)) fun _ ↦ fits_syncBlocks _ _ _ _ _

theorem fits_dropBlock (a k lba : ℕ) : BuffersHold I (dropBlock E a k lba) :=
  .seq (fits_freeBlock _) fun _ ↦ .ite (fun _ ↦ fits_setSector _ _ _) fun _ ↦ .throw (by decide)

theorem fits_deleteBlocks (a n : ℕ) (allBlocks : ℕ → ℕ) (left k : ℕ) :
    BuffersHold I (deleteBlocks E a n 1024 allBlocks left k) := by
  induction left generalizing k with
  | zero => exact .pure trivial
  | succ left ih =>
    rw [deleteBlocks]
    refine .ite (fun _ ↦ ih _) fun _ ↦ .seq (fits_ideRead (by decide)) fun buf ↦
      .seq (fits_scanBlock buf n _ _ _) fun r ↦ ?_
    -- behind the entry itself: the size, and the inode on disk
    have htail : BuffersHold I (do
        let ino ← inodeAt a
        ASSERT (E.part.sb.dirEntrySize ≤ ino.iSize)
        modifyInode a fun ino ↦ ino.shrink E.part.sb.dirEntrySize
        inBounds (1024 ≤ 1024)
        let ino ← inodeAt a
        inodeSync E ino 1024
        pure true : FsM Bool) :=
      .seq (fits_inodeAt _) fun _ ↦ .seq (.check (by decide)) fun _ ↦
        .seq (fits_modifyInode a (fun _ ↦ rfl) fun _ ↦ rfl) fun _ ↦
          .seq (.check (by decide)) fun _ ↦
          .seq (fits_inodeAt _) fun _ ↦ .seq (fits_wideSync _) fun _ ↦ .pure trivial
    cases hr : r.dirEntryFound with
    | none => exact ih _
    | some j =>
      exact .seq (.check (by decide)) fun _ ↦
        .ite (fun _ ↦ .seq (fits_dropBlock _ _ _) fun _ ↦ htail)
          fun _ ↦ .seq (fits_ideWrite (by decide)) fun _ ↦ htail

theorem fits_deleteDirEntry (dir : Dir) (n : ℕ) : BuffersHold I (deleteDirEntry E dir n 1024) :=
  .seq (fits_inodeAt _) fun _ ↦ .seq (fits_collectBlocks _) fun _ ↦ fits_deleteBlocks _ _ _ _ _

end Steady

end Sized

/-! ## Writing to a file -/

/-- The partition is mounted, and there is an inode with the number `n` at `a`. -/
structure Fs.MountedWith (E : Env) (a n : ℕ) (s : Fs) : Prop where
  mounted : s.Mounted E
  live : s.heap a = some Blk.inode
  iNo : (s.inode a).iNo = n

section Writing

variable {E : Env} {a n : ℕ}

theorem Fs.MountedWith.of_same {s s' : Fs} (h : s.MountedWith E a n)
    (hb : s'.blockBitmap.btmpBytesLen = s.blockBitmap.btmpBytesLen)
    (hi : s'.inodeBitmap.btmpBytesLen = s.inodeBitmap.btmpBytesLen)
    (hlive : s'.heap a = s.heap a) (hno : (s'.inode a).iNo = (s.inode a).iNo) :
    s'.MountedWith E a n :=
  ⟨⟨h.mounted.part, hb.trans h.mounted.blockLen, hi.trans h.mounted.inodeLen⟩, hlive.trans h.live,
    hno.trans h.iNo⟩

/-- An inode is replaced by one with the same number. -/
theorem Fs.MountedWith.setInode {s : Fs} (h : s.MountedWith E a n) {b : ℕ} {i : Inode}
    (hi : i.iNo = (s.inode b).iNo) : (s.setInode b i).MountedWith E a n := by
  refine h.of_same rfl rfl rfl ?_
  rw [Fs.setInode_inode]
  obtain rfl | hne := eq_or_ne a b
  · rw [Function.update_self, hi]
  · rw [Function.update_of_ne hne]

instance : Steady (Keeps (Fs.MountedWith E a n)) where
  store _ _ _ _ h := h.of_same rfl rfl rfl rfl
  setBitmap _ ty _ _ h := by cases ty <;> exact h.of_same rfl rfl rfl rfl
  setInode _ _ _ hi _ h := h.setInode hi

instance : Sized E (Fs.MountedWith E a n) where
  mounted _ h := h.mounted

/-- The inode in memory keeps its number. -/
theorem fitsWith_inodeAt :
    BuffersHoldWith (Fs.MountedWith E a n) (inodeAt a) fun ino ↦ ino.iNo = n :=
  .bind .get fun _ hs ↦ .seq (.check (by decide)) fun _ ↦ .pure hs.iNo

theorem fits_setInodeAt {ino : Inode} (h : ino.iNo = n) :
    BuffersHold (Fs.MountedWith E a n) (setInodeAt a ino) :=
  .seq .get fun _ ↦ .seq (.check (by decide)) fun _ ↦
    .modify fun _ hs ↦ hs.setInode (h.trans hs.iNo.symm)

theorem fits_allocBlocks {place : ℕ → ℕ → FsM PUnit}
    (hplace : ∀ k lba, BuffersHold (Fs.MountedWith E a n) (place k lba)) (left k : ℕ)
    (allBlocks : ℕ → ℕ) :
    BuffersHold (Fs.MountedWith E a n) (allocBlocks E place left k allBlocks) := by
  induction left generalizing k allBlocks with
  | zero => exact .pure trivial
  | succ left ih =>
    rw [allocBlocks]
    refine .bind fits_blockBitmapAlloc fun r hr ↦ ?_
    cases r with
    | none => exact .pure trivial
    | some lba =>
      exact .seq (hplace k lba) fun _ ↦ .seq (fits_bitmapSync (hr lba rfl)) fun _ ↦ ih _ _

theorem fits_allocFirst : BuffersHold (Fs.MountedWith E a n) (allocFirst E a) := by
  refine .bind fitsWith_inodeAt fun ino hino ↦ .ite (fun _ ↦ ?_) fun _ ↦ .pure trivial
  refine .bind fits_blockBitmapAlloc fun r hr ↦ ?_
  cases r with
  | none => exact .pure trivial
  | some lba =>
    exact .seq (fits_setInodeAt hino) fun _ ↦ .seq (.check (by decide)) fun _ ↦
      .seq (fits_bitmapSync (hr lba rfl)) fun _ ↦ .pure trivial

theorem fits_placeDirect (k lba : ℕ) : BuffersHold (Fs.MountedWith E a n) (placeDirect a k lba) :=
  .bind fitsWith_inodeAt fun _ hino ↦ .seq (.check (by decide)) fun _ ↦ fits_setInodeAt hino

theorem fits_placeMixed (k lba : ℕ) : BuffersHold (Fs.MountedWith E a n) (placeMixed a k lba) :=
  .ite (fun _ ↦ .bind fitsWith_inodeAt fun _ hino ↦ .seq (.check (by decide)) fun _ ↦
    .seq (.check (by decide)) fun _ ↦ fits_setInodeAt hino) fun _ ↦ .pure trivial

theorem fits_writeBlocks (has will : ℕ) :
    BuffersHold (Fs.MountedWith E a n) (writeBlocks E a has will) := by
  refine .bind fitsWith_inodeAt fun ino hino ↦
    .ite (fun _ ↦ .ite (fun _ ↦ .pure trivial) fun _ ↦ ?_) fun _ ↦
    .ite (fun _ ↦ ?_) fun _ ↦ .ite (fun _ ↦ ?_) fun _ ↦ ?_
  · exact .seq (.check (by decide)) fun _ ↦ .seq (fits_readTable _ _) fun _ ↦ .pure trivial
  · exact .seq (.check (by decide)) fun _ ↦ .seq (.check (by decide)) fun _ ↦
      fits_allocBlocks fits_placeDirect _ _ _
  · refine .bind fits_blockBitmapAlloc fun r hr ↦ ?_
    cases r with
    | none => exact .pure trivial
    | some lba =>
      refine .seq (.check (by decide)) fun _ ↦ .seq (fits_setInodeAt hino) fun _ ↦
        .seq (fits_bitmapSync (hr lba rfl)) fun _ ↦
          .seq (fits_allocBlocks fits_placeMixed _ _ _) fun r' ↦ ?_
      cases r' with
      | none => exact .pure trivial
      | some b => exact .seq (fits_writeTable _ _) fun _ ↦ .pure trivial
  · refine .seq (.check (by decide)) fun _ ↦
      .seq (fits_allocBlocks (fun _ _ ↦ .pure trivial) _ _ _) fun r ↦ ?_
    cases r with
    | none => exact .pure trivial
    | some b => exact .seq (fits_writeTable _ _) fun _ ↦ .pure trivial

theorem fits_seek (f : ℕ) (g : Fs → File) :
    BuffersHold (Fs.MountedWith E a n) (modify fun s ↦ s.setFile f (g s)) :=
  .modify fun _ hs ↦ hs.of_same rfl rfl rfl rfl

theorem fits_writeSectors (f : ℕ) (buf : Image) (allBlocks : ℕ → ℕ) (fuel written sizeLeft : ℕ)
    (first : Bool) :
    BuffersHold (Fs.MountedWith E a n)
      (writeSectors E f a buf allBlocks fuel written sizeLeft first) := by
  induction fuel generalizing written sizeLeft first with
  | zero => exact .ite (fun _ ↦ .pure trivial) fun _ ↦ .throw (by decide)
  | succ fuel ih =>
    exact .ite (fun _ ↦ .pure trivial) fun _ ↦ .bind fitsWith_inodeAt fun _ hino ↦
      .seq (.check (by decide)) fun _ ↦
        .seq (.ite (fun _ ↦ fits_ideRead (by decide)) fun _ ↦ .pure trivial) fun _ ↦
          .seq (fits_ideWrite (by decide)) fun _ ↦ .seq (fits_setInodeAt hino) fun _ ↦
            .seq (fits_seek f _) fun _ ↦ ih _ _ _

/-- The slot of the inode lies in one sector. -/
def InOneSector (n : ℕ) : Prop := n % 2 ^ 8 * 76 % 512 ≤ 436

instance (n : ℕ) : Decidable (InOneSector n) := inferInstanceAs (Decidable (_ ≤ _))

theorem inOneSector_iff : InOneSector n ↔ (inodePosition E (n % 2 ^ 8)).sectors = 1 := by
  rw [InOneSector, InodePosition.sectors]
  simp only [inodePosition, decide_eq_true_eq]
  split_ifs with h
  · have := Nat.mod_lt (n % 2 ^ 8 * 76) (show 0 < 512 by decide)
    omega
  · omega

theorem fits_fileWriteIn (h : InOneSector n) (f : ℕ) (buf : Image) (count : ℕ) :
    BuffersHold (Fs.MountedWith E a n) (fileWriteIn E f a buf count) := by
  refine .seq fits_allocFirst fun b ↦ .ite (fun _ ↦ ?_) fun _ ↦ .pure trivial
  refine .seq (fits_inodeAt a) fun ino ↦ .seq (.check (by decide)) fun _ ↦
    .seq (fits_writeBlocks _ _) fun r ↦ ?_
  cases r with
  | none => exact .pure trivial
  | some allBlocks =>
    refine .seq (fits_inodeAt a) fun _ ↦ .seq (fits_seek f _) fun _ ↦
      .seq (fits_writeSectors f _ _ _ _ _ _) fun _ ↦ .bind fitsWith_inodeAt fun ino hino ↦
        .seq (fits_inodeSync ino ?_) fun _ ↦ .pure trivial
    rw [hino, (inOneSector_iff (E := E)).mp h]

/-- The heap hands out a block that is not the inode. -/
theorem fits_mallocBeside (k : Blk) (size : ℕ) :
    BuffersHoldWith (Fs.MountedWith E a n) (sysMalloc E k size) fun r ↦
      ∀ b, r = some b → a ≠ b := by
  refine .bind .get fun s hs ↦ ?_
  have hfresh : ∀ b, s.answer E size = some b → a ≠ b := by
    rintro b hb rfl
    exact Option.some_ne_none _ (hs.live.symm.trans (E.malloc_fresh hb))
  cases hans : E.malloc s.tick s.heap s.stale s.cur.pgdir.isNone size with
  | none =>
    exact .seq (.modify fun _ hs ↦ hs.of_same rfl rfl rfl rfl) fun _ ↦ .pure (by simp)
  | some b =>
    have hab := hfresh b hans
    refine .seq (.modify fun s hs ↦ hs.of_same rfl rfl ?_ ?_) fun _ ↦ .pure ?_
    · exact Function.update_of_ne hab ..
    · exact congrArg Inode.iNo (Function.update_of_ne hab ..)
    · rintro c ⟨rfl⟩
      exact hab

theorem fits_freeBeside {b : ℕ} (hab : a ≠ b) : BuffersHold (Fs.MountedWith E a n) (sysFree E b) :=
  .seq .get fun _ ↦ .seq (.check (by decide)) fun _ ↦ .modify fun _ hs ↦
    hs.of_same rfl rfl (Function.update_of_ne hab ..)
      (congrArg Inode.iNo (Function.update_of_ne hab ..))

/-- The part of `file_write` behind the inode. -/
theorem fits_fileWriteBehind (h : InOneSector n) (f : ℕ) (buf : Image) (count : ℕ) :
    BuffersHold (Fs.MountedWith E a n) (do
      match ← sysMalloc E Blk.buffer 512 with
      | none => pure none
      | some ioBuf =>
        match ← sysMalloc E Blk.buffer 560 with
        | none => pure none
        | some allBlocks => do
          let r ← fileWriteIn E f a buf count
          sysFree E allBlocks
          sysFree E ioBuf
          pure r : FsM (Option ℕ)) := by
  refine .bind (fits_mallocBeside _ _) fun r hr ↦ ?_
  cases r with
  | none => exact .pure trivial
  | some b =>
    refine .bind (fits_mallocBeside _ _) fun r' hr' ↦ ?_
    cases r' with
    | none => exact .pure trivial
    | some c =>
      exact .seq (fits_fileWriteIn h f buf count) fun _ ↦ .seq (fits_freeBeside (hr' c rfl)) fun _ ↦
        .seq (fits_freeBeside (hr b rfl)) fun _ ↦ .pure trivial

/-- **The transfers of `file_write` fit their buffers** if the slot of the inode lies in one
sector. -/
theorem fileWrite_fits {s : Fs} {f count : ℕ} (buf : Image) (hm : s.Mounted E)
    (hfd : (s.fileTable f).fdInode = some a) (h : InOneSector (s.inode a).iNo) :
    fileWrite E f buf count s ≠ .error .overrun := by
  rw [fileWrite, (returns_fdInodeOf.mpr ⟨hfd, rfl⟩).bind_run]
  by_cases hlive : s.heap a = some Blk.inode
  · rw [Fs.Opened.inodeAt_run ⟨hfd, hlive⟩]
    split_ifs with hsize
    · exact fun hr ↦ by cases hr
    · exact (fits_fileWriteBehind h f buf count s ⟨hm, hlive, rfl⟩).1
  · have hstop : inodeAt a s = .error .freed :=
      check_stop (f := fun _ ↦ pure (s.inode a)) hlive
    rw [bind_stop hstop]
    exact fun hr ↦ absurd (Except.error.inj hr) (by decide)

end Writing

/-! ## With opening and closing -/

section Quiet

variable {E : Env}

theorem Fs.Mounted.of_same {s s' : Fs} (h : s.Mounted E) (hb : s'.blockBitmap = s.blockBitmap)
    (hi : s'.inodeBitmap = s.inodeBitmap) : s'.Mounted E :=
  ⟨h.part, hb ▸ h.blockLen, hi ▸ h.inodeLen⟩

instance : Neutral (Keeps (Fs.Mounted E)) where
  store _ _ _ _ h := h.of_same rfl rfl
  setBitmap _ ty _ _ h := by cases ty <;> exact ⟨h.part, h.blockLen, h.inodeLen⟩
  setInode _ _ _ _ _ h := h.of_same rfl rfl
  tick _ h := h.of_same rfl rfl
  alloc _ _ _ h := h.of_same rfl rfl
  free _ _ _ h := h.of_same rfl rfl
  stale _ _ h := h.of_same rfl rfl
  replace _ _ _ h := h.of_same rfl rfl
  tags _ _ h := h.of_same rfl rfl

instance : Sized E (Fs.Mounted E) where
  mounted _ h := h

/-- An update that leaves the bitmaps alone. -/
theorem fits_modify {g : Fs → Fs} (hb : ∀ s, (g s).blockBitmap = s.blockBitmap)
    (hi : ∀ s, (g s).inodeBitmap = s.inodeBitmap) : BuffersHold (Fs.Mounted E) (modify g) :=
  .modify fun s hs ↦ hs.of_same (hb s) (hi s)

theorem fits_sysMalloc (k : Blk) (size : ℕ) : BuffersHold (Fs.Mounted E) (sysMalloc E k size) := by
  refine .bind .get fun s _ ↦ ?_
  cases E.malloc s.tick s.heap s.stale s.cur.pgdir.isNone size with
  | none => exact .seq (fits_modify (fun _ ↦ rfl) fun _ ↦ rfl) fun _ ↦ .pure trivial
  | some a => exact .seq (fits_modify (fun _ ↦ rfl) fun _ ↦ rfl) fun _ ↦ .pure trivial

theorem fits_sysMallocUnchecked (k : Blk) (size : ℕ) :
    BuffersHold (Fs.Mounted E) (sysMallocUnchecked E k size) := by
  refine .seq (fits_sysMalloc k size) fun r ↦ ?_
  cases r with
  | none => exact .throw (by decide)
  | some a => exact .pure trivial

theorem fits_sysFree (a : ℕ) : BuffersHold (Fs.Mounted E) (sysFree E a) :=
  .seq .get fun _ ↦ .seq (.check (by decide)) fun _ ↦ fits_modify (fun _ ↦ rfl) fun _ ↦ rfl

theorem fits_withKernelPgdir {α : Type} {m : FsM α} (h : BuffersHold (Fs.Mounted E) m) :
    BuffersHold (Fs.Mounted E) (withKernelPgdir m) :=
  .seq .get fun _ ↦ .seq (fits_modify (fun _ ↦ rfl) fun _ ↦ rfl) fun _ ↦ .seq h fun _ ↦
    .seq (fits_modify (fun _ ↦ rfl) fun _ ↦ rfl) fun _ ↦ .pure trivial

theorem fits_replaceInode (a : ℕ) (ino : Inode) : BuffersHold (Fs.Mounted E) (setInodeAt a ino) :=
  .seq .get fun _ ↦ .seq (.check (by decide)) fun _ ↦ fits_modify (fun _ ↦ rfl) fun _ ↦ rfl

theorem fits_updateInode (a : ℕ) (f : Inode → Inode) :
    BuffersHold (Fs.Mounted E) (modifyInode a f) :=
  .seq (fits_inodeAt a) fun _ ↦ fits_replaceInode a _

theorem fits_inodeLoad (n : ℕ) : BuffersHold (Fs.Mounted E) (inodeLoad E n) := by
  refine .bind (fits_inodeLocate n) fun pos _ ↦ ?_
  refine .seq (fits_withKernelPgdir (fits_sysMallocUnchecked _ _)) fun a ↦ ?_
  refine .seq (fits_sysMallocUnchecked _ _) fun b ↦ .seq (fits_ideRead (le_refl _)) fun img ↦ ?_
  exact .seq (fits_modify (fun _ ↦ rfl) fun _ ↦ rfl) fun _ ↦
    .seq (fits_modify (fun _ ↦ rfl) fun _ ↦ rfl) fun _ ↦
      .seq (fits_modify (fun _ ↦ rfl) fun _ ↦ rfl) fun _ ↦ .seq (fits_sysFree b) fun _ ↦
        .pure trivial

theorem fits_inodeOpen (n : ℕ) : BuffersHold (Fs.Mounted E) (inodeOpen E n) := by
  refine .bind .get fun s _ ↦ ?_
  cases s.findOpen n with
  | none => exact .throw (by decide)
  | some r =>
    cases r with
    | none => exact fits_inodeLoad n
    | some a => exact .seq (fits_modify (fun _ ↦ rfl) fun _ ↦ rfl) fun _ ↦ .pure trivial

theorem fits_inodeClose (a : ℕ) : BuffersHold (Fs.Mounted E) (inodeClose E a) :=
  .seq (fits_inodeAt a) fun _ ↦ .seq (fits_modify (fun _ ↦ rfl) fun _ ↦ rfl) fun _ ↦
    .ite (fun _ ↦ .seq (fits_withKernelPgdir (fits_sysFree a)) fun _ ↦
      fits_modify (fun _ ↦ rfl) fun _ ↦ rfl) fun _ ↦ .pure trivial

theorem fits_dirOpen (n : ℕ) : BuffersHold (Fs.Mounted E) (dirOpen E n) :=
  .seq (fits_sysMallocUnchecked _ _) fun _ ↦ .seq (fits_inodeOpen n) fun _ ↦ .pure trivial

theorem fits_dirClose (dir : Dir) : BuffersHold (Fs.Mounted E) (dirClose E dir) := by
  rw [dirClose]
  cases dir.block with
  | none => exact .pure trivial
  | some b => exact .seq (fits_inodeClose _) fun _ ↦ fits_sysFree b

theorem fits_inodeRelease (n : ℕ) : BuffersHold (Fs.Mounted E) (inodeRelease E n) := by
  refine .seq (fits_inodeOpen n) fun a ↦ .seq (fits_inodeAt a) fun ino ↦
    .seq (.check (by decide)) fun _ ↦ .seq (fits_collectBlocks ino) fun blocks ↦ ?_
  -- the number goes back to the inode bitmap, and the inode is zeroed and closed
  have htail : BuffersHold (Fs.Mounted E) (do
      releaseBlocks E blocks (if ino.iSectors 12 ≠ 0 then 140 else 12) 0
      bitmapSet .inodeBitmap n false
      bitmapSync E n .inodeBitmap
      let ioBuf ← sysMallocUnchecked E Blk.buffer 1024
      inodeDelete E n 1024
      sysFree E ioBuf
      inodeClose E a : FsM PUnit) :=
    .seq (fits_releaseBlocks _ _ _) fun _ ↦ .bind (fits_bitmapSet _ _ _) fun _ hn ↦
      .seq (fits_bitmapSync hn) fun _ ↦ .seq (fits_sysMallocUnchecked _ _) fun b ↦
        .seq (fits_inodeDelete n) fun _ ↦ .seq (fits_sysFree b) fun _ ↦ fits_inodeClose a
  exact .ite (fun _ ↦ .seq (.check (by decide)) fun _ ↦ .seq (fits_freeBlock _) fun _ ↦ htail)
    fun _ ↦ htail

theorem fits_searchBlocks (name : List UInt8) (allBlocks : ℕ → ℕ) (left k : ℕ) :
    BuffersHold (Fs.Mounted E) (searchBlocks E name allBlocks left k) := by
  induction left generalizing k with
  | zero => exact .pure trivial
  | succ left ih =>
    rw [searchBlocks]
    refine .ite (fun _ ↦ ih _) fun _ ↦ .seq (fits_ideRead (by decide)) fun buf ↦ ?_
    cases Scan.firstFrom (fun j ↦ strEq buf (24 * j) name) (dirEntrysPerSec E) 0 with
    | none => exact ih _
    | some j => exact .pure trivial

theorem fits_searchDirEntry (pdir : Dir) (name : List UInt8) :
    BuffersHold (Fs.Mounted E) (searchDirEntry E pdir name) := by
  refine .seq (fits_sysMalloc _ _) fun r ↦ ?_
  cases r with
  | none => exact .pure trivial
  | some b =>
    exact .seq (fits_inodeAt _) fun _ ↦ .seq (fits_collectBlocks _) fun _ ↦
      .seq (fits_sysMallocUnchecked _ _) fun _ ↦ .seq (fits_searchBlocks _ _ _ _) fun _ ↦
        .seq (fits_sysFree _) fun _ ↦ .seq (fits_sysFree _) fun _ ↦ .pure trivial

theorem fits_pathParse (p : List UInt8) : BuffersHold (Fs.Mounted E) (pathParse p) :=
  .seq (.check (by decide)) fun _ ↦ .pure trivial

theorem fits_pathDepthFrom (fuel : ℕ) (name p : List UInt8) (depth : ℕ) :
    BuffersHold (Fs.Mounted E) (pathDepthFrom fuel name p depth) := by
  induction fuel generalizing name p depth with
  | zero => exact .throw (by decide)
  | succ fuel ih =>
    exact .ite (fun _ ↦ .pure trivial) fun _ ↦ .seq (fits_pathParse p) fun _ ↦ ih _ _ _

theorem fits_pathDepthCnt (p : List UInt8) : BuffersHold (Fs.Mounted E) (pathDepthCnt p) :=
  .seq (fits_pathParse p) fun _ ↦ .seq (.check (by decide)) fun _ ↦ fits_pathDepthFrom _ _ _ _

theorem fits_searchFrom (fuel : ℕ) (name subPath : List UInt8) (parentInodeNo : ℕ)
    (last : Option ℕ) (r : PathSearchRecord) :
    BuffersHold (Fs.Mounted E) (searchFrom E fuel name subPath parentInodeNo last r) := by
  induction fuel generalizing name subPath parentInodeNo last r with
  | zero => exact .throw (by decide)
  | succ fuel ih =>
    refine .ite (fun _ ↦ ?_) fun _ ↦ .seq (.check (by decide)) fun _ ↦
      .seq (.check (by decide)) fun _ ↦ ?_
    · refine .seq (fits_dirClose _) fun _ ↦ .seq (fits_dirOpen _) fun _ ↦ ?_
      cases last with
      | none => exact .throw (by decide)
      | some n => exact .pure trivial
    · refine .seq (fits_searchDirEntry _ _) fun found ↦ ?_
      cases found with
      | none => exact .pure trivial
      | some e =>
        refine .seq (fits_pathParse _) fun _ ↦ ?_
        cases he : e.fType with
        | directory =>
          exact .seq (fits_inodeAt _) fun _ ↦ .seq (fits_dirClose _) fun _ ↦
            .seq (fits_dirOpen _) fun _ ↦ ih _ _ _ _ _
        | regular => exact .pure trivial
        | unknown => exact ih _ _ _ _ _
        | other v => exact ih _ _ _ _ _

theorem fits_searchFile (p : List UInt8) : BuffersHold (Fs.Mounted E) (searchFile E p) :=
  .seq .get fun _ ↦ .ite (fun _ ↦ .pure trivial) fun _ ↦ .seq (.check (by decide)) fun _ ↦
    .seq (fits_pathParse p) fun _ ↦ fits_searchFrom _ _ _ _ _ _

/-! ## The calls -/

theorem fits_fileCreateRollback (ioBuf n : ℕ) (newInode fdIdx : Option ℕ) :
    BuffersHold (Fs.Mounted E) (fileCreateRollback E ioBuf n newInode fdIdx) := by
  have hlast : BuffersHold (Fs.Mounted E) (do
      bitmapSet .inodeBitmap n false
      sysFree E ioBuf
      pure none : FsM (Option ℕ)) :=
    .seq (fits_bitmapSet (E := E) _ _ _) fun _ ↦ .seq (fits_sysFree _) fun _ ↦ .pure trivial
  have htail : BuffersHold (Fs.Mounted E) (fileCreateRollback E ioBuf n newInode none) := by
    cases newInode with
    | none => exact hlast
    | some a => exact .seq (fits_sysFree a) fun _ ↦ hlast
  cases fdIdx with
  | none => exact htail
  | some f => exact .seq (fits_modify (fun _ ↦ rfl) fun _ ↦ rfl) fun _ ↦ htail

theorem fits_pcbFdInstall (f : ℕ) : BuffersHold (Fs.Mounted E) (pcbFdInstall f) := by
  refine .bind .get fun s _ ↦ ?_
  cases Scan.firstFrom (fun fd ↦ s.cur.fdTable fd == -1) (maxFilesOpenPerProc - 3) 3 with
  | none => exact .pure trivial
  | some fd => exact .seq (fits_modify (fun _ ↦ rfl) fun _ ↦ rfl) fun _ ↦ .pure trivial

theorem fits_fileCreateIn (dir : Dir) (name : List UInt8) (flag ioBuf n a : ℕ)
    (hn : InBitmap E .inodeBitmap n) :
    BuffersHold (Fs.Mounted E) (fileCreateIn E dir name flag ioBuf n a) := by
  refine .seq (p := fun _ ↦ True) (.seq .get fun _ ↦ .pure trivial) fun r ↦ ?_
  cases r with
  | none => exact fits_fileCreateRollback _ _ _ _
  | some f =>
    refine .seq (fits_updateInode a _) fun _ ↦ .seq (fits_modify (fun _ ↦ rfl) fun _ ↦ rfl) fun _ ↦
      .seq (fits_createDirEntry _ _ _) fun e ↦ .seq (fits_syncDirEntry _ _) fun b ↦ ?_
    refine .ite (fun _ ↦ ?_) fun _ ↦ fits_fileCreateRollback _ _ _ _
    exact .seq (fits_inodeAt _) fun _ ↦ .seq (fits_wideSync _) fun _ ↦ .seq (fits_inodeAt _) fun _ ↦
      .seq (fits_wideSync _) fun _ ↦ .seq (fits_bitmapSync hn) fun _ ↦
        .seq (fits_modify (fun _ ↦ rfl) fun _ ↦ rfl) fun _ ↦ .seq (fits_updateInode a _) fun _ ↦
          .seq (fits_sysFree _) fun _ ↦ fits_pcbFdInstall f

theorem fits_fileCreate (dir : Dir) (name : List UInt8) (flag : ℕ) :
    BuffersHold (Fs.Mounted E) (fileCreate E dir name flag) := by
  refine .seq (fits_sysMalloc _ _) fun r ↦ ?_
  cases r with
  | none => exact .pure trivial
  | some ioBuf =>
    refine .bind (fits_bitmapAlloc (E := E) _) fun r hr ↦ ?_
    cases r with
    | none => exact .pure trivial
    | some n =>
      refine .seq (fits_sysMalloc _ _) fun r' ↦ ?_
      cases r' with
      | none => exact fits_fileCreateRollback _ _ _ _
      | some a =>
        exact .seq (fits_replaceInode a _) fun _ ↦ fits_fileCreateIn _ _ _ _ _ _ (hr n rfl)

theorem fits_sysMkdirRollback (ioBuf : ℕ) (r : PathSearchRecord) (n : Option ℕ) :
    BuffersHold (Fs.Mounted E) (sysMkdirRollback E ioBuf r n) := by
  have htail : BuffersHold (Fs.Mounted E) (do
      dirClose E r.parentDir
      sysFree E ioBuf
      pure false : FsM Bool) :=
    .seq (fits_dirClose _) fun _ ↦ .seq (fits_sysFree _) fun _ ↦ .pure trivial
  cases n with
  | none => exact htail
  | some n => exact .seq (fits_bitmapSet (E := E) _ _ _) fun _ ↦ htail

theorem fits_sysMkdirIn (ioBuf : ℕ) (r : PathSearchRecord) {n lba : ℕ}
    (hn : InBitmap E .inodeBitmap n) (hlba : InBitmap E .blockBitmap (blockBitmapIdx E lba)) :
    BuffersHold (Fs.Mounted E) (sysMkdirIn E ioBuf r n lba) := by
  refine .seq (.check (by decide)) fun _ ↦ .seq (fits_bitmapSync hlba) fun _ ↦
    .seq (fits_inodeAt _) fun _ ↦ .seq (fits_ideWrite (by decide)) fun _ ↦
      .seq (fits_createDirEntry _ _ _) fun e ↦ .seq (fits_syncDirEntry _ _) fun b ↦ ?_
  refine .ite (fun _ ↦ ?_) fun _ ↦ fits_sysMkdirRollback _ _ _
  exact .seq (fits_inodeAt _) fun _ ↦ .seq (fits_wideSync _) fun _ ↦ .seq (fits_wideSync _) fun _ ↦
    .seq (fits_bitmapSync hn) fun _ ↦ .seq (fits_sysFree _) fun _ ↦ .seq (fits_dirClose _) fun _ ↦
      .pure trivial

theorem fits_sysMkdir (path : List UInt8) : BuffersHold (Fs.Mounted E) (sysMkdir E path) := by
  refine .seq (fits_sysMalloc _ _) fun r ↦ ?_
  cases r with
  | none => exact .pure trivial
  | some ioBuf =>
    refine .seq (fits_searchFile path) fun found ↦ ?_
    obtain ⟨inodeNo, rec⟩ := found
    refine .ite (fun _ ↦ fits_sysMkdirRollback _ _ _) fun _ ↦ .seq (fits_pathDepthCnt _) fun _ ↦
      .seq (fits_pathDepthCnt _) fun _ ↦ .ite (fun _ ↦ fits_sysMkdirRollback _ _ _) fun _ ↦ ?_
    refine .bind (fits_bitmapAlloc (E := E) _) fun r hr ↦ ?_
    cases r with
    | none => exact fits_sysMkdirRollback _ _ _
    | some n =>
      refine .bind fits_blockBitmapAlloc fun r' hr' ↦ ?_
      cases r' with
      | none => exact fits_sysMkdirRollback _ _ _
      | some lba => exact fits_sysMkdirIn _ _ (hr n rfl) (hr' lba rfl)

theorem fits_sysUnlinkIn (dir : Dir) (n : ℕ) :
    BuffersHold (Fs.Mounted E) (sysUnlinkIn E dir n) := by
  refine .seq (fits_sysMalloc _ _) fun r ↦ ?_
  cases r with
  | none => exact .seq (fits_dirClose _) fun _ ↦ .pure trivial
  | some ioBuf =>
    exact .seq (fits_deleteDirEntry _ _) fun _ ↦ .seq (fits_inodeRelease n) fun _ ↦
      .seq (fits_sysFree _) fun _ ↦ .seq (fits_dirClose _) fun _ ↦ .pure trivial

theorem fits_sysUnlink (path : List UInt8) : BuffersHold (Fs.Mounted E) (sysUnlink E path) := by
  refine .seq (.check (by decide)) fun _ ↦ .seq (fits_searchFile path) fun found ↦ ?_
  obtain ⟨inodeNo, r⟩ := found
  refine .seq (.check (by decide)) fun _ ↦ ?_
  have hfail : BuffersHold (Fs.Mounted E) (do
      dirClose E r.parentDir
      pure false : FsM Bool) :=
    .seq (fits_dirClose _) fun _ ↦ .pure trivial
  cases inodeNo with
  | none => exact hfail
  | some n =>
    exact .ite (fun _ ↦ hfail) fun _ ↦ .seq .get fun _ ↦ .ite (fun _ ↦ hfail) fun _ ↦
      fits_sysUnlinkIn _ n

theorem fits_dirRemove (dir child : Dir) : BuffersHold (Fs.Mounted E) (dirRemove E dir child) := by
  refine .seq (fits_inodeAt _) fun ino ↦ .seq (.check (by decide)) fun _ ↦
    .seq (fits_sysMalloc _ _) fun r ↦ ?_
  cases r with
  | none => exact .pure trivial
  | some ioBuf =>
    exact .seq (fits_deleteDirEntry _ _) fun _ ↦ .seq (fits_inodeAt _) fun _ ↦
      .seq (fits_inodeRelease _) fun _ ↦ .seq (fits_sysFree _) fun _ ↦ .pure trivial

theorem fits_sysRmdir (path : List UInt8) : BuffersHold (Fs.Mounted E) (sysRmdir E path) := by
  refine .seq (fits_searchFile path) fun found ↦ ?_
  obtain ⟨inodeNo, r⟩ := found
  refine .seq (.check (by decide)) fun _ ↦ ?_
  have hlast : ∀ removed : Bool, BuffersHold (Fs.Mounted E) (do
      dirClose E r.parentDir
      pure removed : FsM Bool) :=
    fun _ ↦ .seq (fits_dirClose _) fun _ ↦ .pure trivial
  -- each branch hands its answer to the same end
  have hfail : BuffersHold (Fs.Mounted E) (do
      let removed ← pure false
      dirClose E r.parentDir
      pure removed : FsM Bool) :=
    .seq (p := fun _ ↦ True) (.pure trivial) hlast
  cases inodeNo with
  | none => exact hfail
  | some n =>
    refine .ite (fun _ ↦ hfail) fun _ ↦ .seq (fits_dirOpen n) fun dir ↦
      .seq (p := fun _ ↦ True) (.seq (fits_inodeAt _) fun _ ↦ .pure trivial) fun _ ↦ ?_
    exact .ite (fun _ ↦ .seq (fits_dirRemove _ _) hlast) fun _ ↦ hfail

end Quiet

/-! ## For every inode number -/

/-- The operations. -/
inductive DiskOp
  | fileCreate
  | fileWrite
  | sysMkdir
  | sysUnlink
  | sysRmdir
  deriving DecidableEq

/-- On every mounted partition, every call of the operation transfers at most what its buffers hold.
A call of `file_write` is about the file with the inode number `n`; the others meet the numbers
that a bitmap or the disk hands them. -/
def TransfersFit (n : ℕ) : DiskOp → Prop
  | .fileCreate => ∀ (E : Env) (s : Fs) (dir : Dir) (name : List UInt8) (flag : ℕ), s.Mounted E →
      fileCreate E dir name flag s ≠ .error .overrun
  | .fileWrite => ∀ (E : Env) (s : Fs) (f a : ℕ) (buf : Image) (count : ℕ), s.Mounted E →
      (s.fileTable f).fdInode = some a → (s.inode a).iNo = n →
      fileWrite E f buf count s ≠ .error .overrun
  | .sysMkdir => ∀ (E : Env) (s : Fs) (path : List UInt8), s.Mounted E →
      sysMkdir E path s ≠ .error .overrun
  | .sysUnlink => ∀ (E : Env) (s : Fs) (path : List UInt8), s.Mounted E →
      sysUnlink E path s ≠ .error .overrun
  | .sysRmdir => ∀ (E : Env) (s : Fs) (path : List UInt8), s.Mounted E →
      sysRmdir E path s ≠ .error .overrun

/-- **A write to a file whose slot crosses a sector boundary** overruns the buffer for the inode,
once all its bytes are on the disk. -/
theorem FileIntact.fileWrite_overrun {E : Env} {f a u count : ℕ} {s : Fs} {content : Image}
    (h : FileIntact E f a s u content) (buf : Image)
    (hu : u = 0 ∧ (s.inode a).iSize = 0 ∨ u = (s.inode a).iSize / 512 + 1)
    (hroom : (s.inode a).iSize + count < 71680)
    (hgrow : GrowsWell ((s.inode a).iSize / 512 + 1) (((s.inode a).iSize + count) / 512 + 1))
    (hfree : s.blocksForWrite a count ≤ (freeBlocks E s.blockBitmap).card)
    (hheap : s.BuffersSupplied E) (hslot : ¬InOneSector (s.inode a).iNo) :
    fileWrite E f buf count s = .error .overrun := by
  obtain ⟨b, c, hb, hc⟩ := hheap
  obtain ⟨h₁, -, -, hino⟩ := h.buffers hb hc
  obtain ⟨t, ht, -, -, hno, hrun⟩ := h₁.fileWriteIn_run buf
    (by rwa [hino]) (by rwa [hino]) (by rwa [hino]) (by rwa [Fs.blocksForWrite, hino])
  rw [hino] at hno
  have hsize : ¬512 * 140 < ((s.inode a).iSize + count) % 2 ^ 32 := by
    rw [Nat.mod_eq_of_lt (by omega)]
    omega
  have hsectors := inodePosition_sectors_pos E ((t.inode a).iNo % 2 ^ 8)
  have hne : (inodePosition E ((t.inode a).iNo % 2 ^ 8)).sectors ≠ 1 := by
    rwa [hno, ne_eq, ← inOneSector_iff]
  have hstop : fileWriteIn E f a buf count ((s.alloc b .buffer).alloc c .buffer)
      = .error .overrun := by
    rw [hrun]
    exact bind_stop (inodeSync_overrun ht.mounted.part (by omega))
  have hb' : Returns (sysMalloc E Blk.buffer 512) s (some b) (s.alloc b .buffer) :=
    returns_sysMalloc.mpr ⟨hb.symm, rfl⟩
  have hc' : Returns (sysMalloc E Blk.buffer 560) (s.alloc b .buffer) (some c)
      ((s.alloc b .buffer).alloc c .buffer) :=
    returns_sysMalloc.mpr ⟨hc.symm, rfl⟩
  rw [fileWrite, (returns_fdInodeOf.mpr ⟨h.fd, rfl⟩).bind_run, h.opened.inodeAt_run, if_neg hsize,
    hb'.bind_run]
  change (sysMalloc E Blk.buffer 560 >>= _) (s.alloc b .buffer) = _
  rw [hc'.bind_run]
  exact bind_stop hstop

/-- `Fs.oneFile`, with another inode number. -/
def Fs.numbered (n : ℕ) : Fs := { Fs.oneFile with inode := fun _ ↦ Inode.init n }

theorem numbered_intact (n : ℕ) :
    FileIntact (Env.bump samplePartition) 3 kHeapStart (Fs.numbered n) 0 fun _ ↦ 0 :=
  ⟨oneFile_empty.mounted.of_same rfl rfl, oneFile_empty.rootBlock, oneFile_empty.fd,
    oneFile_empty.live, fileHolds_empty _ rfl fun _ _ ↦ rfl⟩

theorem not_transfersFit_fileWrite {n : ℕ} (h : ¬InOneSector n) : ¬TransfersFit n .fileWrite := by
  obtain ⟨hfree, hheap, -⟩ := @oneFile_supplied (fun _ ↦ 0) 1 (by decide)
  intro hfit
  exact hfit (Env.bump samplePartition) (Fs.numbered n) 3 kHeapStart (fun _ ↦ 0) 1
    (numbered_intact n).mounted rfl rfl ((numbered_intact n).fileWrite_overrun _ (Or.inl ⟨rfl, rfl⟩)
      (show 0 + 1 < 71680 by decide) (Or.inr (Or.inl (show (0 + 1) / 512 + 1 ≤ 12 by decide))) hfree
      hheap h)

/-- **The transfers fit their buffers**, those of `file_write` exactly if the slot of the inode lies
in one sector. -/
theorem transfersFit_iff (n : ℕ) (op : DiskOp) :
    TransfersFit n op ↔ (op = .fileWrite → InOneSector n) := by
  cases op with
  | fileCreate =>
    exact iff_of_true (fun E s dir name flag hm ↦ (fits_fileCreate dir name flag s hm).1) (by simp)
  | fileWrite =>
    refine ⟨fun h _ ↦ by_contra fun hno ↦ not_transfersFit_fileWrite hno h, fun h E s f a buf count
      hm hfd hno ↦ fileWrite_fits buf hm hfd (hno ▸ h rfl)⟩
  | sysMkdir => exact iff_of_true (fun E s path hm ↦ (fits_sysMkdir path s hm).1) (by simp)
  | sysUnlink => exact iff_of_true (fun E s path hm ↦ (fits_sysUnlink path s hm).1) (by simp)
  | sysRmdir => exact iff_of_true (fun E s path hm ↦ (fits_sysRmdir path s hm).1) (by simp)

/-- The slot of inode 6 starts 456 bytes into its sector. -/
theorem not_forall_transfersFit : ¬∀ n < 4096, ∀ op, TransfersFit n op :=
  fun h ↦ not_transfersFit_fileWrite (n := 6) (by decide) (h 6 (by decide) .fileWrite)

end GlowOS
