import Mathlib
import GlowOS.Fs.Syscalls

/-!
# What the file system leaves alone

A relation between states is `Neutral` if every primitive update relates its two states: an access
to the heap, the disk, an inode in memory, `open_inodes` or a bitmap. Then every completed run of a
function that is built from these relates its first and its last state. One pass over the functions
is enough for every frame.

The functions that neither open nor close anything use fewer primitives: the disk, the bitmaps, and
updates of an inode that keep its number and its open count. For these it is enough that the
relation is `Steady`.

The functions that open, search and close write neither to the disk nor to a bitmap; for them it is
enough that the relation is `Quiet`.

The functions that store into `file_table`, into the descriptors of a process or into `root_dir` are
not among them.
-/

namespace GlowOS

open Program

/-- The relation holds across updates of the disk, of a bitmap, and of an inode that keep its number
and its open count. -/
class Steady (R : Fs → Fs → Prop) : Prop extends Std.Refl R, IsTrans Fs R where
  store : ∀ s o n g, R s (s.store o n g)
  setBitmap : ∀ s ty i v, R s (s.setBitmap ((s.bitmap ty).set i v) ty)
  setInode : ∀ s a (i : Inode), i.iNo = (s.inode a).iNo → i.iOpenCnts = (s.inode a).iOpenCnts →
    R s (s.setInode a i)

/-- The relation holds across all primitive updates. -/
class Neutral (R : Fs → Fs → Prop) : Prop extends Steady R where
  tick : ∀ s, R s { s with tick := s.tick + 1 }
  alloc : ∀ s a k, R s (s.alloc a k)
  free : ∀ E s a, R s (s.free E a)
  stale : ∀ s x, R s { s with stale := x }
  replace : ∀ s a i, R s (s.setInode a i)
  tags : ∀ s t, R s { s with tags := t }

/-- The relation holds across all updates of the heap, the inodes in memory and `open_inodes`. -/
class Quiet (R : Fs → Fs → Prop) : Prop extends Std.Refl R, IsTrans Fs R where
  tick : ∀ s, R s { s with tick := s.tick + 1 }
  alloc : ∀ s a k, R s (s.alloc a k)
  free : ∀ E s a, R s (s.free E a)
  stale : ∀ s x, R s { s with stale := x }
  replace : ∀ s a i, R s (s.setInode a i)
  tags : ∀ s t, R s { s with tags := t }

instance (R : Fs → Fs → Prop) [Neutral R] : Quiet R where
  tick := Neutral.tick
  alloc := Neutral.alloc
  free := Neutral.free
  stale := Neutral.stale
  replace := Neutral.replace
  tags := Neutral.tags

/-! ## Reading -/

section Reading

variable {R : Fs → Fs → Prop} [Std.Refl R] [IsTrans Fs R] (E : Env)

theorem within_ideRead (lba room cnt : ℕ) : Within R (ideRead lba room cnt) :=
  .bind (.check _ _) fun _ ↦ .bind (.check _ _) fun _ ↦ .bind (.check _ _) fun _ ↦
    .bind (.check _ _) fun _ ↦ .bind .get fun _ ↦ .pure _

theorem within_readTable (lba : ℕ) (allBlocks : ℕ → ℕ) : Within R (readTable lba allBlocks) :=
  .bind (within_ideRead _ _ _) fun _ ↦ .pure _

theorem within_inodeAt (a : ℕ) : Within R (inodeAt a) :=
  .bind .get fun _ ↦ .bind (.check _ _) fun _ ↦ .pure _

theorem within_collectBlocks (ino : Inode) : Within R (collectBlocks ino) :=
  .ite (within_readTable _ _) (.pure _)

theorem within_searchBlocks (name : List UInt8) (allBlocks : ℕ → ℕ) (left k : ℕ) :
    Within R (searchBlocks E name allBlocks left k) := by
  induction left generalizing k with
  | zero => exact .pure _
  | succ left ih =>
    rw [searchBlocks]
    refine .ite (ih _) (.bind (within_ideRead _ _ _) fun buf ↦ ?_)
    cases Scan.firstFrom (fun j ↦ strEq buf (24 * j) name) (dirEntrysPerSec E) 0 with
    | none => exact ih _
    | some j => exact .pure _

theorem within_createDirEntry (filename : List UInt8) (n : ℕ) (fType : FileType) :
    Within R (createDirEntry filename n fType) :=
  .bind (.check _ _) fun _ ↦ .pure _

theorem within_scanBlock (buf : Bytes.Image) (n left j : ℕ) (r : BlockScan) :
    Within R (scanBlock buf n left j r) := by
  induction left generalizing j r with
  | zero => exact .pure _
  | succ left ih =>
    rw [scanBlock]
    exact .ite (.ite (ih _ _) (.ite (ih _ _) (.ite (.bind (.check _ _) fun _ ↦ ih _ _) (ih _ _))))
      (ih _ _)

theorem within_pathParse (p : List UInt8) : Within R (pathParse p) :=
  .bind (.check _ _) fun _ ↦ .pure _

theorem within_pathDepthFrom (fuel : ℕ) (name p : List UInt8) (depth : ℕ) :
    Within R (pathDepthFrom fuel name p depth) := by
  induction fuel generalizing name p depth with
  | zero => exact .throw _
  | succ fuel ih => exact .ite (.pure _) (.bind (within_pathParse p) fun _ ↦ ih _ _ _)

theorem within_pathDepthCnt (p : List UInt8) : Within R (pathDepthCnt p) :=
  .bind (within_pathParse p) fun _ ↦ .bind (.check _ _) fun _ ↦ within_pathDepthFrom _ _ _ _

theorem within_fdLocal2global (fd : ℕ) : Within R (fdLocal2global fd) :=
  .bind (.check _ _) fun _ ↦ .bind .get fun _ ↦ .bind (.check _ _) fun _ ↦
    .bind (.check _ _) fun _ ↦ .pure _

theorem within_statRoot (p : List UInt8) : Within R (statRoot p) :=
  .bind .get fun _ ↦ .ite (.bind (within_inodeAt _) fun _ ↦ .pure _) (.pure _)

end Reading

/-! ## Without opening or closing -/

section Steady

variable {R : Fs → Fs → Prop} [Steady R] (E : Env)

theorem within_ideWrite (lba room cnt : ℕ) (b : Bytes.Image) :
    Within R (ideWrite lba room cnt b) :=
  .bind (.check _ _) fun _ ↦ .bind (.check _ _) fun _ ↦ .bind (.check _ _) fun _ ↦
    .bind (.check _ _) fun _ ↦ .modify fun s ↦ Steady.store s _ _ _

theorem within_bitmapSet (ty : BitmapType) (i : ℕ) (v : Bool) : Within R (bitmapSet ty i v) :=
  .bind .get fun _ ↦ .bind (.check _ _) fun _ ↦ .modify fun s ↦ Steady.setBitmap s ty i v

theorem within_bitmapAlloc (ty : BitmapType) : Within R (bitmapAlloc ty) := by
  refine .bind .get fun s ↦ ?_
  cases (s.bitmap ty).scan 1 with
  | none => exact .pure _
  | some i => exact .bind (.modify fun s ↦ Steady.setBitmap s ty i true) fun _ ↦ .pure _

theorem within_blockBitmapAlloc : Within R (blockBitmapAlloc E) := by
  refine .bind (within_bitmapAlloc _) fun r ↦ ?_
  cases r with
  | none => exact .pure _
  | some i => exact .pure _

theorem within_bitmapSync (i : ℕ) (ty : BitmapType) : Within R (bitmapSync E i ty) :=
  .bind .get fun _ ↦ within_ideWrite _ _ _ _

theorem within_modifyInode (a : ℕ) {f : Inode → Inode} (hno : ∀ i, (f i).iNo = i.iNo)
    (hcnt : ∀ i, (f i).iOpenCnts = i.iOpenCnts) : Within R (modifyInode a f) := by
  intro s u s' h
  obtain ⟨-, rfl⟩ := returns_modifyInode.mp h
  exact Steady.setInode s a _ (hno _) (hcnt _)

theorem within_inodeSync (ino : Inode) (ioBuf : ℕ) : Within R (inodeSync E ino ioBuf) :=
  .bind (.bind (.check _ _) fun _ ↦ .pure _) fun _ ↦ .bind (.check _ _) fun _ ↦
    .bind (within_ideRead _ _ _) fun _ ↦ within_ideWrite _ _ _ _

theorem within_inodeDelete (n ioBuf : ℕ) : Within R (inodeDelete E n ioBuf) :=
  .bind (.check _ _) fun _ ↦ .bind (.bind (.check _ _) fun _ ↦ .pure _) fun _ ↦
    .bind (.check _ _) fun _ ↦ .bind (within_ideRead _ _ _) fun _ ↦ within_ideWrite _ _ _ _

theorem within_freeBlock (lba : ℕ) : Within R (freeBlock E lba) :=
  .bind (within_bitmapSet _ _ _) fun _ ↦ within_bitmapSync E _ _

theorem within_releaseBlocks (allBlocks : ℕ → ℕ) (left i : ℕ) :
    Within R (releaseBlocks E allBlocks left i) := by
  induction left generalizing i with
  | zero => exact .pure _
  | succ left ih =>
    rw [releaseBlocks]
    exact .ite (.bind (.check _ _) fun _ ↦ .bind (within_freeBlock E _) fun _ ↦ ih _) (ih _)

theorem within_setSector (a k lba : ℕ) : Within R (modifyInode a fun ino ↦ ino.setSector k lba) :=
  within_modifyInode a (fun _ ↦ rfl) fun _ ↦ rfl

theorem within_grow (a n : ℕ) : Within R (modifyInode a fun ino ↦ ino.grow n) :=
  within_modifyInode a (fun _ ↦ rfl) fun _ ↦ rfl

theorem within_shrink (a n : ℕ) : Within R (modifyInode a fun ino ↦ ino.shrink n) :=
  within_modifyInode a (fun _ ↦ rfl) fun _ ↦ rfl

theorem within_deny (a : ℕ) (b : Bool) : Within R (modifyInode a fun ino ↦ ino.deny b) :=
  within_modifyInode a (fun _ ↦ rfl) fun _ ↦ rfl

theorem within_placeEntry (a : ℕ) (e : DirEntry) (ioBuf lba : ℕ) :
    Within R (placeEntry E a e ioBuf lba) :=
  .bind (within_ideWrite _ _ _ _) fun _ ↦ .bind (within_grow _ _) fun _ ↦ .pure _

theorem within_syncNewBlock (a : ℕ) (e : DirEntry) (ioBuf : ℕ) (allBlocks : ℕ → ℕ) (k : ℕ) :
    Within R (syncNewBlock E a e ioBuf allBlocks k) := by
  refine .bind (within_blockBitmapAlloc E) fun r ↦ ?_
  cases r with
  | none => exact .pure _
  | some lba =>
    refine .bind (within_bitmapSync E _ _) fun _ ↦ .ite ?_ (.ite ?_ ?_)
    · exact .bind (within_setSector _ _ _) fun _ ↦ within_placeEntry E _ _ _ _
    · refine .bind (within_setSector _ _ _) fun _ ↦ .bind (within_blockBitmapAlloc E) fun r ↦ ?_
      cases r with
      | none =>
        exact .bind (within_inodeAt _) fun _ ↦ .bind (within_bitmapSet _ _ _) fun _ ↦
          .bind (within_setSector _ _ _) fun _ ↦ .pure _
      | some lba' =>
        exact .bind (within_bitmapSync E _ _) fun _ ↦ .bind (within_inodeAt _) fun _ ↦
          .bind (within_ideWrite _ _ _ _) fun _ ↦ within_placeEntry E _ _ _ _
    · exact .bind (within_inodeAt _) fun _ ↦ .bind (within_ideWrite _ _ _ _) fun _ ↦
        within_placeEntry E _ _ _ _

theorem within_syncBlocks (a : ℕ) (e : DirEntry) (ioBuf : ℕ) (allBlocks : ℕ → ℕ) (left k : ℕ) :
    Within R (syncBlocks E a e ioBuf allBlocks left k) := by
  induction left generalizing k with
  | zero => exact .pure _
  | succ left ih =>
    rw [syncBlocks]
    refine .ite (within_syncNewBlock E _ _ _ _ _) (.bind (within_ideRead _ _ _) fun buf ↦ ?_)
    cases Scan.firstFrom (fun j ↦ (DirEntry.decode buf (24 * j)).fType == .unknown)
      (dirEntrysPerSec E) 0 with
    | none => exact ih _
    | some j =>
      exact .bind (within_ideWrite _ _ _ _) fun _ ↦ .bind (within_grow _ _) fun _ ↦ .pure _

theorem within_syncDirEntry (dir : Dir) (e : DirEntry) (ioBuf : ℕ) :
    Within R (syncDirEntry E dir e ioBuf) :=
  .bind (within_inodeAt _) fun _ ↦ .bind (.check _ _) fun _ ↦ within_syncBlocks E _ _ _ _ _ _

theorem within_dropBlock (a k lba : ℕ) : Within R (dropBlock E a k lba) :=
  .bind (within_freeBlock E _) fun _ ↦ .ite (within_setSector _ _ _) (.throw _)

theorem within_deleteBlocks (a n ioBuf : ℕ) (allBlocks : ℕ → ℕ) (left k : ℕ) :
    Within R (deleteBlocks E a n ioBuf allBlocks left k) := by
  induction left generalizing k with
  | zero => exact .pure _
  | succ left ih =>
    rw [deleteBlocks]
    refine .ite (ih _) (.bind (within_ideRead _ _ _) fun buf ↦ ?_)
    refine .bind (within_scanBlock buf n _ _ _) fun r ↦ ?_
    -- behind the entry itself: the size, and the inode on disk
    have htail : Within R (do
        let ino ← inodeAt a
        ASSERT (E.part.sb.dirEntrySize ≤ ino.iSize)
        modifyInode a fun ino ↦ ino.shrink E.part.sb.dirEntrySize
        inBounds (1024 ≤ ioBuf)
        let ino ← inodeAt a
        inodeSync E ino ioBuf
        pure true : FsM Bool) :=
      .bind (within_inodeAt _) fun _ ↦ .bind (.check _ _) fun _ ↦ .bind (within_shrink _ _) fun _ ↦
        .bind (.check _ _) fun _ ↦ .bind (within_inodeAt _) fun _ ↦
          .bind (within_inodeSync E _ _) fun _ ↦ .pure _
    cases hr : r.dirEntryFound with
    | none => exact ih _
    | some j =>
      exact .bind (.check _ _) fun _ ↦ .ite (.bind (within_dropBlock E _ _ _) fun _ ↦ htail)
        (.bind (within_ideWrite _ _ _ _) fun _ ↦ htail)

theorem within_deleteDirEntry (dir : Dir) (n ioBuf : ℕ) :
    Within R (deleteDirEntry E dir n ioBuf) :=
  .bind (within_inodeAt _) fun _ ↦ .bind (within_collectBlocks _) fun _ ↦
    within_deleteBlocks E _ _ _ _ _ _

/-- The steps of `inode_release`: between opening and closing, what a steady relation allows, and
then a buffer for zeroing the slot. -/
theorem inodeRelease_split {n : ℕ} {s s' : Fs} {u : PUnit} (h : Returns (inodeRelease E n) s u s') :
    ∃ a t t₁ b t₂ t₃ t₄, Returns (inodeOpen E n) s a t ∧ R t t₁ ∧
      Returns (sysMallocUnchecked E Blk.buffer 1024) t₁ b t₂ ∧
      Returns (inodeDelete E n 1024) t₂ PUnit.unit t₃ ∧ Returns (sysFree E b) t₃ PUnit.unit t₄ ∧
      Returns (inodeClose E a) t₄ PUnit.unit s' := by
  obtain ⟨a, t, h1, h⟩ := returns_bind.mp h
  refine ⟨a, t, ?_⟩
  -- the number goes back to the inode bitmap, and the inode is zeroed and closed
  have htail : ∀ t₀, R t t₀ → Returns (do
      bitmapSet .inodeBitmap n false
      bitmapSync E n .inodeBitmap
      let ioBuf ← sysMallocUnchecked E Blk.buffer 1024
      inodeDelete E n 1024
      sysFree E ioBuf
      inodeClose E a : FsM PUnit) t₀ u s' → ∃ t₁ b t₂ t₃ t₄, Returns (inodeOpen E n) s a t ∧
        R t t₁ ∧ Returns (sysMallocUnchecked E Blk.buffer 1024) t₁ b t₂ ∧
        Returns (inodeDelete E n 1024) t₂ PUnit.unit t₃ ∧ Returns (sysFree E b) t₃ PUnit.unit t₄ ∧
        Returns (inodeClose E a) t₄ PUnit.unit s' := by
    intro t₀ h₀ h
    obtain ⟨u₁, v₁, g1, h⟩ := returns_bind.mp h
    obtain ⟨u₂, v₂, g2, h⟩ := returns_bind.mp h
    obtain ⟨b, v₃, g3, h⟩ := returns_bind.mp h
    obtain ⟨u₄, v₄, g4, h⟩ := returns_bind.mp h
    obtain ⟨u₅, v₅, g5, h⟩ := returns_bind.mp h
    have hR := IsTrans.trans _ _ _ h₀ (IsTrans.trans _ _ _ (within_bitmapSet _ _ _ _ _ _ g1)
      (within_bitmapSync E _ _ _ _ _ g2))
    exact ⟨v₂, b, v₃, v₄, v₅, h1, hR, g3, g4, g5, h⟩
  obtain ⟨ino, v, g, h⟩ := returns_bind.mp h
  obtain ⟨-, h⟩ := returns_check_bind.mp h
  obtain ⟨blocks, w, g', h⟩ := returns_bind.mp h
  have hR : R t w := IsTrans.trans _ _ _ (within_inodeAt a _ _ _ g) (within_collectBlocks _ _ _ _ g')
  rcases returns_ite.mp h with ⟨-, h⟩ | ⟨-, h⟩
  · -- the indirect table goes back before the blocks
    obtain ⟨-, h⟩ := returns_check_bind.mp h
    obtain ⟨u₁, v₁, g1, h⟩ := returns_bind.mp h
    obtain ⟨u₂, v₂, g2, h⟩ := returns_bind.mp h
    exact htail v₂ (IsTrans.trans _ _ _ hR (IsTrans.trans _ _ _ (within_freeBlock E _ _ _ _ g1)
      (within_releaseBlocks E _ _ _ _ _ _ g2))) h
  · obtain ⟨u₂, v₂, g2, h⟩ := returns_bind.mp h
    exact htail v₂ (IsTrans.trans _ _ _ hR (within_releaseBlocks E _ _ _ _ _ _ g2)) h

end Steady

/-! ## Writing to a file -/

/-- The relation holds across the updates that `file_write` makes between its buffers: those of
the disk, of a bitmap, of an inode in memory, and of the position in the file. -/
class Writing (R : Fs → Fs → Prop) : Prop extends Steady R where
  replace : ∀ s a i, R s (s.setInode a i)
  seek : ∀ s f n, R s (s.setFile f { s.fileTable f with fdPos := n })

section Writing

variable {R : Fs → Fs → Prop} [Writing R] (E : Env)

theorem within_writeInodeAt (a : ℕ) (ino : Inode) : Within R (setInodeAt a ino) :=
  .bind .get fun _ ↦ .bind (.check _ _) fun _ ↦ .modify fun s ↦ Writing.replace s a ino

theorem within_allocBlocks {place : ℕ → ℕ → FsM PUnit} (hplace : ∀ k lba, Within R (place k lba))
    (left k : ℕ) (allBlocks : ℕ → ℕ) : Within R (allocBlocks E place left k allBlocks) := by
  induction left generalizing k allBlocks with
  | zero => exact .pure _
  | succ left ih =>
    rw [allocBlocks]
    refine .bind (within_blockBitmapAlloc E) fun r ↦ ?_
    cases r with
    | none => exact .pure _
    | some lba => exact .bind (hplace k lba) fun _ ↦ .bind (within_bitmapSync E _ _) fun _ ↦ ih _ _

theorem within_allocFirst (a : ℕ) : Within R (allocFirst E a) := by
  refine .bind (within_inodeAt a) fun ino ↦ .ite (.bind (within_blockBitmapAlloc E) fun r ↦ ?_)
    (.pure _)
  cases r with
  | none => exact .pure _
  | some lba =>
    exact .bind (within_writeInodeAt a _) fun _ ↦ .bind (.check _ _) fun _ ↦
      .bind (within_bitmapSync E _ _) fun _ ↦ .pure _

theorem within_directBlock (a k lba : ℕ) : Within R (placeDirect a k lba) :=
  .bind (within_inodeAt a) fun _ ↦ .bind (.check _ _) fun _ ↦ within_writeInodeAt a _

theorem within_mixedBlock (a k lba : ℕ) : Within R (placeMixed a k lba) :=
  .ite (.bind (within_inodeAt a) fun _ ↦ .bind (.check _ _) fun _ ↦ .bind (.check _ _) fun _ ↦
    within_writeInodeAt a _) (.pure _)

theorem within_writeBlocks (a has will : ℕ) : Within R (writeBlocks E a has will) := by
  refine .bind (within_inodeAt a) fun ino ↦ .ite (.ite (.pure _) ?_) (.ite ?_ (.ite ?_ ?_))
  · exact .bind (.check _ _) fun _ ↦ .bind (within_readTable _ _) fun _ ↦ .pure _
  · exact .bind (.check _ _) fun _ ↦ .bind (.check _ _) fun _ ↦
      within_allocBlocks E (within_directBlock a) _ _ _
  · refine .bind (within_blockBitmapAlloc E) fun r ↦ ?_
    cases r with
    | none => exact .pure _
    | some lba =>
      refine .bind (.check _ _) fun _ ↦ .bind (within_writeInodeAt a _) fun _ ↦
        .bind (within_bitmapSync E _ _) fun _ ↦
          .bind (within_allocBlocks E (within_mixedBlock a) _ _ _) fun r' ↦ ?_
      cases r' with
      | none => exact .pure _
      | some b => exact .bind (within_ideWrite _ _ _ _) fun _ ↦ .pure _
  · refine .bind (.check _ _) fun _ ↦
      .bind (within_allocBlocks E (fun _ _ ↦ .pure _) _ _ _) fun r ↦ ?_
    cases r with
    | none => exact .pure _
    | some b => exact .bind (within_ideWrite _ _ _ _) fun _ ↦ .pure _

theorem within_writeSectors (f a : ℕ) (buf : Bytes.Image) (allBlocks : ℕ → ℕ)
    (fuel written sizeLeft : ℕ) (first : Bool) :
    Within R (writeSectors E f a buf allBlocks fuel written sizeLeft first) := by
  induction fuel generalizing written sizeLeft first with
  | zero => exact .ite (.pure _) (.throw _)
  | succ fuel ih =>
    exact .ite (.pure _) <| .bind (within_inodeAt a) fun _ ↦ .bind (.check _ _) fun _ ↦
      .bind (.ite (within_ideRead _ _ _) (.pure _)) fun _ ↦ .bind (within_ideWrite _ _ _ _) fun _ ↦
        .bind (within_writeInodeAt a _) fun _ ↦
          .bind (.modify fun s ↦ Writing.seek s f _) fun _ ↦ ih _ _ _

theorem within_fileWriteIn (f a : ℕ) (buf : Bytes.Image) (count : ℕ) :
    Within R (fileWriteIn E f a buf count) := by
  refine .bind (within_allocFirst E a) fun b ↦ .ite (.bind (within_inodeAt a) fun ino ↦
    .bind (.check _ _) fun _ ↦ .bind (within_writeBlocks E a _ _) fun r ↦ ?_) (.pure _)
  cases r with
  | none => exact .pure _
  | some allBlocks =>
    exact .bind (within_inodeAt a) fun _ ↦ .bind (.modify fun s ↦ Writing.seek s f _) fun _ ↦
      .bind (within_writeSectors E f a _ _ _ _ _ _) fun _ ↦ .bind (within_inodeAt a) fun _ ↦
        .bind (within_inodeSync E _ _) fun _ ↦ .pure _

end Writing

/-! ## With opening and closing -/

section Quiet

variable {R : Fs → Fs → Prop} [Quiet R] (E : Env)

theorem within_sysMalloc (k : Blk) (size : ℕ) : Within R (sysMalloc E k size) := by
  refine .bind .get fun s ↦ ?_
  cases E.malloc s.tick s.heap s.stale s.cur.pgdir.isNone size with
  | none => exact .bind (.modify Quiet.tick) fun _ ↦ .pure _
  | some a => exact .bind (.modify fun s ↦ Quiet.alloc s a k) fun _ ↦ .pure _

theorem within_sysMallocUnchecked (k : Blk) (size : ℕ) :
    Within R (sysMallocUnchecked E k size) := by
  refine .bind (within_sysMalloc E k size) fun r ↦ ?_
  cases r with
  | none => exact .throw _
  | some a => exact .pure a

theorem within_sysFree (a : ℕ) : Within R (sysFree E a) :=
  .bind .get fun _ ↦ .bind (.check _ _) fun _ ↦ .modify fun s ↦ Quiet.free E s a

/-- `pgdir` is back when a block of the kernel pool was allocated. -/
theorem within_mallocKernel (k : Blk) (size : ℕ) :
    Within R (withKernelPgdir (sysMallocUnchecked E k size)) := by
  intro s a s' h
  obtain ⟨-, rfl⟩ := returns_malloc_kernel.mp h
  exact Quiet.alloc s a k

theorem within_freeKernel (a : ℕ) : Within R (withKernelPgdir (sysFree E a)) := by
  intro s u s' h
  obtain ⟨-, rfl⟩ := returns_free_kernel.mp h
  exact Quiet.free E s a

theorem within_setInodeAt (a : ℕ) (ino : Inode) : Within R (setInodeAt a ino) :=
  .bind .get fun _ ↦ .bind (.check _ _) fun _ ↦ .modify fun s ↦ Quiet.replace s a ino

theorem within_replaceInode (a : ℕ) (f : Inode → Inode) : Within R (modifyInode a f) :=
  .bind (within_inodeAt a) fun _ ↦ within_setInodeAt a _

theorem within_pushOpen (a : ℕ) : Within R (modify fun s ↦ s.pushOpen a : FsM PUnit) :=
  .modify fun s ↦ Quiet.tags s _

theorem within_inodeLoad (n : ℕ) : Within R (inodeLoad E n) := by
  have hload : ∀ a img o, Within R (modify fun s ↦ s.loadInode a img o : FsM PUnit) :=
    fun a img o ↦ .modify fun s ↦
      IsTrans.trans _ _ _ (Quiet.replace s a (Inode.decode img o))
        (Quiet.tags (s.setInode a (Inode.decode img o)) (s.loadInode a img o).tags)
  refine .bind (.bind (.check _ _) fun _ ↦ .pure _) fun pos ↦ ?_
  refine .bind (within_mallocKernel E _ _) fun a ↦ ?_
  refine .bind (within_sysMallocUnchecked E _ _) fun b ↦ .bind (within_ideRead _ _ _) fun img ↦ ?_
  refine .bind (hload a img _) fun _ ↦ .bind (within_pushOpen a) fun _ ↦ ?_
  exact .bind (.modify fun s ↦ Quiet.replace s a _) fun _ ↦
    .bind (within_sysFree E b) fun _ ↦ .pure _

theorem within_inodeOpen (n : ℕ) : Within R (inodeOpen E n) := by
  refine .bind .get fun s ↦ ?_
  cases s.findOpen n with
  | none => exact .throw _
  | some r =>
    cases r with
    | none => exact within_inodeLoad E n
    | some a => exact .bind (.modify fun s ↦ Quiet.replace s a _) fun _ ↦ .pure _

theorem within_inodeClose (a : ℕ) : Within R (inodeClose E a) := by
  refine .bind (within_inodeAt a) fun ino ↦ ?_
  refine .bind (.modify fun s ↦ Quiet.replace s a _) fun _ ↦ .ite ?_ (.pure _)
  exact .bind (within_freeKernel E a) fun _ ↦ .modify fun s ↦ Quiet.stale s _

theorem within_dirOpen (n : ℕ) : Within R (dirOpen E n) :=
  .bind (within_sysMallocUnchecked E _ _) fun _ ↦ .bind (within_inodeOpen E n) fun _ ↦ .pure _

theorem within_dirClose (dir : Dir) : Within R (dirClose E dir) := by
  rw [dirClose]
  cases dir.block with
  | none => exact .pure _
  | some b => exact .bind (within_inodeClose E _) fun _ ↦ within_sysFree E b

theorem within_searchDirEntry (pdir : Dir) (name : List UInt8) :
    Within R (searchDirEntry E pdir name) := by
  refine .bind (within_sysMalloc E _ _) fun r ↦ ?_
  cases r with
  | none => exact .pure _
  | some b =>
    exact .bind (within_inodeAt _) fun _ ↦ .bind (within_collectBlocks _) fun _ ↦
      .bind (within_sysMallocUnchecked E _ _) fun _ ↦ .bind (within_searchBlocks E _ _ _ _) fun _ ↦
        .bind (within_sysFree E _) fun _ ↦ .bind (within_sysFree E _) fun _ ↦ .pure _

theorem within_searchFrom (fuel : ℕ) (name subPath : List UInt8) (parentInodeNo : ℕ)
    (last : Option ℕ) (r : PathSearchRecord) :
    Within R (searchFrom E fuel name subPath parentInodeNo last r) := by
  -- one round of the loop: the search ends, or goes on in the same or in another directory
  induction fuel generalizing name subPath parentInodeNo last r with
  | zero => exact .throw _
  | succ fuel ih =>
    refine .ite ?_ (.bind (.check _ _) fun _ ↦ .bind (.check _ _) fun _ ↦ ?_)
    · refine .bind (within_dirClose E _) fun _ ↦ .bind (within_dirOpen E _) fun _ ↦ ?_
      cases last with
      | none => exact .throw _
      | some n => exact .pure _
    · refine .bind (within_searchDirEntry E _ _) fun found ↦ ?_
      cases found with
      | none => exact .pure _
      | some e =>
        refine .bind (within_pathParse _) fun _ ↦ ?_
        cases he : e.fType with
        | directory =>
          exact .bind (within_inodeAt _) fun _ ↦ .bind (within_dirClose E _) fun _ ↦
            .bind (within_dirOpen E _) fun _ ↦ ih _ _ _ _ _
        | regular => exact .pure _
        | unknown => exact ih _ _ _ _ _
        | other v => exact ih _ _ _ _ _

theorem within_searchFile (p : List UInt8) : Within R (searchFile E p) :=
  .bind .get fun _ ↦ .ite (.pure _) (.bind (.check _ _) fun _ ↦ .bind (within_pathParse p) fun _ ↦
    within_searchFrom E _ _ _ _ _ _)

end Quiet

end GlowOS
