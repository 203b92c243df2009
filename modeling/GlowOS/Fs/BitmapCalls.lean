import Mathlib
import GlowOS.Fs.Path
import GlowOS.Fs.WriteThrough

/-!
# The calls that change a bitmap

`file_create` and `sys_mkdir` take an inode number in memory first and write its sector at the very
end, or set the bit back when they fail. `Pending` describes the states in between: the bit is set in
memory, and the inode bitmap on the disk is as it was.

`BitmapCall` lists the calls, and `inSync_iff` says of each of them exactly when it keeps the bitmaps
in sync.
-/

namespace GlowOS

open Bytes Program

/-! ## A number that is not written yet -/

/-- Bit `n` of the inode bitmap was set in memory since `s`, and not on the disk. -/
structure Pending (E : Env) (n : ℕ) (s t : Fs) : Prop where
  mounted : t.Mounted E
  memory : t.inodeBitmap = s.inodeBitmap.set n true
  disk : ∀ k < s.inodeBitmap.btmpBytesLen,
    t.disk (512 * bitmapLba E .inodeBitmap + k) = s.disk (512 * bitmapLba E .inodeBitmap + k)

section Pending

variable {E : Env} {s t t' : Fs} {n : ℕ} {u : PUnit}

/-- The steps between the two. -/
theorem Pending.step (h : Pending E n s t) (hk : KeepsView E .inodeBitmap t t') :
    Pending E n s t' := by
  obtain ⟨hm, hmem, hdisk⟩ := hk h.mounted
  refine ⟨hm, hmem.trans h.memory, fun k hk ↦ ?_⟩
  have hlen : (t.bitmap .inodeBitmap).btmpBytesLen = s.inodeBitmap.btmpBytesLen :=
    (congrArg Bitmap.btmpBytesLen h.memory).trans (Bitmap.set_btmpBytesLen _ _ _)
  rw [hdisk k (by rwa [hlen]), h.disk k hk]

theorem Pending.start (hm : s.Mounted E) :
    Pending E n s (s.setBitmap (s.inodeBitmap.set n true) .inodeBitmap) :=
  ⟨hm.setBitmap (τ := .inodeBitmap), rfl, fun _ _ ↦ rfl⟩

/-- The bitmap before bit `n` was set is in sync with the disk. -/
theorem Pending.inSyncAt (h : Pending E n s t) (hs : s.InSyncAt E .inodeBitmap) :
    (t.setBitmap s.inodeBitmap .inodeBitmap).InSyncAt E .inodeBitmap :=
  SameView.inSyncAt (s := s) ⟨rfl, h.disk⟩ hs

/-- The sector of the bit is written. -/
theorem Pending.written (h : Pending E n s t) (hs : s.InSyncAt E .inodeBitmap)
    (hret : Returns (bitmapSync E n .inodeBitmap) t u t') :
    t'.Mounted E ∧ t'.InSyncAt E .inodeBitmap ∧ SameView E .blockBitmap t t' := by
  obtain ⟨-, hroom, rfl⟩ := returns_bitmapSync.mp hret
  have hm := h.mounted
  refine ⟨⟨hm.part, hm.blockLen, hm.inodeLen⟩, ?_, sameView_syncedBitmap hm nofun hroom⟩
  exact inSyncAt_written (h.inSyncAt hs) rfl h.memory

/-- The bit is set back. -/
theorem Pending.undone (h : Pending E n s t) (hs : s.InSyncAt E .inodeBitmap)
    (hfree : s.inodeBitmap.bit n = false) (hret : Returns (bitmapSet .inodeBitmap n false) t u t') :
    t'.Mounted E ∧ t'.InSyncAt E .inodeBitmap ∧ SameView E .blockBitmap t t' := by
  obtain ⟨-, rfl⟩ := returns_bitmapSet.mp hret
  refine ⟨h.mounted.setBitmap, fun i hi ↦ ?_, .of_eq rfl rfl⟩
  have hmem : (t.setBitmap ((t.bitmap .inodeBitmap).set n false) .inodeBitmap).bitmap .inodeBitmap
      = (s.inodeBitmap.set n true).set n false := by
    rw [← h.memory]
    rfl
  rw [hmem] at hi ⊢
  have hbits := h.inSyncAt hs i hi
  have hbit : ((s.inodeBitmap.set n true).set n false).bit i = s.inodeBitmap.bit i := by
    rw [Bitmap.bit_set, Bitmap.bit_set]
    split_ifs with hin
    · rw [hin, hfree]
    · rfl
  rw [hbit]
  exact hbits

end Pending

/-! ## Creating a file -/

section Create

variable {E : Env} {s s' t : Fs} {a f ioBuf n flag : ℕ} {dir : Dir} {name : List UInt8}

theorem SameView.inSyncAt_iff {τ : BitmapType} (h : SameView E τ s s') :
    s'.InSyncAt E τ ↔ s.InSyncAt E τ := by
  refine ⟨fun hs ↦ ?_, h.inSyncAt⟩
  have hback : SameView E τ s' s := ⟨h.memory.symm, fun k hk ↦ by
    rw [h.memory] at hk
    rw [h.disk k hk]⟩
  exact hback.inSyncAt hs

/-- A step that keeps the view of both bitmaps. -/
theorem Pending.quiet {m : FsM PUnit} (hm : ∀ τ, Within (KeepsView E τ) m) {u : PUnit} {t' : Fs}
    (h : Pending E n s t) (hret : Returns m t u t') :
    Pending E n s t' ∧ SameView E .blockBitmap t t' :=
  ⟨h.step (hm _ _ _ _ hret), (hm _ _ _ _ hret h.mounted).2⟩

/-- A failed `file_create` sets the bit back. -/
theorem fileCreateRollback_sync {newInode fdIdx r : Option ℕ} (h : Pending E n s t)
    (hs : s.InSyncAt E .inodeBitmap) (hfree : s.inodeBitmap.bit n = false)
    (hret : Returns (fileCreateRollback E ioBuf n newInode fdIdx) t r s') :
    s'.InSyncAt E .inodeBitmap ∧ SameView E .blockBitmap t s' := by
  -- the end, for each of the cases
  have hend : ∀ t₁, Pending E n s t₁ → Returns (do
        bitmapSet .inodeBitmap n false
        sysFree E ioBuf
        pure none : FsM (Option ℕ)) t₁ r s' →
      s'.InSyncAt E .inodeBitmap ∧ SameView E .blockBitmap t₁ s' := by
    intro t₁ h₁ hret
    obtain ⟨u, t₂, h2, hret⟩ := returns_bind.mp hret
    obtain ⟨hm₂, hs₂, hview₂⟩ := h₁.undone hs hfree h2
    obtain ⟨u, t₃, h3, hret⟩ := returns_bind.mp hret
    obtain ⟨rfl, rfl⟩ := returns_pure.mp hret
    have hfreed := fun τ ↦ within_sysFree (R := KeepsView E τ) E ioBuf _ _ _ h3 hm₂
    exact ⟨(hfreed _).2.inSyncAt hs₂, hview₂.trans (hfreed _).2⟩
  have hinode : ∀ t₁, Pending E n s t₁ →
      Returns (fileCreateRollback E ioBuf n newInode none) t₁ r s' →
      s'.InSyncAt E .inodeBitmap ∧ SameView E .blockBitmap t₁ s' := by
    intro t₁ h₁ hret
    cases newInode with
    | none => exact hend t₁ h₁ hret
    | some a =>
      obtain ⟨u, t₂, h2, hret⟩ := returns_bind.mp hret
      obtain ⟨h₂, hview⟩ := h₁.quiet (fun _ ↦ within_sysFree E a) h2
      obtain ⟨hs', hview'⟩ := hend t₂ h₂ hret
      exact ⟨hs', hview.trans hview'⟩
  cases fdIdx with
  | none => exact hinode t h hret
  | some f =>
    have hfile : ∀ τ, KeepsView E τ t (t.setFile f ⟨0, 0, none⟩) := fun τ ↦
      .of_eq rfl fun τ ↦ by cases τ <;> rfl
    rw [fileCreateRollback] at hret
    obtain ⟨hs', hview'⟩ := hinode _ (h.step (hfile _)) (returns_modify_bind.mp hret)
    exact ⟨hs', (hfile _ h.mounted).2.trans hview'⟩

/-- `file_create` from the free slot of the file table on, with a directory of the data area. -/
theorem fileCreateIn_sync {r : Option ℕ} (h : Pending E n s t) (hs : s.InSyncAt E .inodeBitmap)
    (hfree : s.inodeBitmap.bit n = false) (hdir : dir.inode ≠ a)
    (hdata : (t.inode dir.inode).InData E t.disk) (hb : t.InSyncAt E .blockBitmap)
    (hret : Returns (fileCreateIn E dir name flag ioBuf n a) t r s') :
    s'.InSyncAt E .inodeBitmap ∧ (s'.InSyncAt E .blockBitmap ↔
      ¬(TableLost t dir.inode ∧
        Scan.firstFrom (fun i ↦ (t.fileTable i).fdInode.isNone) (maxFileOpen - 3) 3 ≠ none)) := by
  obtain ⟨slotNo, t₁, h1, hret⟩ := returns_bind.mp hret
  rw [getFreeSlotInGlobal, returns_get_bind] at h1
  obtain ⟨rfl, rfl⟩ := returns_pure.mp h1
  cases hf : Scan.firstFrom (fun i ↦ (t₁.fileTable i).fdInode.isNone) (maxFileOpen - 3) 3 with
  | none =>
    rw [hf] at hret
    obtain ⟨hs', hview⟩ := fileCreateRollback_sync h hs hfree hret
    exact ⟨hs', iff_of_true (hview.inSyncAt hb) fun hlost ↦ hlost.2 rfl⟩
  | some f =>
    rw [hf] at hret
    obtain ⟨u, t₂, h2, hret⟩ := returns_bind.mp hret
    obtain ⟨-, rfl⟩ := returns_modifyInode.mp h2
    rw [returns_modify_bind] at hret
    obtain ⟨e, t₃, h3, hret⟩ := returns_bind.mp hret
    obtain ⟨-, h3⟩ := returns_check_bind.mp h3
    obtain ⟨rfl, rfl⟩ := returns_pure.mp h3
    set t₂ := (t₁.setInode a ((t₁.inode a).deny false)).setFile f ⟨0, flag, some a⟩ with ht₂
    have hkeep : ∀ τ, KeepsView E τ t₁ t₂ := fun τ ↦ .of_eq rfl fun τ ↦ by cases τ <;> rfl
    have hino : t₂.inode dir.inode = t₁.inode dir.inode := Function.update_of_ne hdir ..
    have hpend := h.step (hkeep _)
    have hb₂ := (hkeep .blockBitmap h.mounted).2.inSyncAt hb
    obtain ⟨ok, t₄, h4, hret⟩ := returns_bind.mp hret
    obtain ⟨hm₄, hview₄, hiff⟩ := syncDirEntry_sync hpend.mounted (by rw [hino]; exact hdata) h4
    have hpend₄ : Pending E n s t₄ := hpend.step fun _ ↦ ⟨hm₄, hview₄⟩
    have hlost : TableLost t₂ dir.inode ↔ TableLost t₁ dir.inode := by
      rw [TableLost, TableLost, hino]
      rfl
    -- the tail keeps the view of the block bitmap
    suffices htail : s'.InSyncAt E .inodeBitmap ∧ SameView E .blockBitmap t₄ s' by
      refine ⟨htail.1, htail.2.inSyncAt_iff.trans ((hiff hb₂).trans (not_congr ?_))⟩
      exact hlost.trans (and_iff_left_of_imp fun _ ↦ nofun).symm
    rcases returns_ite.mp hret with ⟨-, hret⟩ | ⟨-, hret⟩
    · have hwrite : ∀ τ, Within (KeepsView E τ) (do
          let parent ← inodeAt dir.inode
          inodeSync E parent 1024
          let ino ← inodeAt a
          inodeSync E ino 1024 : FsM PUnit) := fun τ ↦
        .bind (within_inodeAt _) fun _ ↦ .bind (within_writeInode _ _) fun _ ↦
          .bind (within_inodeAt _) fun _ ↦ within_writeInode _ _
      have hlast : ∀ τ, Within (KeepsView E τ) (do
          modify fun s ↦ s.pushOpen a
          modifyInode a fun ino ↦ { ino with iOpenCnts := 1 }
          sysFree E ioBuf
          pcbFdInstall f : FsM (Option ℕ)) := by
        intro τ
        refine .bind (within_pushOpen a) fun _ ↦ .bind (within_replaceInode _ _) fun _ ↦
          .bind (within_sysFree E _) fun _ ↦ .bind .get fun s ↦ ?_
        cases Scan.firstFrom (fun fd ↦ s.cur.fdTable fd == -1) (maxFilesOpenPerProc - 3) 3 with
        | none => exact .pure _
        | some fd =>
          exact .bind (.modify fun s ↦ .of_eq rfl fun τ ↦ by cases τ <;> rfl) fun _ ↦ .pure _
      obtain ⟨parent, t₅, h5, hret⟩ := returns_bind.mp hret
      obtain ⟨u, t₆, h6, hret⟩ := returns_bind.mp hret
      obtain ⟨ino, t₇, h7, hret⟩ := returns_bind.mp hret
      obtain ⟨u, t₈, h8, hret⟩ := returns_bind.mp hret
      obtain ⟨u, t₉, h9, hret⟩ := returns_bind.mp hret
      obtain ⟨h₈, hview₈⟩ := hpend₄.quiet hwrite (returns_bind.mpr ⟨_, _, h5,
        returns_bind.mpr ⟨_, _, h6, returns_bind.mpr ⟨_, _, h7, h8⟩⟩⟩)
      obtain ⟨hm₉, hs₉, hview₉⟩ := h₈.written hs h9
      have hview' := fun τ ↦ hlast τ _ _ _ hret hm₉
      exact ⟨(hview' _).2.inSyncAt hs₉, (hview₈.trans hview₉).trans (hview' _).2⟩
    · exact fileCreateRollback_sync hpend₄ hs hfree hret

/-- `file_create` gets as far as the insertion: the heap answers twice, and there are a free inode
number and a free entry of the file table. -/
def Fs.CreateReaches (E : Env) (s : Fs) : Prop :=
  ∃ io, s.answer E 1024 = some io ∧ s.inodeBitmap.scan 1 ≠ none ∧
    (s.alloc io Blk.buffer).answer E 76 ≠ none ∧
    Scan.firstFrom (fun i ↦ (s.fileTable i).fdInode.isNone) (maxFileOpen - 3) 3 ≠ none

theorem InSync_iff : s.InSync E ↔ s.InSyncAt E .inodeBitmap ∧ s.InSyncAt E .blockBitmap :=
  ⟨fun h ↦ ⟨h _, h _⟩, fun h τ ↦ by cases τ <;> [exact h.1; exact h.2]⟩

/-- **`file_create`** keeps the bitmaps in sync except when it gets to an insertion that loses a
table. -/
theorem fileCreate_sync {r : Option ℕ} (hm : s.Mounted E) (hlive : s.heap dir.inode = some Blk.inode)
    (hdata : (s.inode dir.inode).InData E s.disk) (hs : s.InSync E)
    (h : Returns (fileCreate E dir name flag) s r s') :
    s'.InSync E ↔ ¬(TableLost s dir.inode ∧ s.CreateReaches E) := by
  obtain ⟨ans, t, h1, h⟩ := returns_bind.mp h
  obtain ⟨rfl, rfl⟩ := returns_sysMalloc.mp h1
  have hquiet : ∀ {t : Fs}, SameStore s t → t.InSync E := fun hk τ ↦
    (hk.keepsView (τ := τ) hm).2.inSyncAt (hs τ)
  cases hio : s.answer E 1024 with
  | none =>
    rw [hio] at h
    obtain ⟨rfl, rfl⟩ := returns_pure.mp h
    refine iff_of_true (hquiet (Quiet.tick s)) ?_
    rintro ⟨-, io, hio', -⟩
    cases hio.symm.trans hio'
  | some io =>
    rw [hio] at h
    set s₁ := s.alloc io Blk.buffer with hs₁
    have hk₁ : SameStore s s₁ := Quiet.alloc s io _
    obtain ⟨hino₁, hlive₁⟩ := alloc_inode_of_live (k := Blk.buffer) hlive hio
    obtain ⟨ans, t₁, h2, h⟩ := (returns_bind (s := s₁)).mp h
    obtain ⟨hans, ht₁⟩ := returns_bitmapAlloc.mp h2
    have hscan : ans = s.inodeBitmap.scan 1 := hans
    cases hn : s.inodeBitmap.scan 1 with
    | none =>
      rw [hscan, hn] at h ht₁
      obtain ⟨rfl, rfl⟩ := returns_pure.mp h
      rw [ht₁]
      refine iff_of_true (hquiet hk₁) ?_
      rintro ⟨-, io, -, hn', -⟩
      exact hn' hn
    | some n =>
      rw [hscan, hn] at h ht₁
      have hm₁ : s₁.Mounted E := hk₁.mounted hm
      have hpend : Pending E n s₁ t₁ := ht₁ ▸ Pending.start hm₁
      have hfree : s₁.inodeBitmap.bit n = false := (Bitmap.scan_one_eq_some.mp hn).2.1
      have hsync := hquiet hk₁
      have hb₁ : t₁.InSyncAt E .blockBitmap := by
        have hview : SameView E .blockBitmap s₁
            (s₁.setBitmap (s₁.inodeBitmap.set n true) .inodeBitmap) := .of_eq rfl rfl
        rw [ht₁]
        exact hview.inSyncAt (hsync _)
      have hlost₁ : t₁.disk = s.disk ∧ t₁.blockBitmap = s.blockBitmap ∧ t₁.inode = s₁.inode ∧
          t₁.heap = s₁.heap ∧ t₁.fileTable = s.fileTable := by
        rw [ht₁]
        exact ⟨rfl, rfl, rfl, rfl, rfl⟩
      obtain ⟨hd, hbm, hi, hh, hft⟩ := hlost₁
      have hans₂ : t₁.answer E 76 = s₁.answer E 76 := by
        rw [ht₁]
        rfl
      obtain ⟨ans₂, t₂, h3, h⟩ := returns_bind.mp h
      obtain ⟨rfl, rfl⟩ := returns_sysMalloc.mp h3
      rw [hans₂] at h
      cases ha : s₁.answer E 76 with
      | none =>
        rw [ha] at h
        obtain ⟨hs', hview⟩ := fileCreateRollback_sync (hpend.step (Quiet.tick t₁)) (hsync _) hfree h
        have hview₁ : SameView E .blockBitmap t₁ { t₁ with tick := t₁.tick + 1 } := .of_eq rfl rfl
        refine iff_of_true (InSync_iff.mpr ⟨hs', hview.inSyncAt (hview₁.inSyncAt hb₁)⟩) ?_
        rintro ⟨-, io', hio', -, ha', -⟩
        obtain rfl := Option.some.inj (hio.symm.trans hio')
        exact ha' ha
      | some a =>
        rw [ha] at h
        obtain ⟨u, t₃, h4, h⟩ := returns_bind.mp h
        obtain ⟨-, rfl⟩ := returns_setInodeAt.mp h4
        have hlive₂ : t₁.heap dir.inode = some Blk.inode := by rw [hh, hlive₁]
        have ha' : t₁.answer E 76 = some a := hans₂.trans ha
        obtain ⟨hino₂, -⟩ := alloc_inode_of_live (k := Blk.inode) hlive₂ ha'
        have hne : dir.inode ≠ a := by
          rintro rfl
          cases (E.malloc_fresh ha').symm.trans hlive₂
        set t₂ := (t₁.alloc a Blk.inode).setInode a (Inode.init n) with ht₂
        have hk₂ : ∀ τ, KeepsView E τ t₁ t₂ := fun τ ↦ .of_eq rfl fun τ ↦ by cases τ <;> rfl
        have hino : t₂.inode dir.inode = s.inode dir.inode := by
          rw [ht₂, Fs.setInode_inode, Function.update_of_ne hne, hino₂, hi, hino₁]
        have hdisk : t₂.disk = s.disk := hd
        obtain ⟨hs', hiff⟩ := fileCreateIn_sync (hpend.step (hk₂ _)) (hsync _) hfree hne
          (by rw [hino, hdisk]; exact hdata)
          ((hk₂ .blockBitmap hpend.mounted).2.inSyncAt hb₁) h
        have hlost : TableLost t₂ dir.inode ↔ TableLost s dir.inode := by
          rw [TableLost, TableLost, hino, hdisk]
          change _ ∧ OneFree t₁.blockBitmap ↔ _
          rw [hbm]
        have hfile : t₂.fileTable = s.fileTable := hft
        rw [InSync_iff, and_iff_right hs', hiff, hlost, hfile]
        refine not_congr (and_congr_right fun _ ↦ ⟨fun hf ↦ ⟨io, hio, ?_, ?_, hf⟩, ?_⟩)
        · rw [hn]
          nofun
        · rw [← hs₁, ha]
          nofun
        · rintro ⟨-, -, -, -, hf⟩
          exact hf

end Create

/-! ## Creating a directory -/

section Mkdir

variable {E : Env} {s s' t : Fs} {n : ℕ} {p : List UInt8} {r : PathSearchRecord}

/-- `sys_mkdir` gets as far as the insertion, and the insertion loses a table: the search of the path
ends without the last component in a directory whose direct blocks are full, an inode number is
free, and two blocks are. -/
def Fs.MkdirLoses (E : Env) (s : Fs) (p : List UInt8) : Prop :=
  ∃ io r t, s.answer E 1024 = some io ∧
    Returns (searchFile E p) (s.alloc io Blk.buffer) (none, r) t ∧
    (components p).length = (components r.searchedPath).length ∧
    s.inodeBitmap.scan 1 ≠ none ∧
    (∃ i, s.blockBitmap.scan 1 = some i ∧ OneFree (s.blockBitmap.set i true)) ∧
    DirectFull s.disk (t.inode r.parentDir.inode)

/-- The directory in which the search of a missing path ends owns its blocks. -/
def Fs.ParentOwns (E : Env) (s : Fs) (p : List UInt8) : Prop :=
  ∀ io r t, s.answer E 1024 = some io →
    Returns (searchFile E p) (s.alloc io Blk.buffer) (none, r) t →
    (t.inode r.parentDir.inode).Owns E s.disk s.blockBitmap

/-- A failed `sys_mkdir` sets the bit back, if it was set. -/
theorem sysMkdirRollback_sync {io : ℕ} {ok : Bool} (h : Pending E n s t)
    (hs : s.InSyncAt E .inodeBitmap) (hfree : s.inodeBitmap.bit n = false)
    (hret : Returns (sysMkdirRollback E io r (some n)) t ok s') :
    s'.InSyncAt E .inodeBitmap ∧ SameView E .blockBitmap t s' := by
  obtain ⟨u, t₁, h1, hret⟩ := returns_bind.mp hret
  obtain ⟨hm₁, hs₁, hview₁⟩ := h.undone hs hfree h1
  have hend : ∀ τ, Within (KeepsView E τ) (do
      dirClose E r.parentDir
      sysFree E io
      pure false : FsM Bool) := fun τ ↦
    .bind (within_dirClose E _) fun _ ↦ .bind (within_sysFree E _) fun _ ↦ .pure _
  have hview := fun τ ↦ (hend τ _ _ _ hret hm₁).2
  exact ⟨(hview _).inSyncAt hs₁, hview₁.trans (hview _)⟩

theorem within_sysMkdirRollback (io : ℕ) : Within SameStore (sysMkdirRollback E io r none) :=
  .bind (within_dirClose E _) fun _ ↦ .bind (within_sysFree E _) fun _ ↦ .pure _

/-- What is written to a block of its own does not change whether a directory is full. -/
theorem directFull_congr {d d' : Image} {ino : Inode}
    (h : ∀ k < 12, ino.iSectors k ≠ 0 → SameSector d d' (ino.iSectors k)) :
    DirectFull d' ino ↔ DirectFull d ino := by
  refine forall₂_congr fun k hk ↦ and_congr_right fun h0 ↦ forall₂_congr fun j hj ↦ ?_
  rw [entryAt_congr (h k hk h0) hj]

/-- The part of `sys_mkdir` that has an inode number and a block. -/
theorem sysMkdirIn_sync {io i : ℕ} {ok : Bool} (h : Pending E n s t)
    (hs : s.InSyncAt E .inodeBitmap) (hfree : s.inodeBitmap.bit n = false)
    (hi : t.blockBitmap.scan 1 = some i) (hb : t.InSyncAt E .blockBitmap)
    (howns : (t.inode r.parentDir.inode).Owns E t.disk t.blockBitmap)
    (hret : Returns (sysMkdirIn E io r n (E.part.sb.dataStartLba + i))
      (t.setBitmap (t.blockBitmap.set i true) .blockBitmap) ok s') :
    s'.InSyncAt E .inodeBitmap ∧ (s'.InSyncAt E .blockBitmap ↔
      ¬(DirectFull t.disk (t.inode r.parentDir.inode) ∧ OneFree (t.blockBitmap.set i true))) := by
  have hm := h.mounted
  obtain ⟨hlt, hbit, -⟩ := Bitmap.scan_one_eq_some.mp hi
  have hidx : blockBitmapIdx E (E.part.sb.dataStartLba + i) = i := blockBitmapIdx_add (hm.bit_lt hlt)
  obtain ⟨-, hret⟩ := returns_check_bind.mp hret
  obtain ⟨u, t₁, h1, hret⟩ := returns_bind.mp hret
  rw [hidx] at h1
  obtain ⟨-, -, ht₁⟩ := returns_bitmapSync.mp h1
  have ht₁ : t₁ = t.takeBlock E i := ht₁
  have hpend₁ : Pending E n s t₁ := ht₁ ▸ h.step (keepsView_takeBlock hi)
  have hb₁ : t₁.InSyncAt E .blockBitmap := ht₁ ▸ (keepsSync_takeBlock hi hm _ hm).2 hb
  obtain ⟨parent, t₂, h2, hret⟩ := returns_bind.mp hret
  obtain ⟨-, rfl, rfl⟩ := returns_inodeAt.mp h2
  obtain ⟨u, t₃, h3, hret⟩ := returns_bind.mp hret
  have hoff : OffBitmaps E (E.part.sb.dataStartLba + i) := hm.offBitmaps (Nat.le_add_right _ _)
  have hk₃ := fun τ ↦ within_writeSector (τ := τ) hoff _ _ _ _ _ h3
  obtain ⟨-, -, -, ht₃⟩ := (returns_ideWrite (by decide)).mp h3
  obtain ⟨e, t₄, h4, hret₄⟩ := returns_bind.mp hret
  obtain ⟨-, h4⟩ := returns_check_bind.mp h4
  obtain ⟨-, rfl⟩ := returns_pure.mp h4
  have hpend₃ := hpend₁.step (hk₃ _)
  have hb₃ := (hk₃ .blockBitmap hpend₁.mounted).2.inSyncAt hb₁
  obtain ⟨ok', t₅, h5, hret⟩ := returns_bind.mp hret₄
  have hino : t₄.inode r.parentDir.inode = t.inode r.parentDir.inode := by
    rw [ht₃, ht₁]
    rfl
  have hmem : t₄.blockBitmap = t.blockBitmap.set i true := by
    rw [ht₃, ht₁]
    rfl
  -- the blocks of the parent directory are neither the new block nor sectors of a bitmap
  have hsame : ∀ p ≤ 140, (t.inode r.parentDir.inode).held t.disk p ≠ 0 →
      SameSector t.disk t₄.disk ((t.inode r.parentDir.inode).held t.disk p) := by
    intro p hp h0
    have hdata := howns.inData p hp h0
    have hne := howns.ne_free hp h0 hbit
    rw [ht₃, ht₁]
    exact (sameSector_takeBlock hm hlt hdata).trans (sameSector_splice hne)
  have hdata₄ : (t₄.inode r.parentDir.inode).InData E t₄.disk := by
    intro p hp h0
    have hheld : (t.inode r.parentDir.inode).held t₄.disk p
        = (t.inode r.parentDir.inode).held t.disk p := by
      rw [Inode.held, Inode.held]
      split_ifs with h140
      · rfl
      · exact Inode.blocks_congr (fun _ _ ↦ rfl) (fun h12 ↦ hsame 140 le_rfl h12) (by omega)
    rw [hino, hheld] at h0 ⊢
    exact howns.inData p hp h0
  obtain ⟨hm₅, hview₅, hiff⟩ := syncDirEntry_sync hpend₃.mounted hdata₄ h5
  have hpend₅ : Pending E n s t₅ := hpend₃.step fun _ ↦ ⟨hm₅, hview₅⟩
  have hlost : TableLost t₄ r.parentDir.inode ↔
      DirectFull t.disk (t.inode r.parentDir.inode) ∧ OneFree (t.blockBitmap.set i true) := by
    rw [TableLost, hino, hmem]
    refine and_congr_left fun _ ↦ directFull_congr fun k hk h0 ↦ ?_
    have hheld := hsame k (by omega)
    rw [Inode.held_of_lt (by omega), Inode.blocks_of_lt hk] at hheld
    exact hheld h0
  suffices htail : s'.InSyncAt E .inodeBitmap ∧ SameView E .blockBitmap t₅ s' from
    ⟨htail.1, htail.2.inSyncAt_iff.trans ((hiff hb₃).trans (not_congr hlost))⟩
  rcases returns_ite.mp hret with ⟨-, hret⟩ | ⟨-, hret⟩
  · obtain ⟨parent, t₆, h6, hret⟩ := returns_bind.mp hret
    obtain ⟨u, t₇, h7, hret⟩ := returns_bind.mp hret
    obtain ⟨u, t₈, h8, hret⟩ := returns_bind.mp hret
    obtain ⟨u, t₉, h9, hret⟩ := returns_bind.mp hret
    have hwrite : ∀ τ, KeepsView E τ t₅ t₈ := fun τ ↦
      IsTrans.trans _ _ _ (within_inodeAt (R := KeepsView E τ) _ _ _ _ h6)
        (IsTrans.trans _ _ _ (within_writeInode _ _ _ _ _ h7) (within_writeInode _ _ _ _ _ h8))
    obtain ⟨hm₉, hs₉, hview₉⟩ := (hpend₅.step (hwrite _)).written hs h9
    have hend : ∀ τ, Within (KeepsView E τ) (do
        sysFree E io
        dirClose E r.parentDir
        pure true : FsM Bool) := fun τ ↦
      .bind (within_sysFree E _) fun _ ↦ .bind (within_dirClose E _) fun _ ↦ .pure _
    have hview := fun τ ↦ (hend τ _ _ _ hret hm₉).2
    exact ⟨(hview _).inSyncAt hs₉, ((hwrite _ hm₅).2.trans hview₉).trans (hview _)⟩
  · exact sysMkdirRollback_sync hpend₅ hs hfree hret

/-- **`sys_mkdir`** keeps the bitmaps in sync except when it gets to an insertion that loses a
table. -/
theorem sysMkdir_sync {ok : Bool} (hm : s.Mounted E) (howns : s.ParentOwns E p) (hs : s.InSync E)
    (h : Returns (sysMkdir E p) s ok s') : s'.InSync E ↔ ¬s.MkdirLoses E p := by
  obtain ⟨ans, t, h1, h⟩ := returns_bind.mp h
  obtain ⟨rfl, rfl⟩ := returns_sysMalloc.mp h1
  have hquiet : ∀ {t : Fs}, SameStore s t → t.InSync E := fun hk τ ↦
    (hk.keepsView (τ := τ) hm).2.inSyncAt (hs τ)
  cases hio : s.answer E 1024 with
  | none =>
    rw [hio] at h
    obtain ⟨rfl, rfl⟩ := returns_pure.mp h
    refine iff_of_true (hquiet (Quiet.tick s)) ?_
    rintro ⟨io, r, t, hio', -⟩
    cases hio.symm.trans hio'
  | some io =>
    rw [hio] at h
    set s₁ := s.alloc io Blk.buffer with hs₁
    obtain ⟨⟨no, r⟩, t, h2, h⟩ := (returns_bind (s := s₁)).mp h
    have hk : SameStore s t := IsTrans.trans _ _ _ (Quiet.alloc s io _) (within_searchFile E p _ _ _ h2)
    have hroll : ∀ {m : FsM Bool} {t' : Fs}, SameStore s t' → Within SameStore m →
        Returns m t' ok s' → s'.InSync E := fun hk' hm' hret ↦
      hquiet (IsTrans.trans _ _ _ hk' (hm' _ _ _ hret))
    -- the search is what it is
    have hsearch : ∀ io' r' t', s.answer E 1024 = some io' →
        Returns (searchFile E p) (s.alloc io' Blk.buffer) (none, r') t' →
        no = none ∧ r' = r ∧ t' = t := by
      intro io' r' t' hio' h2'
      obtain rfl := Option.some.inj (hio.symm.trans hio')
      obtain ⟨heq, rfl⟩ := h2.unique h2'
      obtain ⟨rfl, rfl⟩ := Prod.mk.inj heq
      exact ⟨rfl, rfl, rfl⟩
    dsimp only at h
    cases no with
    | some m =>
      rw [if_pos (by nofun)] at h
      refine iff_of_true (hroll hk (within_sysMkdirRollback io) h) ?_
      rintro ⟨io', r', t', hio', h2', -⟩
      cases (hsearch io' r' t' hio' h2').1
    | none =>
      rw [if_neg (by nofun)] at h
      obtain ⟨d, t₁, h3, h⟩ := returns_bind.mp h
      obtain ⟨-, rfl, ht₁⟩ := pathDepthCnt_sound h3
      obtain ⟨d', t₂, h4, h⟩ := returns_bind.mp h
      obtain ⟨-, rfl, ht₂⟩ := pathDepthCnt_sound h4
      rw [ht₂, ht₁] at h
      rcases returns_ite.mp h with ⟨hdepth, h⟩ | ⟨hdepth, h⟩
      · refine iff_of_true (hroll hk (within_sysMkdirRollback io) h) ?_
        rintro ⟨io', r', t', hio', h2', hdepth', -⟩
        obtain ⟨-, rfl, -⟩ := hsearch io' r' t' hio' h2'
        exact hdepth hdepth'
      · have hmt : t.Mounted E := hk.mounted hm
        have hst := hquiet hk
        have himem : t.inodeBitmap = s.inodeBitmap := hk.2 .inodeBitmap
        have hbmem : t.blockBitmap = s.blockBitmap := hk.2 .blockBitmap
        obtain ⟨ans, t₃, h5, h⟩ := returns_bind.mp h
        obtain ⟨hans, ht₃⟩ := returns_bitmapAlloc.mp h5
        have hans : ans = t.inodeBitmap.scan 1 := hans
        cases hn : s.inodeBitmap.scan 1 with
        | none =>
          rw [hans, himem, hn] at h ht₃
          rw [ht₃] at h
          refine iff_of_true (hroll hk (within_sysMkdirRollback io) h) ?_
          rintro ⟨io', r', t', -, -, -, hn', -⟩
          exact hn' hn
        | some n =>
          rw [hans, himem, hn] at h ht₃
          have hpend : Pending E n t t₃ := ht₃ ▸ Pending.start hmt
          have hfree : t.inodeBitmap.bit n = false := by
            rw [himem]
            exact (Bitmap.scan_one_eq_some.mp hn).2.1
          have hview₃ : SameView E .blockBitmap t
              (t.setBitmap (t.inodeBitmap.set n true) .inodeBitmap) := .of_eq rfl rfl
          have hb₃ : t₃.InSyncAt E .blockBitmap := ht₃ ▸ hview₃.inSyncAt (hst _)
          have hbmem₃ : t₃.blockBitmap = s.blockBitmap := by
            rw [ht₃]
            exact hbmem
          have hdisk₃ : t₃.disk = s.disk := by
            rw [ht₃]
            exact hk.1
          have hino₃ : t₃.inode = t.inode := by
            rw [ht₃]
            rfl
          obtain ⟨ans', t₄, h6, h7⟩ := returns_bind.mp h
          rcases returns_allocBlock hpend.mounted h6 with ⟨hi, rfl, rfl⟩ | ⟨i, hi, rfl, -, rfl⟩
          · obtain ⟨hs', hview⟩ := sysMkdirRollback_sync hpend (hst _) hfree h7
            refine iff_of_true (InSync_iff.mpr ⟨hs', hview.inSyncAt hb₃⟩) ?_
            rintro ⟨io', r', t', -, -, -, -, ⟨i, hi', -⟩, -⟩
            rw [hbmem₃] at hi
            cases hi.symm.trans hi'
          · have howns' := howns io r t hio h2
            rw [← hino₃, ← hdisk₃, ← hbmem₃] at howns'
            obtain ⟨hs', hiff⟩ := sysMkdirIn_sync hpend (hst _) hfree hi hb₃ howns' h7
            rw [InSync_iff, and_iff_right hs', hiff, hino₃, hdisk₃, hbmem₃]
            rw [hbmem₃] at hi
            refine not_congr ⟨?_, ?_⟩
            · rintro ⟨hfull, hone⟩
              refine ⟨io, r, t, hio, h2, not_not.mp hdepth, ?_, ⟨i, hi, hone⟩, hfull⟩
              rw [hn]
              nofun
            · rintro ⟨io', r', t', hio', h2', -, -, ⟨i', hi', hone⟩, hfull⟩
              obtain ⟨-, rfl, rfl⟩ := hsearch io' r' t' hio' h2'
              obtain rfl := Option.some.inj (hi.symm.trans hi')
              exact ⟨hfull, hone⟩

end Mkdir

/-! ## All calls -/

/-- The calls that change a bitmap. -/
inductive BitmapCall
  | fileCreate (parentDir : Dir) (filename : List UInt8) (flag : ℕ)
  | fileWrite (f : ℕ) (buf : Image) (count : ℕ)
  | sysMkdir (pathname : List UInt8)
  | syncDirEntry (parentDir : Dir) (pDe : DirEntry) (ioBuf : ℕ)
  | deleteDirEntry (pdir : Dir) (n ioBuf : ℕ)
  | inodeRelease (n : ℕ)

namespace BitmapCall

/-- Started in `s`, the call returns and leaves the state `s'`, whether it succeeds or fails. -/
def Completes (E : Env) (s s' : Fs) : BitmapCall → Prop
  | fileCreate dir name flag => ∃ r, Returns (GlowOS.fileCreate E dir name flag) s r s'
  | fileWrite f buf count => ∃ r, Returns (GlowOS.fileWrite E f buf count) s r s'
  | sysMkdir p => ∃ r, Returns (GlowOS.sysMkdir E p) s r s'
  | syncDirEntry dir e ioBuf => ∃ r, Returns (GlowOS.syncDirEntry E dir e ioBuf) s r s'
  | deleteDirEntry dir n ioBuf => ∃ r, Returns (GlowOS.deleteDirEntry E dir n ioBuf) s r s'
  | inodeRelease n => ∃ u, Returns (GlowOS.inodeRelease E n) s u s'

/-- The inode that the call works on has its blocks in the data area; where `sys_mkdir` takes a block
before it inserts, they are also marked as used. -/
def Sound (E : Env) (s : Fs) : BitmapCall → Prop
  | fileCreate dir _ _ => s.heap dir.inode = some Blk.inode ∧ (s.inode dir.inode).InData E s.disk
  | fileWrite f _ _ => ∀ a, (s.fileTable f).fdInode = some a → (s.inode a).InData E s.disk
  | sysMkdir p => s.ParentOwns E p
  | syncDirEntry dir _ _ => (s.inode dir.inode).InData E s.disk
  | deleteDirEntry dir _ _ => (s.inode dir.inode).InData E s.disk
  | inodeRelease _ => True

/-- The call gets to an insertion that allocates an indirect table and no block behind it. -/
def LosesBit (E : Env) (s : Fs) : BitmapCall → Prop
  | fileCreate dir _ _ => TableLost s dir.inode ∧ s.CreateReaches E
  | sysMkdir p => s.MkdirLoses E p
  | syncDirEntry dir _ _ => TableLost s dir.inode
  | _ => False

variable {E : Env} {s s' : Fs}

/-- **The bitmaps are written through** by a call exactly if it does not lose a table. -/
theorem inSync_iff (c : BitmapCall) (hm : s.Mounted E) (hc : c.Sound E s) (hs : s.InSync E)
    (h : c.Completes E s s') : s'.InSync E ↔ ¬c.LosesBit E s := by
  cases c with
  | fileCreate dir name flag =>
    obtain ⟨r, h⟩ := h
    exact fileCreate_sync hm hc.1 hc.2 hs h
  | fileWrite f buf count =>
    obtain ⟨r, h⟩ := h
    exact iff_of_true (fun τ ↦ (fileWrite_sync hm hc h τ).2 (hs τ)) id
  | sysMkdir p =>
    obtain ⟨r, h⟩ := h
    exact sysMkdir_sync hm hc hs h
  | syncDirEntry dir e ioBuf =>
    obtain ⟨r, h⟩ := h
    obtain ⟨-, hview, hiff⟩ := syncDirEntry_sync hm hc h
    rw [InSync_iff, and_iff_right (hview.inSyncAt (hs _))]
    exact hiff (hs _)
  | deleteDirEntry dir n ioBuf =>
    obtain ⟨r, h⟩ := h
    exact iff_of_true (fun τ ↦ (deleteDirEntry_sync hm hc h τ).2 (hs τ)) id
  | inodeRelease n =>
    obtain ⟨u, h⟩ := h
    exact iff_of_true (fun τ ↦ (within_inodeRelease_sync n _ _ _ h hm).2 (hs τ)) id

end BitmapCall

/-! ## A full directory and one free block -/

/-- All blocks are used except for the one with bit 800. -/
def tightBits : Image := fun k ↦ if k = 100 then 0xfe else 0xff

/-- A disk with that block bitmap, and the direct blocks of `crowdedDisk`. -/
def tightDisk : Image := fun i ↦
  if i / 512 = 65 then tightBits (i % 512)
  else if i / 512 = 66 then (if i % 512 = 0 then 1 else 0)
  else crowdedDisk i

/-- The inode of the directory, without a table. -/
def tightInode : Inode := { crowdedInode with
  iSize := 24 * 252
  iSectors := fun k ↦ if k < 12 then 675 + k else 0 }

/-- A kernel thread with this directory open. -/
def Fs.tight : Fs :=
  { Fs.crowded with
    disk := tightDisk
    blockBitmap := ⟨512, tightBits⟩
    inode := fun _ ↦ tightInode }

theorem tight_mounted : Fs.tight.Mounted (Env.bump samplePartition) :=
  ⟨samplePartition_formatted, by decide, by decide⟩

theorem tight_inSync : Fs.tight.InSync (Env.bump samplePartition) := by
  have hbyte : ∀ τ k, k < 512 → (Fs.tight.diskBitmap (Env.bump samplePartition) τ).bits k
      = (Fs.tight.bitmap τ).bits k := by
    intro τ k hk
    cases τ with
    | inodeBitmap =>
      have h1 : (512 * 66 + k) / 512 = 66 := by omega
      have h2 : (512 * 66 + k) % 512 = k := by omega
      change tightDisk (512 * 66 + k) = if k = 0 then 1 else 0
      rw [tightDisk, h1, h2, if_neg (by decide), if_pos rfl]
    | blockBitmap =>
      have h1 : (512 * 65 + k) / 512 = 65 := by omega
      have h2 : (512 * 65 + k) % 512 = k := by omega
      change tightDisk (512 * 65 + k) = tightBits k
      rw [tightDisk, h1, h2, if_pos rfl]
  intro τ i hi
  have hlen : (Fs.tight.bitmap τ).btmpBytesLen = 512 := by cases τ <;> rfl
  rw [hlen] at hi
  rw [Bitmap.bit, Bitmap.bit, hbyte τ _ hi]

theorem tight_inData : tightInode.InData (Env.bump samplePartition) tightDisk := by
  intro p hp h0
  have hsec : tightInode.iSectors 12 = 0 := rfl
  by_cases h12 : p < 12
  · rw [Inode.held_of_lt (by omega), Inode.blocks_of_lt h12]
    change 675 ≤ if p < 12 then 675 + p else 0
    rw [if_pos h12]
    omega
  · rw [Inode.held] at h0
    split_ifs at h0 with h140
    · exact absurd hsec h0
    · exact absurd (Inode.blocks_of_no_table (by omega) hsec) h0

/-- The direct blocks are full, and one block is free. -/
theorem tight_tableLost : TableLost Fs.tight kHeapStart := by
  refine ⟨fun k hk ↦ ?_, 800, by decide +kernel, by decide +kernel⟩
  have hsec : (Fs.tight.inode kHeapStart).iSectors k = 675 + k := if_pos hk
  rw [hsec]
  refine ⟨by omega, fun j hj ↦ ?_⟩
  have hsame : SameSector crowdedDisk tightDisk (675 + k) := fun i hi ↦ by
    rw [tightDisk, if_neg (by omega), if_neg (by omega)]
  change (entryAt tightDisk (675 + k) j).fType ≠ _
  rw [entryAt_congr hsame hj, crowded_entry (Or.inl hk) hj]
  exact FileType.noConfusion

theorem returns_tight : ∃ s', Returns (syncDirEntry (Env.bump samplePartition)
    ⟨kHeapStart, none⟩ oneMore 1024) Fs.tight false s' :=
  exists_returns (by decide +kernel)

theorem BitmapCall.inSync_iff_tight : ∃ s', (BitmapCall.syncDirEntry ⟨kHeapStart, none⟩ oneMore
      1024).Completes (Env.bump samplePartition) Fs.tight s' ∧
    (s'.InSync (Env.bump samplePartition) ↔ ¬(BitmapCall.syncDirEntry ⟨kHeapStart, none⟩ oneMore
      1024).LosesBit (Env.bump samplePartition) Fs.tight) := by
  obtain ⟨s', h⟩ := returns_tight
  exact ⟨s', ⟨false, h⟩, BitmapCall.inSync_iff _ tight_mounted tight_inData tight_inSync ⟨false, h⟩⟩

/-- An insertion that fails leaves a bit on the disk that is clear in memory. -/
theorem not_inSync_tight :
    Fs.tight.Mounted (Env.bump samplePartition) ∧
      tightInode.InData (Env.bump samplePartition) tightDisk ∧
      Fs.tight.InSync (Env.bump samplePartition) ∧
      ∃ s', Returns (syncDirEntry (Env.bump samplePartition) ⟨kHeapStart, none⟩ oneMore 1024)
          Fs.tight false s' ∧
        ¬s'.InSync (Env.bump samplePartition) := by
  obtain ⟨s', h⟩ := returns_tight
  refine ⟨tight_mounted, tight_inData, tight_inSync, s', h, fun hs ↦ ?_⟩
  obtain ⟨-, -, hiff⟩ := syncDirEntry_sync tight_mounted tight_inData h
  exact (hiff (tight_inSync _)).mp (hs _) tight_tableLost

end GlowOS
