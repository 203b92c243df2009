import Mathlib
import GlowOS.Fs.Frames
import GlowOS.Fs.Insertion

/-!
# Writing the bitmaps through

Each bitmap exists twice, in memory and on the disk. `Fs.InSync` says that the two agree bit by bit.
A bit is changed in memory first, and `bitmap_sync` then writes the sector it lies in.

A function that changes a bitmap keeps the two in step if it writes the sector of every bit it
changed, or changes the bit back. All functions do so except for one place: when `sync_dir_entry` has
allocated an indirect table and finds no block to go behind it, it takes the table's bit back in
memory only. This happens when the twelve direct blocks of the directory are full and exactly one
block is free.
-/

namespace GlowOS

open Bytes Program

/-! ## Views of a bitmap -/

/-- A bitmap as it stands on the disk. -/
def Fs.diskBitmap (E : Env) (s : Fs) (τ : BitmapType) : Bitmap :=
  ⟨(s.bitmap τ).btmpBytesLen, fun k ↦ s.disk (512 * bitmapLba E τ + k)⟩

/-- A bitmap on the disk equals its copy in memory, bit by bit. -/
def Fs.InSyncAt (E : Env) (s : Fs) (τ : BitmapType) : Prop :=
  ∀ i, i / 8 < (s.bitmap τ).btmpBytesLen → (s.diskBitmap E τ).bit i = (s.bitmap τ).bit i

/-- Both bitmaps on the disk equal their copies in memory. -/
def Fs.InSync (E : Env) (s : Fs) : Prop := ∀ τ, s.InSyncAt E τ

/-- A bitmap is the same in both states, in memory and on the disk. -/
structure SameView (E : Env) (τ : BitmapType) (s s' : Fs) : Prop where
  memory : s'.bitmap τ = s.bitmap τ
  disk : ∀ k < (s.bitmap τ).btmpBytesLen,
    s'.disk (512 * bitmapLba E τ + k) = s.disk (512 * bitmapLba E τ + k)

/-- A sector that belongs to no bitmap. -/
def OffBitmaps (E : Env) (lba : ℕ) : Prop :=
  lba < E.part.sb.blockBitmapLba ∨ E.part.sb.inodeTableLba ≤ lba

/-- A step that keeps the view of a bitmap. -/
def KeepsView (E : Env) (τ : BitmapType) (s s' : Fs) : Prop :=
  s.Mounted E → s'.Mounted E ∧ SameView E τ s s'

/-- A step that keeps a bitmap in sync. -/
def KeepsSync (E : Env) (τ : BitmapType) (s s' : Fs) : Prop :=
  s.Mounted E → s'.Mounted E ∧ (s.InSyncAt E τ → s'.InSyncAt E τ)

section Views

variable {E : Env} {τ τ' : BitmapType} {s s' t : Fs} {i lba : ℕ}

theorem SameView.refl (s : Fs) : SameView E τ s s := ⟨rfl, fun _ _ ↦ rfl⟩

theorem SameView.trans (h : SameView E τ s t) (h' : SameView E τ t s') : SameView E τ s s' :=
  ⟨h'.memory.trans h.memory, fun k hk ↦ by
    rw [h'.disk k (by rwa [h.memory]), h.disk k hk]⟩

/-- What is in sync stays so with the same view. -/
theorem SameView.inSyncAt (h : SameView E τ s s') (hs : s.InSyncAt E τ) : s'.InSyncAt E τ := by
  intro i hi
  rw [h.memory] at hi ⊢
  rw [← hs i hi, Bitmap.bit, Bitmap.bit]
  exact congrArg (fun b : UInt8 ↦ b.toNat.testBit (i % 8)) (h.disk (i / 8) hi)

theorem SameView.of_eq (hdisk : s'.disk = s.disk) (hmem : s'.bitmap τ = s.bitmap τ) :
    SameView E τ s s' := ⟨hmem, fun _ _ ↦ by rw [hdisk]⟩

theorem KeepsView.keepsSync (h : KeepsView E τ s t) : KeepsSync E τ s t := fun hm ↦
  ⟨(h hm).1, (h hm).2.inSyncAt⟩

instance : Std.Refl (KeepsView E τ) := ⟨fun s hm ↦ ⟨hm, .refl s⟩⟩

instance : IsTrans Fs (KeepsView E τ) :=
  ⟨fun _ _ _ h h' hm ↦ ⟨(h' (h hm).1).1, (h hm).2.trans (h' (h hm).1).2⟩⟩

instance : Std.Refl (KeepsSync E τ) := ⟨fun _ hm ↦ ⟨hm, id⟩⟩

instance : IsTrans Fs (KeepsSync E τ) :=
  ⟨fun _ _ _ h h' hm ↦ ⟨(h' (h hm).1).1, (h' (h hm).1).2 ∘ (h hm).2⟩⟩

/-- A step that touches neither the disk nor a bitmap. -/
theorem KeepsView.of_eq (hdisk : s'.disk = s.disk) (hmem : ∀ τ, s'.bitmap τ = s.bitmap τ) :
    KeepsView E τ s s' := by
  intro hm
  refine ⟨⟨hm.part, ?_, ?_⟩, .of_eq hdisk (hmem τ)⟩
  · exact (congrArg Bitmap.btmpBytesLen (hmem .blockBitmap)).trans hm.blockLen
  · exact (congrArg Bitmap.btmpBytesLen (hmem .inodeBitmap)).trans hm.inodeLen

instance : Quiet (KeepsView E τ) where
  tick _ := .of_eq rfl fun τ ↦ by cases τ <;> rfl
  alloc _ _ _ := .of_eq rfl fun τ ↦ by cases τ <;> rfl
  free _ _ _ := .of_eq rfl fun τ ↦ by cases τ <;> rfl
  stale _ _ := .of_eq rfl fun τ ↦ by cases τ <;> rfl
  replace _ _ _ := .of_eq rfl fun τ ↦ by cases τ <;> rfl
  tags _ _ := .of_eq rfl fun τ ↦ by cases τ <;> rfl

instance : Quiet (KeepsSync E τ) where
  tick s := (Quiet.tick (R := KeepsView E τ) s).keepsSync
  alloc s a k := (Quiet.alloc (R := KeepsView E τ) s a k).keepsSync
  free E' s a := (Quiet.free (R := KeepsView E τ) E' s a).keepsSync
  stale s x := (Quiet.stale (R := KeepsView E τ) s x).keepsSync
  replace s a i := (Quiet.replace (R := KeepsView E τ) s a i).keepsSync
  tags s t := (Quiet.tags (R := KeepsView E τ) s t).keepsSync

end Views

/-! ## The primitives -/

section Primitives

variable {E : Env} {τ τ' : BitmapType} {s s' t : Fs} {i lba : ℕ}

/-- Where the bitmaps lie. -/
theorem Fs.Mounted.bitmap_range (hm : s.Mounted E) (τ : BitmapType) :
    512 * E.part.sb.blockBitmapLba ≤ 512 * bitmapLba E τ ∧
      512 * bitmapLba E τ + (s.bitmap τ).btmpBytesLen ≤ 512 * E.part.sb.inodeTableLba := by
  have h2 := hm.part.inodeTableLba_eq
  have h3 := hm.part.inodeBitmapLba_eq
  have h4 := hm.part.blockBitmapLba_eq
  have h5 := hm.part.inodeBitmapSects_eq
  cases τ with
  | inodeBitmap =>
    have hlen : (s.bitmap .inodeBitmap).btmpBytesLen = _ := hm.inodeLen
    rw [bitmapLba, hlen]
    omega
  | blockBitmap =>
    have hlen : (s.bitmap .blockBitmap).btmpBytesLen = _ := hm.blockLen
    rw [bitmapLba, hlen]
    omega

/-- The two bitmaps are disjoint. -/
theorem Fs.Mounted.bitmap_apart (hm : s.Mounted E) (hne : τ ≠ τ') :
    512 * bitmapLba E τ + (s.bitmap τ).btmpBytesLen ≤ 512 * bitmapLba E τ' ∨
      512 * bitmapLba E τ' + (s.bitmap τ').btmpBytesLen ≤ 512 * bitmapLba E τ := by
  have h3 := hm.part.inodeBitmapLba_eq
  have h4 := hm.part.blockBitmapLba_eq
  have hlen : (s.bitmap .blockBitmap).btmpBytesLen = _ := hm.blockLen
  cases τ <;> cases τ' <;> first | exact absurd rfl hne | (simp only [bitmapLba, hlen]; omega)

/-- A block of the data area belongs to no bitmap. -/
theorem Fs.Mounted.offBitmaps (hm : s.Mounted E) (h : E.part.sb.dataStartLba ≤ lba) :
    OffBitmaps E lba := by
  have := hm.part.dataStartLba_eq
  exact Or.inr (by omega)

theorem offBitmaps_zero (hp : E.part.Formatted) : OffBitmaps E 0 := by
  have := hp.blockBitmapLba_eq
  exact Or.inl (by omega)

/-- Bytes outside of the bitmaps are written. -/
theorem sameView_store {o n : ℕ} {g : Image} (hm : s.Mounted E)
    (h : o + n ≤ 512 * E.part.sb.blockBitmapLba ∨ 512 * E.part.sb.inodeTableLba ≤ o) :
    SameView E τ s (s.store o n g) := by
  obtain ⟨h1, h2⟩ := hm.bitmap_range τ
  refine ⟨by cases τ <;> rfl, fun k hk ↦ splice_of_disjoint ?_⟩
  omega

theorem keepsView_store {o n : ℕ} {g : Image}
    (h : o + n ≤ 512 * E.part.sb.blockBitmapLba ∨ 512 * E.part.sb.inodeTableLba ≤ o) :
    KeepsView E τ s (s.store o n g) := fun hm ↦
  ⟨⟨hm.part, hm.blockLen, hm.inodeLen⟩, sameView_store hm h⟩

theorem OffBitmaps.range {o n : ℕ} (h : OffBitmaps E lba) (hn : o + n ≤ 512) :
    512 * lba + o + n ≤ 512 * E.part.sb.blockBitmapLba ∨
      512 * E.part.sb.inodeTableLba ≤ 512 * lba + o := by
  rcases h with h | h <;> omega

theorem within_writeSector (ho : OffBitmaps E lba) (room : ℕ) (b : Image) :
    Within (KeepsView E τ) (ideWrite lba room 1 b) := by
  intro s u s' h
  obtain ⟨-, -, -, rfl⟩ := (returns_ideWrite (by decide)).mp h
  have := ho.range (o := 0) (n := 512) (by decide)
  exact keepsView_store (by omega)

theorem within_writeInode (ino : Inode) (ioBuf : ℕ) :
    Within (KeepsView E τ) (inodeSync E ino ioBuf) := by
  intro s u s' h
  obtain ⟨-, rfl⟩ := returns_inodeSync.mp h
  exact keepsView_store (Or.inr (by rw [slotBase]; omega))

theorem within_zeroInode (n ioBuf : ℕ) : Within (KeepsView E τ) (inodeDelete E n ioBuf) := by
  intro s u s' h
  obtain ⟨-, rfl⟩ := returns_inodeDelete.mp h
  exact keepsView_store (Or.inr (by rw [slotBase]; omega))

theorem Fs.syncedBitmap_disk (E : Env) (s : Fs) (i : ℕ) (τ : BitmapType) :
    (s.syncedBitmap E i τ).disk = splice s.disk (512 * (bitmapLba E τ + i / 4096)) 512
      fun k ↦ (s.bitmap τ).bits (i / 4096 * 512 + k) := rfl

/-- The byte `k` of a bitmap on the disk after the sector of bit `i` was written. -/
theorem syncedBitmap_byte (k : ℕ) :
    (s.syncedBitmap E i τ).disk (512 * bitmapLba E τ + k)
      = if i / 4096 * 512 ≤ k ∧ k < i / 4096 * 512 + 512 then (s.bitmap τ).bits k
        else s.disk (512 * bitmapLba E τ + k) := by
  rw [Fs.syncedBitmap_disk]
  split_ifs with hin
  · rw [splice_of_mem (by omega) (by omega)]
    exact congrArg (s.bitmap τ).bits (by omega)
  · exact splice_of_disjoint (by omega)

/-- A changed bit whose sector is written afterwards. -/
theorem inSyncAt_written {v : Bool} (hs : s.InSyncAt E τ) (hdisk : t.disk = s.disk)
    (hmem : t.bitmap τ = (s.bitmap τ).set i v) : (t.syncedBitmap E i τ).InSyncAt E τ := by
  have hbitmap : (t.syncedBitmap E i τ).bitmap τ = t.bitmap τ := by cases τ <;> rfl
  intro j hj
  rw [hbitmap] at hj ⊢
  have hbyte := syncedBitmap_byte (E := E) (s := t) (i := i) (τ := τ) (j / 8)
  by_cases hin : i / 4096 * 512 ≤ j / 8 ∧ j / 8 < i / 4096 * 512 + 512
  · -- the sector that was written
    rw [if_pos hin] at hbyte
    exact congrArg (fun b : UInt8 ↦ b.toNat.testBit (j % 8)) hbyte
  · rw [if_neg hin, hdisk] at hbyte
    have hji : j ≠ i := by
      rintro rfl
      omega
    rw [hmem, Bitmap.set_btmpBytesLen] at hj
    rw [hmem, Bitmap.bit_set, if_neg hji, ← hs j hj]
    exact congrArg (fun b : UInt8 ↦ b.toNat.testBit (j % 8)) hbyte

/-- Writing one bitmap does not touch the other. -/
theorem sameView_syncedBitmap (hm : s.Mounted E) (hne : τ ≠ τ')
    (hroom : 512 ≤ (s.bitmap τ').btmpBytesLen - i / 4096 * 512) :
    SameView E τ s (s.syncedBitmap E i τ') := by
  have hapart := hm.bitmap_apart hne
  refine ⟨by cases τ <;> rfl, fun k hk ↦ ?_⟩
  rw [Fs.syncedBitmap_disk]
  exact splice_of_disjoint (by omega)

theorem Fs.Mounted.setBitmap {v : Bool} (hm : s.Mounted E) :
    (s.setBitmap ((s.bitmap τ).set i v) τ).Mounted E := by
  cases τ <;> exact ⟨hm.part, hm.blockLen, hm.inodeLen⟩

theorem setBitmap_disk (s : Fs) (b : Bitmap) (τ : BitmapType) :
    (s.setBitmap b τ).disk = s.disk := by cases τ <;> rfl

theorem setBitmap_bitmap_self (b : Bitmap) : (s.setBitmap b τ).bitmap τ = b := by cases τ <;> rfl

theorem setBitmap_bitmap_of_ne (b : Bitmap) (hne : τ ≠ τ') :
    (s.setBitmap b τ').bitmap τ = s.bitmap τ := by
  cases τ <;> cases τ' <;> first | exact absurd rfl hne | rfl

/-- **A bit is changed and its sector written**; `t` is the state between the two. -/
theorem keepsSync_written {v : Bool} (hdisk : t.disk = s.disk)
    (hmem : ∀ τ', t.bitmap τ' = (s.setBitmap ((s.bitmap τ).set i v) τ).bitmap τ')
    (hroom : 512 ≤ (t.bitmap τ).btmpBytesLen - i / 4096 * 512) (τ' : BitmapType) :
    KeepsSync E τ' s (t.syncedBitmap E i τ) := by
  intro hm
  have hmt : t.Mounted E := by
    have hm₁ := hm.setBitmap (i := i) (v := v) (τ := τ)
    exact ⟨hm.part, (congrArg Bitmap.btmpBytesLen (hmem .blockBitmap)).trans hm₁.blockLen,
      (congrArg Bitmap.btmpBytesLen (hmem .inodeBitmap)).trans hm₁.inodeLen⟩
  refine ⟨⟨hmt.part, hmt.blockLen, hmt.inodeLen⟩, fun hs ↦ ?_⟩
  by_cases hty : τ' = τ
  · subst hty
    exact inSyncAt_written hs hdisk ((hmem τ').trans (setBitmap_bitmap_self _))
  · have hview : SameView E τ' s t :=
      .of_eq hdisk ((hmem τ').trans (setBitmap_bitmap_of_ne _ hty))
    exact (sameView_syncedBitmap hmt hty hroom).inSyncAt (hview.inSyncAt hs)

theorem keepsSync_set (s : Fs) (τ : BitmapType) (v : Bool)
    (hroom : 512 ≤ ((s.setBitmap ((s.bitmap τ).set i v) τ).bitmap τ).btmpBytesLen
      - i / 4096 * 512) (τ' : BitmapType) :
    KeepsSync E τ' s ((s.setBitmap ((s.bitmap τ).set i v) τ).syncedBitmap E i τ) :=
  keepsSync_written (s := s) (v := v) (setBitmap_disk _ _ _) (fun _ ↦ rfl) hroom τ'

/-- A block is given back. -/
theorem within_freeBlock_sync (lba : ℕ) : Within (KeepsSync E τ) (freeBlock E lba) := by
  intro s u s' h
  obtain ⟨u, t, h1, h2⟩ := returns_bind.mp h
  obtain ⟨-, rfl⟩ := returns_bitmapSet.mp h1
  obtain ⟨-, hroom, rfl⟩ := returns_bitmapSync.mp h2
  exact keepsSync_set s .blockBitmap false hroom τ

/-- A block is taken and the bitmap written, with steps between the two that change neither the disk
nor a bitmap. -/
theorem keepsSync_allocated {t' : Fs} {u : PUnit} (hm : s.Mounted E)
    (h1 : Returns (blockBitmapAlloc E) s (some lba) t)
    (h2 : Returns (bitmapSync E (blockBitmapIdx E lba) .blockBitmap) t' u s')
    (hdisk : t'.disk = t.disk) (hmem : ∀ τ, t'.bitmap τ = t.bitmap τ) (τ : BitmapType) :
    KeepsSync E τ s s' ∧ E.part.sb.dataStartLba ≤ lba := by
  rcases returns_allocBlock hm h1 with ⟨-, hnone, -⟩ | ⟨i, -, hlba, hidx, rfl⟩
  · cases hnone
  · obtain rfl := Option.some.inj hlba
    rw [hidx] at h2
    obtain ⟨-, hroom, rfl⟩ := returns_bitmapSync.mp h2
    exact ⟨keepsSync_written (s := s) (τ := .blockBitmap) (v := true) hdisk hmem hroom τ,
      Nat.le_add_right _ _⟩

end Primitives

/-! ## Deleting, releasing -/

/-- The blocks of an inode lie in the data area. -/
def Inode.InData (E : Env) (d : Image) (ino : Inode) : Prop :=
  ∀ p ≤ 140, ino.held d p ≠ 0 → E.part.sb.dataStartLba ≤ ino.held d p

section Functions

variable {E : Env} {τ : BitmapType} {s s' : Fs} {a : ℕ}

/-- The blocks of such an inode belong to no bitmap, and neither does block 0. -/
theorem Fs.Mounted.blocks_off {ino : Inode} (hm : s.Mounted E) (h : ino.InData E s.disk) {k : ℕ}
    (hk : k < 140) : OffBitmaps E (ino.blocks s.disk k) := by
  by_cases h0 : ino.blocks s.disk k = 0
  · rw [h0]
    exact offBitmaps_zero hm.part
  · have hheld := h k hk.le
    rw [Inode.held_of_lt hk] at hheld
    exact hm.offBitmaps (hheld h0)

theorem Fs.Mounted.sector_off {ino : Inode} (hm : s.Mounted E) (h : ino.InData E s.disk) {k : ℕ}
    (hk : k < 13) : OffBitmaps E (ino.iSectors k) := by
  by_cases h12 : k < 12
  · have hblock := hm.blocks_off h (k := k) (by omega)
    rwa [Inode.blocks_of_lt h12] at hblock
  · obtain rfl : k = 12 := by omega
    by_cases h0 : ino.iSectors 12 = 0
    · rw [h0]
      exact offBitmaps_zero hm.part
    · have hheld := h 140 (le_refl _)
      rw [Inode.held_table] at hheld
      exact hm.offBitmaps (hheld h0)

theorem within_keepsSync {α : Type} {m : FsM α} (h : Within (KeepsView E τ) m) :
    Within (KeepsSync E τ) m := h.mono fun _ _ ↦ KeepsView.keepsSync

theorem within_deleteBlocks_sync {n ioBuf left k : ℕ} {allBlocks : ℕ → ℕ}
    (hoff : ∀ i, k ≤ i → i < k + left → OffBitmaps E (allBlocks i)) :
    Within (KeepsSync E τ) (deleteBlocks E a n ioBuf allBlocks left k) := by
  induction left generalizing k with
  | zero => exact .pure _
  | succ left ih =>
    have htail := ih (k := k + 1) fun i h1 h2 ↦ hoff i (by omega) (by omega)
    rw [deleteBlocks]
    by_cases h0 : allBlocks k = 0
    · rw [if_pos h0]
      exact htail
    · rw [if_neg h0]
      refine .bind (within_ideRead _ _ _) fun buf ↦ .bind (within_scanBlock buf n _ _ _) fun r ↦ ?_
      -- behind the entry itself: the size, and the inode on disk
      have hend : Within (KeepsSync E τ) (do
          let ino ← inodeAt a
          ASSERT (E.part.sb.dirEntrySize ≤ ino.iSize)
          modifyInode a fun ino ↦ ino.shrink E.part.sb.dirEntrySize
          inBounds (1024 ≤ ioBuf)
          let ino ← inodeAt a
          inodeSync E ino ioBuf
          pure true : FsM Bool) :=
        .bind (within_inodeAt _) fun _ ↦ .bind (.check _ _) fun _ ↦
          .bind (within_replaceInode _ _) fun _ ↦ .bind (.check _ _) fun _ ↦
            .bind (within_inodeAt _) fun _ ↦
              .bind (within_keepsSync (within_writeInode _ _)) fun _ ↦ .pure _
      cases hr : r.dirEntryFound with
      | none => exact htail
      | some j =>
        refine .bind (.check _ _) fun _ ↦ .ite (.bind ?_ fun _ ↦ hend) (.bind ?_ fun _ ↦ hend)
        · exact .bind (within_freeBlock_sync _) fun _ ↦
            .ite (within_replaceInode _ _) (.throw _)
        · exact within_keepsSync (within_writeSector (hoff k (le_refl k) (by omega)) _ _)

/-- **`delete_dir_entry`** keeps the bitmaps in sync. -/
theorem deleteDirEntry_sync {dir : Dir} {n ioBuf : ℕ} {r : Bool} (hm : s.Mounted E)
    (hdata : (s.inode dir.inode).InData E s.disk)
    (h : Returns (deleteDirEntry E dir n ioBuf) s r s') (τ : BitmapType) :
    s'.Mounted E ∧ (s.InSyncAt E τ → s'.InSyncAt E τ) := by
  obtain ⟨ino, t, h1, h⟩ := returns_bind.mp h
  obtain ⟨-, rfl, rfl⟩ := returns_inodeAt.mp h1
  obtain ⟨blocks, t', h2, h⟩ := returns_bind.mp h
  obtain ⟨-, rfl, rfl⟩ := returns_collectBlocks.mp h2
  exact within_deleteBlocks_sync (fun k _ hk ↦ hm.blocks_off hdata (by omega)) _ _ _ h hm

theorem within_releaseBlocks_sync (allBlocks : ℕ → ℕ) (left i : ℕ) :
    Within (KeepsSync E τ) (releaseBlocks E allBlocks left i) := by
  induction left generalizing i with
  | zero => exact .pure _
  | succ left ih =>
    rw [releaseBlocks]
    exact .ite (.bind (.check _ _) fun _ ↦ .bind (within_freeBlock_sync _) fun _ ↦ ih _) (ih _)

/-- **`inode_release`** keeps the bitmaps in sync. -/
theorem within_inodeRelease_sync (n : ℕ) : Within (KeepsSync E τ) (inodeRelease E n) := by
  have hend : ∀ a, Within (KeepsSync E τ) (do
      let ioBuf ← sysMallocUnchecked E Blk.buffer 1024
      inodeDelete E n 1024
      sysFree E ioBuf
      inodeClose E a : FsM PUnit) := fun a ↦
    .bind (within_sysMallocUnchecked E _ _) fun _ ↦
      .bind (within_keepsSync (within_zeroInode _ _)) fun _ ↦
        .bind (within_sysFree E _) fun _ ↦ within_inodeClose E a
  -- the number goes back like a block
  have hnumber : ∀ a, Within (KeepsSync E τ) (do
      bitmapSet .inodeBitmap n false
      bitmapSync E n .inodeBitmap
      let ioBuf ← sysMallocUnchecked E Blk.buffer 1024
      inodeDelete E n 1024
      sysFree E ioBuf
      inodeClose E a : FsM PUnit) := by
    intro a s u s' h
    obtain ⟨u, t, h1, h⟩ := returns_bind.mp h
    obtain ⟨-, rfl⟩ := returns_bitmapSet.mp h1
    obtain ⟨u, t, h2, h⟩ := returns_bind.mp h
    obtain ⟨-, hroom, rfl⟩ := returns_bitmapSync.mp h2
    exact IsTrans.trans _ _ _
      (keepsSync_set s .inodeBitmap false hroom τ)
      (hend a _ _ _ h)
  refine .bind (within_inodeOpen E n) fun a ↦ .bind (within_inodeAt a) fun ino ↦ ?_
  refine .bind (.check _ _) fun _ ↦ .bind (within_collectBlocks _) fun blocks ↦ ?_
  refine .ite (.bind (.check _ _) fun _ ↦ .bind (within_freeBlock_sync _) fun _ ↦ ?_) ?_
  · exact .bind (within_releaseBlocks_sync _ _ _) fun _ ↦ hnumber a
  · exact .bind (within_releaseBlocks_sync _ _ _) fun _ ↦ hnumber a

/-! ## Inserting -/

/-- Exactly one block is free. -/
def OneFree (b : Bitmap) : Prop := ∃ i, b.scan 1 = some i ∧ (b.set i true).scan 1 = none

/-- An insertion into the directory allocates an indirect table and no block behind it. -/
def TableLost (s : Fs) (a : ℕ) : Prop :=
  DirectFull s.disk (s.inode a) ∧ OneFree s.blockBitmap

/-- A block is taken and the bitmap written. -/
theorem keepsSync_takeBlock {i : ℕ} (hi : s.blockBitmap.scan 1 = some i) (hm : s.Mounted E)
    (τ : BitmapType) : KeepsSync E τ s (s.takeBlock E i) := by
  have hlt := (Bitmap.scan_one_eq_some.mp hi).1
  have hlen := hm.blockLen
  refine keepsSync_set s .blockBitmap true ?_ τ
  change 512 ≤ s.blockBitmap.btmpBytesLen - i / 4096 * 512
  omega

theorem keepsView_takeBlock {i : ℕ} (hi : s.blockBitmap.scan 1 = some i) :
    KeepsView E .inodeBitmap s (s.takeBlock E i) := by
  intro hm
  have hlt := (Bitmap.scan_one_eq_some.mp hi).1
  have hlen := hm.blockLen
  have hset : (s.setBitmap (s.blockBitmap.set i true) .blockBitmap).Mounted E :=
    hm.setBitmap (τ := .blockBitmap)
  have hview : SameView E .inodeBitmap s (s.setBitmap (s.blockBitmap.set i true) .blockBitmap) :=
    .of_eq rfl rfl
  refine ⟨⟨hm.part, hm.blockLen, hm.inodeLen⟩, hview.trans (sameView_syncedBitmap hset nofun ?_)⟩
  change 512 ≤ s.blockBitmap.btmpBytesLen - i / 4096 * 512
  omega

theorem keepsView_store_block {lba : ℕ} {g : Image} (ho : OffBitmaps E lba) {o n : ℕ}
    (hn : o + n ≤ 512) : KeepsView E τ s (s.store (512 * lba + o) n g) :=
  keepsView_store (ho.range hn)

theorem keepsView_setInode (s : Fs) (a : ℕ) (ino : Inode) : KeepsView E τ s (s.setInode a ino) :=
  Quiet.replace s a ino

/-- An insertion leaves the inode bitmap alone. -/
theorem SyncOutcome.keepsView {e : DirEntry} {r : Bool} (h : SyncOutcome E s a e r s')
    (hm : s.Mounted E) (hdata : (s.inode a).InData E s.disk) :
    KeepsView E .inodeBitmap s s' := by
  have hnew : ∀ i, OffBitmaps E (E.part.sb.dataStartLba + i) := fun i ↦
    hm.offBitmaps (Nat.le_add_right _ _)
  have htrans : ∀ {s t u : Fs}, KeepsView E .inodeBitmap s t → KeepsView E .inodeBitmap t u →
      KeepsView E .inodeBitmap s u := fun h h' ↦ IsTrans.trans _ _ _ h h'
  cases h with
  | reuse hk hj hb =>
    have hoff := hm.sector_off hdata (hk.trans (by decide))
    exact htrans (keepsView_store_block hoff (by omega)) (keepsView_setInode _ _ _)
  | direct hk hb hi =>
    exact htrans (htrans (keepsView_takeBlock hi) (keepsView_store_block (o := 0) (hnew _) le_rfl))
      (keepsView_setInode _ _ _)
  | table hfull hi hi' =>
    exact htrans (htrans (htrans (htrans (keepsView_takeBlock hi) (keepsView_takeBlock hi'))
      (keepsView_store_block (o := 0) (hnew _) le_rfl))
      (keepsView_store_block (o := 0) (hnew _) le_rfl)) (keepsView_setInode _ _ _)
  | noBlock hi => exact refl s
  | noSecond hfull hi hi' =>
    refine htrans (htrans (keepsView_takeBlock hi) ?_) (keepsView_setInode _ _ _)
    exact fun hm ↦ ⟨⟨hm.part, hm.blockLen, hm.inodeLen⟩, .of_eq rfl rfl⟩

/-- **An insertion keeps the block bitmap in sync** except when it loses a table. -/
theorem SyncOutcome.sync_iff {e : DirEntry} {r : Bool} (h : SyncOutcome E s a e r s')
    (hm : s.Mounted E) (hdata : (s.inode a).InData E s.disk) (hs : s.InSyncAt E .blockBitmap) :
    s'.InSyncAt E .blockBitmap ↔ ¬TableLost s a := by
  have hnew : ∀ i, OffBitmaps E (E.part.sb.dataStartLba + i) := fun i ↦
    hm.offBitmaps (Nat.le_add_right _ _)
  have htrans : ∀ {s t u : Fs}, KeepsSync E .blockBitmap s t → KeepsSync E .blockBitmap t u →
      KeepsSync E .blockBitmap s u := fun h h' ↦ IsTrans.trans _ _ _ h h'
  have hset : ∀ (s : Fs) ino, KeepsSync E .blockBitmap s (s.setInode a ino) := fun s ino ↦
    (keepsView_setInode s a ino).keepsSync
  have hstore : ∀ (s : Fs) i g, KeepsSync E .blockBitmap s
      (s.store (512 * (E.part.sb.dataStartLba + i)) 512 g) := fun s i g ↦
    (keepsView_store_block (o := 0) (hnew i) le_rfl).keepsSync
  cases h with
  | reuse hk hj hb hfree =>
    have hoff := hm.sector_off hdata (hk.trans (by decide))
    refine iff_of_true ?_ fun hlost ↦ (hlost.1 _ hk).2 _ hj hfree
    exact (htrans (keepsView_store_block hoff (by omega)).keepsSync (hset _ _) hm).2 hs
  | direct hk hb hi =>
    refine iff_of_true ?_ fun hlost ↦ (hlost.1 _ hk).1 hb
    exact (htrans (htrans (keepsSync_takeBlock hi hm _) (hstore _ _ _)) (hset _ _) hm).2 hs
  | table hfull hi hi' =>
    refine iff_of_true ?_ ?_
    · have hm' := (keepsSync_takeBlock hi hm .blockBitmap hm).1
      exact (htrans (htrans (htrans (htrans (keepsSync_takeBlock hi hm _)
        (keepsSync_takeBlock hi' hm' _)) (hstore _ _ _)) (hstore _ _ _)) (hset _ _) hm).2 hs
    · rintro ⟨-, j, hj, hj'⟩
      obtain rfl := Option.some.inj (hi.symm.trans hj)
      cases hi'.symm.trans hj'
  | noBlock hi =>
    refine iff_of_true hs ?_
    rintro ⟨-, j, hj, -⟩
    cases hi.symm.trans hj
  | @noSecond i hfull hi hi' =>
    -- the bit is set on the disk and clear in memory
    refine iff_of_false (fun hbad ↦ ?_) (not_not.mpr ⟨hfull, i, hi, hi'⟩)
    obtain ⟨hlt, -, -⟩ := Bitmap.scan_one_eq_some.mp hi
    have hbytes : i / 8 < s.blockBitmap.btmpBytesLen := by omega
    have hon := (keepsSync_takeBlock hi hm .blockBitmap hm).2 hs i hbytes
    have hoff := hbad i hbytes
    have hmem : (s.takeBlock E i).bitmap .blockBitmap = s.blockBitmap.set i true := rfl
    have hmem' : (s.givenUp E a i).bitmap .blockBitmap
        = (s.blockBitmap.set i true).set i false := rfl
    rw [hmem, Bitmap.bit_set, if_pos rfl] at hon
    rw [hmem', Bitmap.bit_set, if_pos rfl] at hoff
    exact absurd (hon.symm.trans hoff) Bool.noConfusion

/-- **`sync_dir_entry`** leaves the inode bitmap alone, and keeps the block bitmap in sync except
when it loses a table. -/
theorem syncDirEntry_sync {dir : Dir} {e : DirEntry} {ioBuf : ℕ} {r : Bool} (hm : s.Mounted E)
    (hdata : (s.inode dir.inode).InData E s.disk)
    (h : Returns (syncDirEntry E dir e ioBuf) s r s') :
    s'.Mounted E ∧ SameView E .inodeBitmap s s' ∧
      (s.InSyncAt E .blockBitmap → (s'.InSyncAt E .blockBitmap ↔ ¬TableLost s dir.inode)) := by
  obtain ⟨-, hout⟩ := syncDirEntry_outcome hm h
  obtain ⟨hm', hview⟩ := hout.keepsView hm hdata hm
  exact ⟨hm', hview, hout.sync_iff hm hdata⟩

/-! ## Writing -/

/-- A step that touches neither the disk nor a bitmap. -/
def SameStore (s s' : Fs) : Prop := s'.disk = s.disk ∧ ∀ τ, s'.bitmap τ = s.bitmap τ

instance : Std.Refl SameStore := ⟨fun _ ↦ ⟨rfl, fun _ ↦ rfl⟩⟩

instance : IsTrans Fs SameStore :=
  ⟨fun _ _ _ h h' ↦ ⟨h'.1.trans h.1, fun τ ↦ (h'.2 τ).trans (h.2 τ)⟩⟩

instance : Quiet SameStore where
  tick _ := ⟨rfl, fun τ ↦ by cases τ <;> rfl⟩
  alloc _ _ _ := ⟨rfl, fun τ ↦ by cases τ <;> rfl⟩
  free _ _ _ := ⟨rfl, fun τ ↦ by cases τ <;> rfl⟩
  stale _ _ := ⟨rfl, fun τ ↦ by cases τ <;> rfl⟩
  replace _ _ _ := ⟨rfl, fun τ ↦ by cases τ <;> rfl⟩
  tags _ _ := ⟨rfl, fun τ ↦ by cases τ <;> rfl⟩

theorem SameStore.keepsView (h : SameStore s s') : KeepsView E τ s s' := .of_eq h.1 h.2

theorem SameStore.mounted (h : SameStore s s') (hm : s.Mounted E) : s'.Mounted E :=
  (h.keepsView (τ := .blockBitmap) hm).1

/-- The loops of `file_write` that allocate blocks. -/
theorem allocBlocks_sync {place : ℕ → ℕ → FsM PUnit} (hplace : ∀ k lba, Within SameStore (place k lba))
    {left k : ℕ} {allBlocks : ℕ → ℕ} {r : Option (ℕ → ℕ)} (hm : s.Mounted E)
    (hoff : ∀ i < 140, OffBitmaps E (allBlocks i))
    (h : Returns (allocBlocks E place left k allBlocks) s r s') :
    KeepsSync E τ s s' ∧ ∀ b, r = some b → ∀ i < 140, OffBitmaps E (b i) := by
  induction left generalizing s k allBlocks with
  | zero =>
    obtain ⟨rfl, rfl⟩ := returns_pure.mp h
    refine ⟨refl s', ?_⟩
    rintro _ ⟨⟩ i hi
    exact hoff i hi
  | succ left ih =>
    obtain ⟨ans, t, h1, h⟩ := returns_bind.mp h
    cases ans with
    | none =>
      obtain ⟨rfl, rfl⟩ := returns_pure.mp h
      rcases returns_allocBlock hm h1 with ⟨-, -, rfl⟩ | ⟨i, -, hsome, -⟩
      · exact ⟨refl _, nofun⟩
      · cases hsome
    | some lba =>
      obtain ⟨u, t₁, h2, h⟩ := returns_bind.mp h
      obtain ⟨u, t₂, h3, h⟩ := returns_bind.mp h
      obtain ⟨hdisk, hmem⟩ := hplace k lba _ _ _ h2
      obtain ⟨hkeep, hlba⟩ := keepsSync_allocated hm h1 h3 hdisk hmem τ
      have hnew : ∀ i < 140, OffBitmaps E (Function.update allBlocks k lba i) := by
        intro i hi
        by_cases hik : i = k
        · rw [hik, Function.update_self]
          exact hm.offBitmaps hlba
        · rw [Function.update_of_ne hik]
          exact hoff i hi
      obtain ⟨hkeep', hoff'⟩ := ih (hkeep hm).1 hnew h
      exact ⟨IsTrans.trans _ _ _ hkeep hkeep', hoff'⟩

/-- What a file's inode needs for `file_write`: none of its blocks belongs to a bitmap. -/
def Inode.Off (E : Env) (d : Image) (ino : Inode) : Prop :=
  (∀ k < 13, OffBitmaps E (ino.iSectors k)) ∧
    (ino.iSectors 12 ≠ 0 → ∀ k < 128, OffBitmaps E (tableAt d (ino.iSectors 12) k))

theorem Fs.Mounted.off {ino : Inode} (hm : s.Mounted E) (h : ino.InData E s.disk) :
    ino.Off E s.disk := by
  refine ⟨fun k hk ↦ hm.sector_off h hk, fun h12 k hk ↦ ?_⟩
  have hblock := hm.blocks_off h (k := 12 + k) (by omega)
  rwa [Inode.blocks_of_table (by omega) h12, Nat.add_sub_cancel_left] at hblock

/-- The tables of an inode are not touched by what is written to the bitmaps. -/
theorem Fs.Mounted.same_table {lba : ℕ} (hm : s.Mounted E) (hoff : OffBitmaps E lba) {i : ℕ}
    (hroom : 512 ≤ (s.bitmap τ).btmpBytesLen - i / 4096 * 512) :
    SameSector s.disk (s.syncedBitmap E i τ).disk lba := by
  obtain ⟨h1, h2⟩ := hm.bitmap_range τ
  rw [Fs.syncedBitmap_disk]
  refine sameSector_splice ?_
  rcases hoff with hoff | hoff <;> omega

/-- The first block of a file. -/
theorem allocFirst_sync {r : Bool} (hm : s.Mounted E) (hoff : (s.inode a).Off E s.disk)
    (h : Returns (allocFirst E a) s r s') :
    KeepsSync E τ s s' ∧ (s'.inode a).Off E s'.disk := by
  obtain ⟨ino, s, h1, h⟩ := returns_bind.mp h
  obtain ⟨-, rfl, rfl⟩ := returns_inodeAt.mp h1
  rcases returns_ite.mp h with ⟨h0, h⟩ | ⟨-, h⟩
  · obtain ⟨ans, t₁, h2, h⟩ := returns_bind.mp h
    cases ans with
    | none =>
      obtain ⟨rfl, rfl⟩ := returns_pure.mp h
      rcases returns_allocBlock hm h2 with ⟨-, -, rfl⟩ | ⟨i, -, hsome, -⟩
      · exact ⟨refl _, hoff⟩
      · cases hsome
    | some lba =>
      obtain ⟨u, t₂, h3, h⟩ := returns_bind.mp h
      obtain ⟨-, rfl⟩ := returns_setInodeAt.mp h3
      obtain ⟨-, h⟩ := returns_check_bind.mp h
      obtain ⟨u, t₃, h4, h⟩ := returns_bind.mp h
      obtain ⟨rfl, rfl⟩ := returns_pure.mp h
      obtain ⟨hkeep, hlba⟩ := keepsSync_allocated hm h2 h4 rfl (fun τ ↦ by cases τ <;> rfl) τ
      refine ⟨hkeep, ?_⟩
      rcases returns_allocBlock hm h2 with ⟨-, hnone, -⟩ | ⟨i, hi, hsome, hidx, rfl⟩
      · cases hnone
      · obtain ⟨-, hroom, rfl⟩ := returns_bitmapSync.mp h4
        set t := (s.setBitmap (s.blockBitmap.set i true) .blockBitmap).setInode a
          ((s.inode a).setSector 0 lba) with ht
        have hmt : t.Mounted E := ⟨hm.part, hm.blockLen, hm.inodeLen⟩
        have hino : ∀ i, (t.syncedBitmap E i .blockBitmap).inode a = (s.inode a).setSector 0 lba :=
          fun i ↦ Function.update_self ..
        rw [hino]
        refine ⟨fun k hk ↦ ?_, fun h12 k hk ↦ ?_⟩
        · by_cases hk0 : k = 0
          · rw [hk0, Inode.setSector_self]
            exact hm.offBitmaps hlba
          · rw [Inode.setSector_of_ne _ hk0]
            exact hoff.1 k hk
        · rw [Inode.setSector_of_ne _ (by decide)] at h12 ⊢
          have hsame := hmt.same_table (hoff.1 12 (by decide)) hroom
          rw [tableAt_congr hsame hk]
          exact hoff.2 h12 k hk
  · obtain ⟨rfl, rfl⟩ := returns_pure.mp h
    exact ⟨refl _, hoff⟩

theorem within_placeDirect (a k lba : ℕ) : Within SameStore (placeDirect a k lba) :=
  .bind (within_inodeAt a) fun _ ↦ .bind (.check _ _) fun _ ↦ within_setInodeAt a _

theorem within_placeMixed (a k lba : ℕ) : Within SameStore (placeMixed a k lba) :=
  .ite (.bind (within_inodeAt a) fun _ ↦ .bind (.check _ _) fun _ ↦ .bind (.check _ _) fun _ ↦
    within_setInodeAt a _) (.pure _)

theorem off_update (hoff : OffBitmaps E 0) {k lba : ℕ} (h : OffBitmaps E lba) (i : ℕ) :
    OffBitmaps E (Function.update (fun _ ↦ 0) k lba i) := by
  by_cases hik : i = k
  · rw [hik, Function.update_self]
    exact h
  · rw [Function.update_of_ne hik]
    exact hoff

/-- The blocks that `file_write` works with. -/
theorem writeBlocks_sync {has will : ℕ} {r : Option (ℕ → ℕ)} (hm : s.Mounted E)
    (hoff : (s.inode a).Off E s.disk) (h : Returns (writeBlocks E a has will) s r s') :
    KeepsSync E τ s s' ∧ ∀ b, r = some b → ∀ i < 140, OffBitmaps E (b i) := by
  have hzero := offBitmaps_zero hm.part
  obtain ⟨ino, s, h1, h⟩ := returns_bind.mp h
  obtain ⟨-, rfl, rfl⟩ := returns_inodeAt.mp h1
  have hwrite : ∀ {lba : ℕ} {all : ℕ → ℕ}, OffBitmaps E lba →
      Within (KeepsSync E τ) (writeTable lba all) := fun ho ↦
    within_keepsSync (within_writeSector ho _ _)
  rcases returns_ite.mp h with ⟨-, h⟩ | ⟨-, h⟩
  · rcases returns_ite.mp h with ⟨h12, h⟩ | ⟨-, h⟩
    · -- nothing to allocate, in a direct block
      obtain ⟨rfl, rfl⟩ := returns_pure.mp h
      refine ⟨refl _, ?_⟩
      rintro _ ⟨⟩ i -
      exact off_update hzero (hoff.1 _ (by omega)) i
    · -- or behind the table
      obtain ⟨hne, h⟩ := returns_check_bind.mp h
      obtain ⟨all, t, h2, h⟩ := returns_bind.mp h
      obtain ⟨b, t', h3, h2⟩ := returns_bind.mp h2
      obtain ⟨-, -, -, rfl, rfl⟩ := (returns_ideRead (by decide)).mp h3
      obtain ⟨rfl, rfl⟩ := returns_pure.mp h2
      obtain ⟨rfl, rfl⟩ := returns_pure.mp h
      refine ⟨refl _, ?_⟩
      rintro _ ⟨⟩ i hi
      dsimp only
      split_ifs with h12
      · exact hzero
      · have htab := hoff.2 hne (i - 12) (by omega)
        refine cast (congrArg (OffBitmaps E) (le32_congr fun j hj ↦ ?_)) htab
        rw [Nat.add_assoc]
  · rcases returns_ite.mp h with ⟨-, h⟩ | ⟨-, h⟩
    · -- direct blocks
      obtain ⟨h13, h⟩ := returns_check_bind.mp h
      obtain ⟨-, h⟩ := returns_check_bind.mp h
      exact allocBlocks_sync (within_placeDirect a) hm
        (fun i _ ↦ off_update hzero (hoff.1 _ h13) i) h
    · rcases returns_ite.mp h with ⟨h12, h⟩ | ⟨-, h⟩
      · -- a table and blocks behind it
        obtain ⟨ans, t₁, h2, h⟩ := returns_bind.mp h
        cases ans with
        | none =>
          obtain ⟨rfl, rfl⟩ := returns_pure.mp h
          rcases returns_allocBlock hm h2 with ⟨-, -, rfl⟩ | ⟨i, -, hsome, -⟩
          · exact ⟨refl _, nofun⟩
          · cases hsome
        | some lba =>
          obtain ⟨-, h⟩ := returns_check_bind.mp h
          obtain ⟨u, t₂, h3, h⟩ := returns_bind.mp h
          obtain ⟨-, rfl⟩ := returns_setInodeAt.mp h3
          obtain ⟨u, t₃, h4, h⟩ := returns_bind.mp h
          obtain ⟨hkeep, hlba⟩ := keepsSync_allocated hm h2 h4 rfl (fun τ ↦ by cases τ <;> rfl) τ
          obtain ⟨all, t₄, h5, h⟩ := returns_bind.mp h
          obtain ⟨hkeep', hoff'⟩ := allocBlocks_sync (τ := τ) (within_placeMixed a) (hkeep hm).1
            (fun i _ ↦ off_update hzero (hoff.1 _ (by omega)) i) h5
          have hkeep₂ := IsTrans.trans _ _ _ hkeep hkeep'
          cases all with
          | none =>
            obtain ⟨rfl, rfl⟩ := returns_pure.mp h
            exact ⟨hkeep₂, nofun⟩
          | some b =>
            obtain ⟨u, t₅, h6, h⟩ := returns_bind.mp h
            obtain ⟨rfl, rfl⟩ := returns_pure.mp h
            refine ⟨IsTrans.trans _ _ _ hkeep₂ (hwrite (hm.offBitmaps hlba) _ _ _ h6), ?_⟩
            rintro _ ⟨⟩
            exact hoff' b rfl
      · -- blocks behind a table that exists
        obtain ⟨-, h⟩ := returns_check_bind.mp h
        obtain ⟨all, t₁, h2, h⟩ := returns_bind.mp h
        obtain ⟨hkeep, hoff'⟩ := allocBlocks_sync (τ := τ) (fun _ _ ↦ .pure _) hm
          (fun _ _ ↦ hzero) h2
        cases all with
        | none =>
          obtain ⟨rfl, rfl⟩ := returns_pure.mp h
          exact ⟨hkeep, nofun⟩
        | some b =>
          obtain ⟨u, t₂, h3, h⟩ := returns_bind.mp h
          obtain ⟨rfl, rfl⟩ := returns_pure.mp h
          refine ⟨IsTrans.trans _ _ _ hkeep (hwrite (hoff.1 12 (by decide)) _ _ _ h3), ?_⟩
          rintro _ ⟨⟩
          exact hoff' b rfl

/-- The loop of `file_write` over the sectors. -/
theorem within_writeSectors_sync {allBlocks : ℕ → ℕ} (hoff : ∀ i < 140, OffBitmaps E (allBlocks i))
    (f : ℕ) (buf : Image) (fuel written sizeLeft : ℕ) (first : Bool) :
    Within (KeepsSync E τ) (writeSectors E f a buf allBlocks fuel written sizeLeft first) := by
  induction fuel generalizing written sizeLeft first with
  | zero => exact .ite (.pure _) (.throw _)
  | succ fuel ih =>
    refine .ite (.pure _) (.bind (within_inodeAt a) fun ino ↦ ?_)
    intro s u s' h
    obtain ⟨hsec, h⟩ := returns_check_bind.mp h
    have hrest : Within (KeepsSync E τ) (do
        let ioBuf ← sectorBuf first (allBlocks (ino.iSize / 512))
        ideWrite (allBlocks (ino.iSize / 512)) 512 1 (splice ioBuf (ino.iSize % 512)
          (min sizeLeft (512 - ino.iSize % 512)) fun i ↦ buf (written + i))
        setInodeAt a (ino.grow (min sizeLeft (512 - ino.iSize % 512)))
        modify fun s ↦ s.seek f (min sizeLeft (512 - ino.iSize % 512))
        writeSectors E f a buf allBlocks fuel (written + min sizeLeft (512 - ino.iSize % 512))
          (sizeLeft - min sizeLeft (512 - ino.iSize % 512)) false : FsM PUnit) := by
      refine .bind (.ite (within_ideRead _ _ _) (.pure _)) fun ioBuf ↦ ?_
      refine .bind (within_keepsSync (within_writeSector (hoff _ hsec) _ _)) fun _ ↦ ?_
      refine .bind (within_setInodeAt a _) fun _ ↦ .bind (.modify fun s ↦ ?_) fun _ ↦ ih _ _ _
      exact KeepsView.keepsSync (t := s.seek f _) (.of_eq rfl fun τ ↦ by cases τ <;> rfl)
    exact hrest s u s' h

/-- The part of `file_write` behind the two buffers. -/
theorem fileWriteIn_sync {f count : ℕ} {buf : Image} {r : Option ℕ} (hm : s.Mounted E)
    (hoff : (s.inode a).Off E s.disk) (h : Returns (fileWriteIn E f a buf count) s r s') :
    KeepsSync E τ s s' := by
  obtain ⟨b, t₁, h1, h⟩ := returns_bind.mp h
  obtain ⟨hkeep, hoff₁⟩ := allocFirst_sync (τ := τ) hm hoff h1
  refine IsTrans.trans _ _ _ hkeep ?_
  rcases returns_ite.mp h with ⟨-, h⟩ | ⟨-, h⟩
  · obtain ⟨ino, t₁, h2, h⟩ := returns_bind.mp h
    obtain ⟨-, rfl, rfl⟩ := returns_inodeAt.mp h2
    obtain ⟨-, h⟩ := returns_check_bind.mp h
    obtain ⟨ans, t₂, h3, h⟩ := returns_bind.mp h
    obtain ⟨hkeep₁, hblocks⟩ := writeBlocks_sync (τ := τ) (hkeep hm).1 hoff₁ h3
    refine IsTrans.trans _ _ _ hkeep₁ ?_
    cases ans with
    | none =>
      obtain ⟨rfl, rfl⟩ := returns_pure.mp h
      exact refl _
    | some all =>
      have hrest : Within (KeepsSync E τ) (do
          let ino ← inodeAt a
          modify fun s ↦
            s.setFile f { s.fileTable f with fdPos := (ino.iSize + 2 ^ 32 - 1) % 2 ^ 32 }
          writeSectors E f a buf all count 0 count true
          let ino ← inodeAt a
          inodeSync E ino 512
          pure (some count) : FsM (Option ℕ)) := by
        refine .bind (within_inodeAt a) fun ino ↦ .bind (.modify fun s ↦ ?_) fun _ ↦ ?_
        · exact KeepsView.keepsSync (t := s.setFile f _) (.of_eq rfl fun τ ↦ by cases τ <;> rfl)
        · exact .bind (within_writeSectors_sync (hblocks all rfl) _ _ _ _ _ _) fun _ ↦
            .bind (within_inodeAt a) fun _ ↦
              .bind (within_keepsSync (within_writeInode _ _)) fun _ ↦ .pure _
      exact hrest _ _ _ h
  · obtain ⟨rfl, rfl⟩ := returns_pure.mp h
    exact refl _

/-- A live inode is not changed by a request to the heap. -/
theorem alloc_inode_of_live {k : Blk} {size b : ℕ} (hlive : s.heap a = some Blk.inode)
    (hb : s.answer E size = some b) :
    (s.alloc b k).inode a = s.inode a ∧ (s.alloc b k).heap a = some Blk.inode := by
  have hne : a ≠ b := by
    rintro rfl
    cases (E.malloc_fresh hb).symm.trans hlive
  exact ⟨Function.update_of_ne hne .., (Function.update_of_ne hne ..).trans hlive⟩

/-- **`file_write`** keeps the bitmaps in sync. -/
theorem fileWrite_sync {f count : ℕ} {buf : Image} {r : Option ℕ} (hm : s.Mounted E)
    (hdata : ∀ a, (s.fileTable f).fdInode = some a → (s.inode a).InData E s.disk)
    (h : Returns (fileWrite E f buf count) s r s') (τ : BitmapType) :
    s'.Mounted E ∧ (s.InSyncAt E τ → s'.InSyncAt E τ) := by
  obtain ⟨a, s₁, h1, hret⟩ := returns_bind.mp h
  obtain ⟨hfd, rfl⟩ := returns_fdInodeOf.mp h1
  obtain ⟨ino, t, h2, h⟩ := returns_bind.mp hret
  obtain ⟨hlive, rfl, rfl⟩ := returns_inodeAt.mp h2
  suffices hkeep : KeepsSync E τ t s' from hkeep hm
  have hoff := hm.off (hdata a hfd)
  rcases returns_ite.mp h with ⟨-, h⟩ | ⟨-, h⟩
  · obtain ⟨rfl, rfl⟩ := returns_pure.mp h
    exact refl _
  · obtain ⟨ans, t₁, h3, h⟩ := returns_bind.mp h
    obtain ⟨rfl, rfl⟩ := returns_sysMalloc.mp h3
    cases hb : t.answer E 512 with
    | none =>
      rw [hb] at h
      obtain ⟨rfl, rfl⟩ := returns_pure.mp h
      exact Quiet.tick t
    | some b =>
      rw [hb] at h
      obtain ⟨hino₁, hlive₁⟩ := alloc_inode_of_live (k := .buffer) hlive hb
      refine IsTrans.trans _ _ _ (Quiet.alloc t b .buffer) ?_
      obtain ⟨ans, t₂, h4, h⟩ := (returns_bind (s := t.alloc b .buffer)).mp h
      obtain ⟨rfl, rfl⟩ := returns_sysMalloc.mp h4
      cases hc : (t.alloc b Blk.buffer).answer E 560 with
      | none =>
        rw [hc] at h
        obtain ⟨rfl, rfl⟩ := returns_pure.mp h
        exact Quiet.tick (R := KeepsSync E τ) (t.alloc b .buffer)
      | some c =>
        rw [hc] at h
        obtain ⟨hino₂, -⟩ := alloc_inode_of_live (k := .buffer) hlive₁ hc
        refine IsTrans.trans _ _ _ (Quiet.alloc _ c .buffer) ?_
        obtain ⟨r', t₃, h5, h⟩ := returns_bind.mp h
        have hm₂ : ((t.alloc b Blk.buffer).alloc c Blk.buffer).Mounted E :=
          ⟨hm.part, hm.blockLen, hm.inodeLen⟩
        have hoff₂ : (((t.alloc b Blk.buffer).alloc c Blk.buffer).inode a).Off E t.disk := by
          rw [hino₂, hino₁]
          exact hoff
        refine IsTrans.trans _ _ _ (fileWriteIn_sync hm₂ hoff₂ h5) ?_
        have hfrees : Within (KeepsSync E τ) (do sysFree E c; sysFree E b; pure r' : FsM _) :=
          .bind (within_sysFree E c) fun _ ↦ .bind (within_sysFree E b) fun _ ↦ .pure _
        exact hfrees _ _ _ h

end Functions

end GlowOS
