import Mathlib
import GlowOS.Fs.Slots

/-!
# Inserting into a directory

`sync_dir_entry` ends in one of five ways: the entry goes to a free slot of a direct block, to a new
direct block, or to a new block behind a new indirect table; or there is no free block, at once or
after the table was allocated. `SyncOutcome` lists them with the states they lead to.

A directory is looked at through its slots: pairs of a block index and an entry index. An insertion
adds one slot and keeps the others, except when the direct blocks are full and there is an indirect
table already. Then the new table takes its place, and what was behind the old one is gone.
-/

namespace GlowOS

open Bytes Program Scan

/-! ## The outcomes -/

/-- All entries of the twelve direct blocks are in use. -/
def DirectFull (d : Image) (ino : Inode) : Prop :=
  ∀ k < 12, ino.iSectors k ≠ 0 ∧ ∀ j < 21, (entryAt d (ino.iSectors k) j).fType ≠ .unknown

/-- A new block with an entry in front. -/
def newBlock (e : DirEntry) : Image := splice (fun _ ↦ 0) 0 24 e.encode

/-- The state after the block with bit `i` was allocated and the bitmap written to the disk. -/
def Fs.takeBlock (E : Env) (s : Fs) (i : ℕ) : Fs :=
  (s.setBitmap (s.blockBitmap.set i true) .blockBitmap).syncedBitmap E i .blockBitmap

/-- The state after the entry was written to slot `(k, j)` of a direct block. -/
def Fs.reusedSlot (s : Fs) (a : ℕ) (e : DirEntry) (k j : ℕ) : Fs :=
  (s.store (512 * (s.inode a).iSectors k + 24 * j) 24 e.encode).setInode a ((s.inode a).grow 24)

/-- The state after the entry was written to the new direct block `k` with bit `i`. -/
def Fs.addedDirect (E : Env) (s : Fs) (a : ℕ) (e : DirEntry) (k i : ℕ) : Fs :=
  let lba := E.part.sb.dataStartLba + i
  ((s.takeBlock E i).store (512 * lba) 512 (newBlock e)).setInode a
    (((s.inode a).setSector k lba).grow 24)

/-- The state after the entry was written to a new block with bit `i'`, behind the new table with
bit `i`. -/
def Fs.addedTable (E : Env) (s : Fs) (a : ℕ) (e : DirEntry) (i i' : ℕ) : Fs :=
  let lba := E.part.sb.dataStartLba + i
  let lba' := E.part.sb.dataStartLba + i'
  let words := Function.update (s.inode a).direct 12 lba'
  ((((s.takeBlock E i).takeBlock E i').store (512 * lba) 512 (ofWords fun k ↦ words (12 + k))).store
    (512 * lba') 512 (newBlock e)).setInode a (((s.inode a).setSector 12 lba).grow 24)

/-- The state after a new table with bit `i` was given up again. -/
def Fs.givenUp (E : Env) (s : Fs) (a i : ℕ) : Fs :=
  ((s.takeBlock E i).setBitmap ((s.blockBitmap.set i true).set i false) .blockBitmap).setInode a
    ((s.inode a).setSector 12 0)

/-- How `sync_dir_entry` ends. -/
inductive SyncOutcome (E : Env) (s : Fs) (a : ℕ) (e : DirEntry) : Bool → Fs → Prop
  | reuse {k j : ℕ} (hk : k < 12) (hj : j < 21) (hb : (s.inode a).iSectors k ≠ 0)
      (hfree : (entryAt s.disk ((s.inode a).iSectors k) j).fType = .unknown) :
      SyncOutcome E s a e true (s.reusedSlot a e k j)
  | direct {k i : ℕ} (hk : k < 12) (hb : (s.inode a).iSectors k = 0)
      (hi : s.blockBitmap.scan 1 = some i) (hlba : E.part.sb.dataStartLba + i ≤ maxLba) :
      SyncOutcome E s a e true (s.addedDirect E a e k i)
  | table {i i' : ℕ} (hfull : DirectFull s.disk (s.inode a))
      (hi : s.blockBitmap.scan 1 = some i) (hi' : (s.blockBitmap.set i true).scan 1 = some i')
      (hlba : E.part.sb.dataStartLba + i ≤ maxLba)
      (hlba' : E.part.sb.dataStartLba + i' ≤ maxLba) :
      SyncOutcome E s a e true (s.addedTable E a e i i')
  | noBlock (hi : s.blockBitmap.scan 1 = none) : SyncOutcome E s a e false s
  | noSecond {i : ℕ} (hfull : DirectFull s.disk (s.inode a))
      (hi : s.blockBitmap.scan 1 = some i) (hi' : (s.blockBitmap.set i true).scan 1 = none) :
      SyncOutcome E s a e false (s.givenUp E a i)

/-- A successful insertion, and the slot it fills. -/
inductive Placed (E : Env) (s : Fs) (a : ℕ) (e : DirEntry) : ℕ × ℕ → Fs → Prop
  | reuse {k j : ℕ} (hk : k < 12) (hj : j < 21) (hb : (s.inode a).iSectors k ≠ 0)
      (hfree : (entryAt s.disk ((s.inode a).iSectors k) j).fType = .unknown) :
      Placed E s a e (k, j) (s.reusedSlot a e k j)
  | direct {k i : ℕ} (hk : k < 12) (hb : (s.inode a).iSectors k = 0)
      (hi : s.blockBitmap.scan 1 = some i) (hlba : E.part.sb.dataStartLba + i ≤ maxLba) :
      Placed E s a e (k, 0) (s.addedDirect E a e k i)
  | table {i i' : ℕ} (hfull : DirectFull s.disk (s.inode a))
      (hi : s.blockBitmap.scan 1 = some i) (hi' : (s.blockBitmap.set i true).scan 1 = some i')
      (hlba : E.part.sb.dataStartLba + i ≤ maxLba)
      (hlba' : E.part.sb.dataStartLba + i' ≤ maxLba) :
      Placed E s a e (12, 0) (s.addedTable E a e i i')

theorem Placed.outcome {E : Env} {s s' : Fs} {a : ℕ} {e : DirEntry} {q : ℕ × ℕ}
    (h : Placed E s a e q s') : SyncOutcome E s a e true s' := by
  cases h with
  | reuse hk hj hb hfree => exact SyncOutcome.reuse hk hj hb hfree
  | direct hk hb hi hlba => exact SyncOutcome.direct hk hb hi hlba
  | table hfull hi hi' hlba hlba' => exact SyncOutcome.table hfull hi hi' hlba hlba'

theorem SyncOutcome.placed {E : Env} {s s' : Fs} {a : ℕ} {e : DirEntry}
    (h : SyncOutcome E s a e true s') : ∃ q, Placed E s a e q s' := by
  cases h with
  | reuse hk hj hb hfree => exact ⟨_, Placed.reuse hk hj hb hfree⟩
  | direct hk hb hi hlba => exact ⟨_, Placed.direct hk hb hi hlba⟩
  | table hfull hi hi' hlba hlba' => exact ⟨_, Placed.table hfull hi hi' hlba hlba'⟩

/-- The slot for the next entry, from block `k` on: the first that is free, or the first of the next
new block. -/
def freeSlotFrom (d : Image) (ino : Inode) : ℕ → ℕ → ℕ × ℕ
  | 0, k => (k, 0)
  | left + 1, k =>
    if ino.iSectors k = 0 then (k, 0)
    else
      match firstFrom (fun j ↦ (entryAt d (ino.iSectors k) j).fType == .unknown) 21 0 with
      | some j => (k, j)
      | none => freeSlotFrom d ino left (k + 1)

/-- The slot for the next entry. -/
def freeSlot (d : Image) (ino : Inode) : ℕ × ℕ := freeSlotFrom d ino 12 0

/-- A partition mounted after it was formatted. -/
structure Fs.Mounted (E : Env) (s : Fs) : Prop where
  part : E.part.Formatted
  blockLen : s.blockBitmap.btmpBytesLen = 512 * E.part.sb.blockBitmapSects
  inodeLen : s.inodeBitmap.btmpBytesLen = 512 * E.part.sb.inodeBitmapSects

theorem Fs.takeBlock_disk (E : Env) (s : Fs) (i : ℕ) :
    (s.takeBlock E i).disk = splice s.disk (512 * (bitmapLba E .blockBitmap + i / 4096)) 512
      fun k ↦ (s.blockBitmap.set i true).bits (i / 4096 * 512 + k) := rfl

theorem Fs.setInode_takeBlock (E : Env) (s : Fs) (a : ℕ) (ino : Inode) (i : ℕ) :
    (s.setInode a ino).takeBlock E i = (s.takeBlock E i).setInode a ino := rfl

variable {E : Env} {s s' : Fs} {a : ℕ} {e : DirEntry}

/-- The bits of the block bitmap are small numbers. -/
theorem Fs.Mounted.bit_lt (hm : s.Mounted E) {i : ℕ} (hi : i < 8 * s.blockBitmap.btmpBytesLen) :
    i < 2 ^ 32 := by
  have h1 := hm.part.dataStartLba_eq
  have h2 := hm.part.inodeTableLba_eq
  have h3 := hm.part.inodeBitmapLba_eq
  have h4 := hm.part.dataStartLba_le_maxLba
  have h5 := hm.blockLen
  have h6 : maxLba = 163839 := by decide
  omega

theorem blockBitmapIdx_add {i : ℕ} (hi : i < 2 ^ 32) :
    blockBitmapIdx E (E.part.sb.dataStartLba + i) = i := by
  rw [blockBitmapIdx, show E.part.sb.dataStartLba + i + 2 ^ 32 - E.part.sb.dataStartLba
    = i + 2 ^ 32 by omega, Nat.add_mod_right, Nat.mod_eq_of_lt hi]

/-- A block that is allocated was free. -/
theorem returns_allocBlock (hm : s.Mounted E) {r : Option ℕ}
    (h : Returns (blockBitmapAlloc E) s r s') :
    (s.blockBitmap.scan 1 = none ∧ r = none ∧ s' = s) ∨
      ∃ i, s.blockBitmap.scan 1 = some i ∧ r = some (E.part.sb.dataStartLba + i) ∧
        blockBitmapIdx E (E.part.sb.dataStartLba + i) = i ∧
        s' = s.setBitmap (s.blockBitmap.set i true) .blockBitmap := by
  rcases returns_blockBitmapAlloc.mp h with h | ⟨i, hi, rfl, rfl⟩
  · exact Or.inl h
  · have hlt := hm.bit_lt (Bitmap.scan_one_eq_some.mp hi).1
    exact Or.inr ⟨i, hi, rfl, blockBitmapIdx_add hlt, rfl⟩

theorem returns_placeEntry (hp : E.part.Formatted) {ioBuf lba : ℕ} {r : Bool}
    (h : Returns (placeEntry E a e ioBuf lba) s r s') :
    r = true ∧ lba ≤ maxLba ∧
      s' = (s.store (512 * lba) 512 (newBlock e)).setInode a ((s.inode a).grow 24) := by
  obtain ⟨u, t, h1, h⟩ := returns_bind.mp h
  obtain ⟨hlba, -, -, rfl⟩ := (returns_ideWrite (by decide)).mp h1
  obtain ⟨u, t, h2, h⟩ := returns_bind.mp h
  obtain ⟨-, rfl⟩ := returns_modifyInode.mp h2
  obtain ⟨rfl, rfl⟩ := returns_pure.mp h
  refine ⟨rfl, hlba, ?_⟩
  rw [hp.dirEntrySize_eq]
  rfl

/-- The branch for a block that is not allocated. -/
theorem syncNewBlock_placed (hm : s.Mounted E) {ioBuf k : ℕ} {r : Bool} (hk : k ≤ 12)
    (hb : (s.inode a).direct k = 0) (hfull : k = 12 → DirectFull s.disk (s.inode a))
    (h : Returns (syncNewBlock E a e ioBuf (s.inode a).direct k) s r s') :
    r = true ∧ Placed E s a e (k, 0) s' ∨ r = false ∧ SyncOutcome E s a e false s' := by
  obtain ⟨ans, t, h1, h⟩ := returns_bind.mp h
  rcases returns_allocBlock hm h1 with ⟨hi, rfl, rfl⟩ | ⟨i, hi, rfl, hidx, rfl⟩
  · obtain ⟨rfl, rfl⟩ := returns_pure.mp h
    exact Or.inr ⟨rfl, SyncOutcome.noBlock hi⟩
  · dsimp only at h
    rw [hidx] at h
    obtain ⟨u, t, h2, h⟩ := returns_bind.mp h
    obtain ⟨-, -, rfl⟩ := returns_bitmapSync.mp h2
    rw [← Fs.takeBlock] at h
    by_cases hk12 : k < 12
    · rw [if_pos hk12] at h
      obtain ⟨u, t, h3, h⟩ := returns_bind.mp h
      obtain ⟨-, rfl⟩ := returns_modifyInode.mp h3
      obtain ⟨rfl, hlba, rfl⟩ := returns_placeEntry hm.part h
      rw [Inode.direct, if_pos hk12] at hb
      rw [Fs.setInode_store, Fs.setInode_setInode, Fs.setInode_inode, Function.update_self]
      exact Or.inl ⟨rfl, Placed.direct hk12 hb hi hlba⟩
    · have hk' : k = 12 := by omega
      subst hk'
      rw [if_neg (by decide), if_pos rfl] at h
      obtain ⟨u, t, h3, h⟩ := returns_bind.mp h
      obtain ⟨-, rfl⟩ := returns_modifyInode.mp h3
      obtain ⟨ans, t, h4, h⟩ := returns_bind.mp h
      have hm' : ((s.takeBlock E i).setInode a
          (((s.takeBlock E i).inode a).setSector 12 (E.part.sb.dataStartLba + i))).Mounted E :=
        ⟨hm.part, hm.blockLen, hm.inodeLen⟩
      rcases returns_allocBlock hm' h4 with ⟨hi', rfl, rfl⟩ | ⟨i', hi', rfl, hidx', rfl⟩
      · -- the table is given up
        obtain ⟨ino, t, h5, h⟩ := returns_bind.mp h
        obtain ⟨-, rfl, rfl⟩ := returns_inodeAt.mp h5
        obtain ⟨u, t, h6, h⟩ := returns_bind.mp h
        obtain ⟨-, rfl⟩ := returns_bitmapSet.mp h6
        obtain ⟨u, t, h7, h⟩ := returns_bind.mp h
        obtain ⟨-, rfl⟩ := returns_modifyInode.mp h7
        obtain ⟨rfl, rfl⟩ := returns_pure.mp h
        refine Or.inr ⟨rfl, ?_⟩
        rw [Fs.setInode_setBitmap, Fs.setInode_setInode]
        simp only [Fs.setInode_inode, Function.update_self, Inode.setSector_self,
          Inode.setSector_setSector, hidx]
        exact SyncOutcome.noSecond (hfull rfl) hi hi'
      · dsimp only at h
        rw [hidx'] at h
        obtain ⟨u, t, h5, h⟩ := returns_bind.mp h
        obtain ⟨-, -, rfl⟩ := returns_bitmapSync.mp h5
        rw [← Fs.takeBlock] at h
        obtain ⟨ino, t, h6, h⟩ := returns_bind.mp h
        obtain ⟨-, rfl, rfl⟩ := returns_inodeAt.mp h6
        obtain ⟨u, t, h7, h⟩ := returns_bind.mp h
        obtain ⟨hlba, rfl⟩ := returns_writeTable.mp h7
        obtain ⟨rfl, hlba', rfl⟩ := returns_placeEntry hm.part h
        refine Or.inl ⟨rfl, ?_⟩
        rw [Fs.setInode_takeBlock, Fs.setInode_store, Fs.setInode_store, Fs.setInode_setInode]
        rw [Fs.setInode_takeBlock] at hlba
        simp only [Fs.setInode_inode, Function.update_self, Inode.setSector_self] at hlba ⊢
        exact Placed.table (hfull rfl) hi hi' hlba hlba'

/-- The loop over the blocks, from a direct block on, fills the first free slot. -/
theorem syncBlocks_placed (hm : s.Mounted E) {ioBuf left k : ℕ} {r : Bool} (hk : k ≤ 12)
    (hleft : k + left = 140)
    (hfull : ∀ i < k, (s.inode a).iSectors i ≠ 0 ∧
      ∀ j < 21, (entryAt s.disk ((s.inode a).iSectors i) j).fType ≠ .unknown)
    (h : Returns (syncBlocks E a e ioBuf (s.inode a).direct left k) s r s') :
    r = true ∧ Placed E s a e (freeSlotFrom s.disk (s.inode a) (12 - k) k) s' ∨
      r = false ∧ SyncOutcome E s a e false s' := by
  induction left generalizing k with
  | zero => omega
  | succ left ih =>
    rw [syncBlocks] at h
    by_cases h0 : (s.inode a).direct k = 0
    · rw [if_pos h0] at h
      have hslot : freeSlotFrom s.disk (s.inode a) (12 - k) k = (k, 0) := by
        by_cases hk12 : k < 12
        · rw [Inode.direct, if_pos hk12] at h0
          rw [show 12 - k = (11 - k) + 1 by omega, freeSlotFrom, if_pos h0]
        · rw [show 12 - k = 0 by omega, freeSlotFrom]
      rw [hslot]
      exact syncNewBlock_placed hm hk h0 (fun hk12 i hi ↦ hfull i (by omega)) h
    · rw [if_neg h0] at h
      have hk12 : k < 12 := by
        by_contra hge
        exact h0 (if_neg hge)
      have hsec : (s.inode a).direct k = (s.inode a).iSectors k := if_pos hk12
      rw [hsec] at h0 h
      obtain ⟨buf, t, h1, h⟩ := returns_bind.mp h
      obtain ⟨-, -, -, rfl, rfl⟩ := (returns_ideRead (by decide)).mp h1
      simp only [decode_shift, dirEntrysPerSec_eq hm.part, hm.part.dirEntrySize_eq] at h
      rw [show 12 - k = (12 - (k + 1)) + 1 by omega, freeSlotFrom, if_neg h0]
      simp only [entryAt]
      cases hf : firstFrom (fun j ↦ (DirEntry.decode t.disk
          (512 * (t.inode a).iSectors k + 24 * j)).fType == .unknown) 21 0 with
      | none =>
        rw [hf] at h
        refine ih (by omega) (by omega) (fun i hi ↦ ?_) h
        rcases Nat.lt_succ_iff_lt_or_eq.mp hi with hlt | rfl
        · exact hfull i hlt
        · refine ⟨h0, fun j hj ↦ ?_⟩
          have hno := firstFrom_eq_none.mp hf j (by omega) (by omega)
          exact ne_of_beq_false hno
      | some j =>
        rw [hf] at h
        obtain ⟨-, hj, hfree, -⟩ := firstFrom_eq_some.mp hf
        obtain ⟨u, t', h2, h⟩ := returns_bind.mp h
        obtain ⟨-, -, -, rfl⟩ := (returns_ideWrite (by decide)).mp h2
        obtain ⟨u, t', h3, h⟩ := returns_bind.mp h
        obtain ⟨-, rfl⟩ := returns_modifyInode.mp h3
        obtain ⟨rfl, rfl⟩ := returns_pure.mp h
        have hstate : t.store (512 * (t.inode a).iSectors k) (512 * 1) (splice
            (fun i ↦ t.disk (512 * (t.inode a).iSectors k + i)) (24 * j) 24 e.encode)
              = t.store (512 * (t.inode a).iSectors k + 24 * j) 24 e.encode := by
          rw [Fs.store, Fs.store, splice_read _ _ (by omega)]
        rw [hstate]
        exact Or.inl ⟨rfl, Placed.reuse hk12 (by omega) h0 (eq_of_beq hfree)⟩

theorem syncDirEntry_placed_or (hm : s.Mounted E) {dir : Dir} {ioBuf : ℕ} {r : Bool}
    (h : Returns (syncDirEntry E dir e ioBuf) s r s') :
    s.heap dir.inode = some Blk.inode ∧
      (r = true ∧ Placed E s dir.inode e (freeSlot s.disk (s.inode dir.inode)) s' ∨
        r = false ∧ SyncOutcome E s dir.inode e false s') := by
  obtain ⟨ino, t, h1, h⟩ := returns_bind.mp h
  obtain ⟨hlive, rfl, rfl⟩ := returns_inodeAt.mp h1
  obtain ⟨-, h⟩ := returns_check_bind.mp h
  exact ⟨hlive, syncBlocks_placed hm (by decide) (by decide) (fun i hi ↦ absurd hi (by omega)) h⟩

/-- A successful insertion fills the first free slot. -/
theorem syncDirEntry_placed (hm : s.Mounted E) {dir : Dir} {ioBuf : ℕ}
    (h : Returns (syncDirEntry E dir e ioBuf) s true s') :
    Placed E s dir.inode e (freeSlot s.disk (s.inode dir.inode)) s' := by
  rcases (syncDirEntry_placed_or hm h).2 with ⟨-, h⟩ | ⟨h, -⟩
  · exact h
  · cases h

/-- **What `sync_dir_entry` does.** -/
theorem syncDirEntry_outcome (hm : s.Mounted E) {dir : Dir} {ioBuf : ℕ} {r : Bool}
    (h : Returns (syncDirEntry E dir e ioBuf) s r s') :
    s.heap dir.inode = some Blk.inode ∧ SyncOutcome E s dir.inode e r s' := by
  obtain ⟨hlive, ⟨rfl, hplaced⟩ | ⟨rfl, hfailed⟩⟩ := syncDirEntry_placed_or hm h
  · exact ⟨hlive, hplaced.outcome⟩
  · exact ⟨hlive, hfailed⟩

/-! ## What becomes of the slots -/

theorem entry_newBlock {d : Image} {lba j : ℕ} (hj : j < 21) :
    entryAt (splice d (512 * lba) 512 (newBlock e)) lba j = DirEntry.decode (newBlock e) (24 * j) :=
  DirEntry.decode_congr fun i hi ↦ by
    rw [splice_of_mem (by omega) (by omega)]
    congr 1
    omega

theorem entry_newBlock_zero (he : e.Fits) {d : Image} {lba : ℕ} :
    entryAt (splice d (512 * lba) 512 (newBlock e)) lba 0 = e := by
  rw [entry_newBlock (by decide), newBlock, Nat.mul_zero, DirEntry.decode_splice_self,
    DirEntry.decode_encode he]

/-- The entries behind the first one of a new block are zero. -/
theorem entry_newBlock_pos {d : Image} {lba j : ℕ} (h0 : 0 < j) (hj : j < 21) :
    (entryAt (splice d (512 * lba) 512 (newBlock e)) lba j).fType = .unknown ∧
      (entryAt (splice d (512 * lba) 512 (newBlock e)) lba j).name = [] := by
  have hzero : entryAt (splice d (512 * lba) 512 (newBlock e)) lba j
      = DirEntry.decode (fun _ ↦ 0) 0 := by
    rw [entry_newBlock hj, newBlock, DirEntry.decode_splice_of_disjoint (by omega)]
    exact DirEntry.decode_congr fun _ _ ↦ rfl
  rw [hzero]
  exact ⟨rfl, rfl⟩

/-- The slots that survive an insertion: all, or those of the direct blocks if these are full. -/
def Kept (d : Image) (ino : Inode) (p : ℕ × ℕ) : Prop := DirectFull d ino → p.1 < 12

/-- The directory `(d', ino')` has the slots of `(d, ino)` that are kept, and one more. -/
structure AddsSlot (d : Image) (ino : Inode) (d' : Image) (ino' : Inode) (e : DirEntry)
    (q : ℕ × ℕ) : Prop where
  inSlots : InSlots d' ino' q
  entry : slotEntry d' ino' q = e
  fresh : ¬(LiveSlot d ino q ∧ Kept d ino q)
  live_iff : ∀ p, p ≠ q → (LiveSlot d' ino' p ↔ LiveSlot d ino p ∧ Kept d ino p)
  same : ∀ p, p ≠ q → LiveSlot d' ino' p → slotEntry d' ino' p = slotEntry d ino p
  dead : ∀ p, p ≠ q → InSlots d' ino' p → ¬LiveSlot d' ino' p → (slotEntry d' ino' p).name = []
  size : ino'.iSize = ino.iSize + 24
  onDisk : ∀ p ≤ 140, ino'.held d' p ≤ maxLba

/-- The sectors of the block bitmap lie in front of the data area. -/
theorem Fs.Mounted.bitmapSector_lt (hm : s.Mounted E) {i : ℕ}
    (hi : i < 8 * s.blockBitmap.btmpBytesLen) :
    bitmapLba E .blockBitmap + i / 4096 < E.part.sb.dataStartLba := by
  have h1 := hm.part.dataStartLba_eq
  have h2 := hm.part.inodeTableLba_eq
  have h3 := hm.part.inodeBitmapLba_eq
  have h4 := hm.part.blockBitmapLba_eq
  have h5 := hm.blockLen
  change E.part.sb.blockBitmapLba + i / 4096 < _
  omega

/-- Allocating a block does not change the data area. -/
theorem sameSector_takeBlock (hm : s.Mounted E) {i lba : ℕ}
    (hi : i < 8 * s.blockBitmap.btmpBytesLen) (hlba : E.part.sb.dataStartLba ≤ lba) :
    SameSector s.disk (s.takeBlock E i).disk lba := by
  rw [Fs.takeBlock_disk]
  exact sameSector_splice ((hm.bitmapSector_lt hi).trans_le hlba).ne'

/-- A free block is not held by an inode. -/
theorem Inode.Owns.ne_free {d : Image} {bm : Bitmap} {ino : Inode} (ho : ino.Owns E d bm) {i p : ℕ}
    (hp : p ≤ 140) (h0 : ino.held d p ≠ 0) (hi : bm.bit i = false) :
    ino.held d p ≠ E.part.sb.dataStartLba + i := by
  intro h
  have hbit := ho.used p hp h0
  rw [h, Nat.add_sub_cancel_left, hi] at hbit
  cases hbit

section Effect

variable {d d' : Image} {bm : Bitmap} {ino ino' : Inode} {q : ℕ × ℕ}

/-- The three ways to add a slot have this in common: the kept blocks stay where they are and keep
their entries, except for slot `q`; what is new is empty, except for slot `q`. -/
theorem addsSlot_of_blocks (hw : DirBlocks E d bm ino) (hq : InSlots d' ino' q)
    (hentry : slotEntry d' ino' q = e) (hfresh : ¬(LiveSlot d ino q ∧ Kept d ino q))
    (hold : ∀ p, p ≠ q → InSlots d ino p → Kept d ino p →
      InSlots d' ino' p ∧ slotEntry d' ino' p = slotEntry d ino p)
    (hnew : ∀ p, p ≠ q → InSlots d' ino' p → ¬(InSlots d ino p ∧ Kept d ino p) →
      (slotEntry d' ino' p).fType = .unknown ∧ (slotEntry d' ino' p).name = [])
    (hsize : ino'.iSize = ino.iSize + 24) (hdisk : ∀ p ≤ 140, ino'.held d' p ≤ maxLba) :
    AddsSlot d ino d' ino' e q where
  inSlots := hq
  entry := hentry
  fresh := hfresh
  size := hsize
  onDisk := hdisk
  live_iff p hp := by
    constructor
    · rintro ⟨hin, hty⟩
      by_cases h : InSlots d ino p ∧ Kept d ino p
      · refine ⟨⟨h.1, ?_⟩, h.2⟩
        rwa [(hold p hp h.1 h.2).2] at hty
      · exact absurd (hnew p hp hin h).1 hty
    · rintro ⟨⟨hin, hty⟩, hk⟩
      obtain ⟨h1, h2⟩ := hold p hp hin hk
      exact ⟨h1, by rwa [h2]⟩
  same p hp h := by
    by_cases h' : InSlots d ino p ∧ Kept d ino p
    · exact (hold p hp h'.1 h'.2).2
    · exact absurd (hnew p hp h.1 h').1 h.2
  dead p hp hin hlive := by
    by_cases h : InSlots d ino p ∧ Kept d ino p
    · obtain ⟨-, h2⟩ := hold p hp h.1 h.2
      rw [h2]
      refine hw.dead p h.1 fun hl ↦ hlive ⟨hin, ?_⟩
      rw [h2]
      exact hl.2
    · exact (hnew p hp hin h).2

/-- A slot of a direct block is not in the table, so the blocks stay. -/
theorem blocks_reuse {k j m : ℕ} (hw : DirBlocks E d bm ino) (hk : k < 12) (hj : j < 21)
    (hm : m < 140) (g : Image) : (ino.grow 24).blocks
      (splice d (512 * ino.iSectors k + 24 * j) 24 g) m = ino.blocks d m := by
  refine Inode.blocks_congr (fun _ _ ↦ rfl) (fun h0 ↦ ?_) hm
  refine sameSector_splice_part (fun heq ↦ ?_) (by omega)
  have hsec : ino.iSectors 12 = ino.iSectors k := heq
  have hpk : 140 = k := by
    refine hw.owns.inj 140 (le_refl _) k (by omega) (Inode.held_table ▸ h0) ?_
    rw [Inode.held_table, hsec, Inode.held_of_lt (by omega), Inode.blocks_of_lt hk]
  omega

/-- Reusing a slot. -/
theorem addsSlot_reuse {k j : ℕ} (he : e.Fits) (hw : DirBlocks E d bm ino) (hk : k < 12)
    (hj : j < 21) (hb : ino.iSectors k ≠ 0)
    (hfree : (entryAt d (ino.iSectors k) j).fType = .unknown) :
    AddsSlot d ino (splice d (512 * ino.iSectors k + 24 * j) 24 e.encode) (ino.grow 24) e (k, j) := by
  have hheld : ∀ p ≤ 140, ino.held d p ≠ 0 → p ≠ k → ino.held d p ≠ ino.iSectors k := by
    intro p hp h0 hpk heq
    refine hpk (hw.owns.inj p hp k (by omega) h0 ?_)
    rw [heq, Inode.held_of_lt (by omega), Inode.blocks_of_lt hk]
  have hblocks : ∀ m < 140, (ino.grow 24).blocks
      (splice d (512 * ino.iSectors k + 24 * j) 24 e.encode) m = ino.blocks d m :=
    fun m hm ↦ blocks_reuse hw hk hj hm _
  have hbk : ino.blocks d k = ino.iSectors k := Inode.blocks_of_lt hk
  have hin : ∀ p, InSlots (splice d (512 * ino.iSectors k + 24 * j) 24 e.encode) (ino.grow 24) p
      ↔ InSlots d ino p := by
    intro p
    refine and_congr_right fun h1 ↦ and_congr_right fun _ ↦ ?_
    rw [hblocks p.1 h1]
  refine addsSlot_of_blocks hw ((hin _).mpr ⟨by omega, hj, hbk ▸ hb⟩) ?_ ?_ ?_ ?_ rfl ?_
  · rw [slotEntry, hblocks k (by omega), hbk, entryAt, DirEntry.decode_splice_self,
      DirEntry.decode_encode he]
  · rintro ⟨hl, -⟩
    exact hl.2 (by rw [slotEntry, hbk, hfree])
  · intro p hp h _
    refine ⟨(hin p).mpr h, ?_⟩
    rw [slotEntry, slotEntry, hblocks p.1 h.1]
    by_cases hpk : p.1 = k
    · have hpj : p.2 ≠ j := fun hpj ↦ hp (Prod.ext hpk hpj)
      rw [hpk, hbk]
      exact DirEntry.decode_splice_of_disjoint (by omega)
    · refine entryAt_congr (sameSector_splice_part ?_ (by omega)) h.2.1
      rw [← Inode.held_of_lt h.1]
      exact hheld p.1 h.1.le (by rw [Inode.held_of_lt h.1]; exact h.2.2) hpk
  · intro p _ h hno
    refine absurd ⟨(hin p).mp h, fun hfull ↦ ?_⟩ hno
    exact absurd hfree ((hfull k hk).2 j hj)
  · intro p hp
    by_cases hp140 : p = 140
    · subst hp140
      exact hw.onDisk 140 hp
    · rw [Inode.held_of_lt (by omega), hblocks p (by omega), ← Inode.held_of_lt (by omega)]
      exact hw.onDisk p hp

/-- The blocks with a new direct block. -/
theorem blocks_direct {d₀ : Image} {k lba m : ℕ} (hw : DirBlocks E d bm ino)
    (hdata : ∀ l, E.part.sb.dataStartLba ≤ l → SameSector d d₀ l) (hk : k < 12)
    (hnew : ∀ p ≤ 140, ino.held d p ≠ 0 → ino.held d p ≠ lba) (hm : m < 140) (g : Image) :
    ((ino.setSector k lba).grow 24).blocks (splice d₀ (512 * lba) 512 g) m =
      if m = k then lba else ino.blocks d m := by
  have h12 : ((ino.setSector k lba).grow 24).iSectors 12 = ino.iSectors 12 :=
    Inode.setSector_of_ne ino (by omega) lba
  split_ifs with hmk
  · rw [hmk, Inode.blocks_of_lt hk]
    exact Inode.setSector_self ino k lba
  · by_cases hm12 : m < 12
    · rw [Inode.blocks_of_lt hm12, Inode.blocks_of_lt hm12]
      exact Inode.setSector_of_ne ino hmk lba
    · by_cases h0 : ino.iSectors 12 = 0
      · rw [Inode.blocks_of_no_table (by omega) (h12.trans h0),
          Inode.blocks_of_no_table (by omega) h0]
      · rw [Inode.blocks_of_table (by omega) (h12 ▸ h0), Inode.blocks_of_table (by omega) h0, h12]
        have h0' : ino.held d 140 ≠ 0 := Inode.held_table ▸ h0
        have htab := (hdata _ (hw.owns.inData 140 (le_refl _) h0')).trans
          (sameSector_splice (g := g) (hnew 140 (le_refl _) h0'))
        rw [Inode.held_table] at htab
        exact tableAt_congr htab (by omega)

/-- A new direct block. -/
theorem addsSlot_direct {d₀ : Image} {k lba : ℕ} (he : e.Fits) (hw : DirBlocks E d bm ino)
    (hdata : ∀ l, E.part.sb.dataStartLba ≤ l → SameSector d d₀ l) (hk : k < 12)
    (hb : ino.iSectors k = 0) (hlba0 : lba ≠ 0) (hlba : lba ≤ maxLba)
    (hnew : ∀ p ≤ 140, ino.held d p ≠ 0 → ino.held d p ≠ lba) :
    AddsSlot d ino (splice d₀ (512 * lba) 512 (newBlock e)) ((ino.setSector k lba).grow 24) e
      (k, 0) := by
  have hsame : ∀ p ≤ 140, ino.held d p ≠ 0 →
      SameSector d (splice d₀ (512 * lba) 512 (newBlock e)) (ino.held d p) := fun p hp h0 ↦
    (hdata _ (hw.owns.inData p hp h0)).trans (sameSector_splice (hnew p hp h0))
  have hkk : ((ino.setSector k lba).grow 24).blocks
      (splice d₀ (512 * lba) 512 (newBlock e)) k = lba := by
    rw [blocks_direct hw hdata hk hnew (by omega), if_pos rfl]
  have hblocks : ∀ m < 140, m ≠ k → ((ino.setSector k lba).grow 24).blocks
      (splice d₀ (512 * lba) 512 (newBlock e)) m = ino.blocks d m := by
    intro m hm hmk
    rw [blocks_direct hw hdata hk hnew hm, if_neg hmk]
  have hbk : ino.blocks d k = 0 := (Inode.blocks_of_lt hk).trans hb
  have hq : InSlots (splice d₀ (512 * lba) 512 (newBlock e)) ((ino.setSector k lba).grow 24)
      (k, 0) := ⟨by omega, by omega, ne_of_eq_of_ne hkk hlba0⟩
  refine addsSlot_of_blocks hw hq ?_ ?_ ?_ ?_ rfl ?_
  · rw [slotEntry, hkk]
    exact entry_newBlock_zero he
  · rintro ⟨⟨⟨-, -, h⟩, -⟩, -⟩
    exact h hbk
  · intro p _ h _
    have hpk : p.1 ≠ k := by
      intro hpk
      exact h.2.2 (hpk ▸ hbk)
    have hbp := hblocks p.1 h.1 hpk
    refine ⟨⟨h.1, h.2.1, hbp ▸ h.2.2⟩, ?_⟩
    rw [slotEntry, slotEntry, hbp]
    refine entryAt_congr ?_ h.2.1
    rw [← Inode.held_of_lt h.1]
    exact hsame p.1 h.1.le (by rw [Inode.held_of_lt h.1]; exact h.2.2)
  · intro p hp h hno
    by_cases hpk : p.1 = k
    · have hp2 : 0 < p.2 := Nat.pos_of_ne_zero fun h0 ↦ hp (Prod.ext hpk h0)
      rw [slotEntry, hpk, hkk]
      exact entry_newBlock_pos hp2 h.2.1
    · refine absurd ⟨⟨h.1, h.2.1, ?_⟩, fun hfull ↦ ?_⟩ hno
      · rw [← hblocks p.1 h.1 hpk]
        exact h.2.2
      · exact absurd hb (hfull k hk).1
  · intro p hp
    by_cases hp140 : p = 140
    · subst hp140
      have h12 : ((ino.setSector k lba).grow 24).iSectors 12 = ino.iSectors 12 :=
        Inode.setSector_of_ne ino (by omega) lba
      rw [Inode.held_table, h12, ← Inode.held_table (d := d)]
      exact hw.onDisk 140 hp
    · rw [Inode.held_of_lt (by omega)]
      by_cases hpk : p = k
      · rw [hpk, hkk]
        exact hlba
      · rw [hblocks p (by omega) hpk, ← Inode.held_of_lt (by omega)]
        exact hw.onDisk p hp

/-- The blocks with a new indirect table: those behind the old one are gone. -/
theorem blocks_table {d₀ : Image} {lba lba' m : ℕ} (hlba0 : lba ≠ 0) (hlba' : lba' ≤ maxLba)
    (hne : lba ≠ lba') (hm : m < 140) (g : Image) :
    ((ino.setSector 12 lba).grow 24).blocks (splice (splice d₀ (512 * lba) 512
      (ofWords fun k ↦ Function.update ino.direct 12 lba' (12 + k))) (512 * lba') 512 g) m =
      if m < 12 then ino.blocks d m else if m = 12 then lba' else 0 := by
  have h12 : ((ino.setSector 12 lba).grow 24).iSectors 12 = lba := Inode.setSector_self ino 12 lba
  split_ifs with hm12 hm12'
  · rw [Inode.blocks_of_lt hm12, Inode.blocks_of_lt hm12]
    exact Inode.setSector_of_ne ino (by omega) lba
  all_goals
    have hval : Function.update ino.direct 12 lba' (12 + (m - 12)) = if m = 12 then lba' else 0 := by
      rw [Nat.add_sub_cancel' (by omega)]
      by_cases h0 : m = 12
      · rw [if_pos h0, h0, Function.update_self]
      · rw [if_neg h0, Function.update_of_ne h0, Inode.direct, if_neg hm12]
    have hlt : Function.update ino.direct 12 lba' (12 + (m - 12)) < 2 ^ 32 := by
      have hmax : maxLba = 163839 := by decide
      rw [hval]
      split_ifs <;> omega
    rw [Inode.blocks_of_table (by omega) (h12 ▸ hlba0), h12, tableAt,
      (agree_splice (by omega : 512 * lba + 512 ≤ 512 * lba' ∨ _)).le32
        (le_add_of_nonneg_right (Nat.zero_le _)) (by omega),
      le32_splice_of_mem (by omega) (by omega), Nat.add_sub_cancel_left,
      le32_ofWords (w := fun k ↦ Function.update ino.direct 12 lba' (12 + k)) hlt, hval]
  · rw [if_pos hm12']
  · rw [if_neg hm12']

/-- A new indirect table. -/
theorem addsSlot_table {d₀ : Image} {lba lba' : ℕ} (he : e.Fits) (hw : DirBlocks E d bm ino)
    (hdata : ∀ l, E.part.sb.dataStartLba ≤ l → SameSector d d₀ l) (hfull : DirectFull d ino)
    (hlba0 : lba ≠ 0) (hlba0' : lba' ≠ 0) (hlba : lba ≤ maxLba) (hlba' : lba' ≤ maxLba)
    (hne : lba ≠ lba') (hnew : ∀ p ≤ 140, ino.held d p ≠ 0 → ino.held d p ≠ lba)
    (hnew' : ∀ p ≤ 140, ino.held d p ≠ 0 → ino.held d p ≠ lba') :
    AddsSlot d ino
      (splice (splice d₀ (512 * lba) 512
          (ofWords fun k ↦ Function.update ino.direct 12 lba' (12 + k)))
        (512 * lba') 512 (newBlock e))
      ((ino.setSector 12 lba).grow 24) e (12, 0) := by
  set d' := splice (splice d₀ (512 * lba) 512
    (ofWords fun k ↦ Function.update ino.direct 12 lba' (12 + k))) (512 * lba') 512 (newBlock e)
    with hd'
  have hsame : ∀ p ≤ 140, ino.held d p ≠ 0 → SameSector d d' (ino.held d p) := fun p hp h0 ↦
    ((hdata _ (hw.owns.inData p hp h0)).trans (sameSector_splice (hnew p hp h0))).trans
      (sameSector_splice (hnew' p hp h0))
  have h12 : ((ino.setSector 12 lba).grow 24).iSectors 12 = lba := Inode.setSector_self ino 12 lba
  have hdir : ∀ m < 12, ((ino.setSector 12 lba).grow 24).blocks d' m = ino.blocks d m := by
    intro m hm
    rw [blocks_table (d := d) hlba0 hlba' hne (by omega), if_pos hm]
  have hind : ∀ m, 12 ≤ m → m < 140 → ((ino.setSector 12 lba).grow 24).blocks d' m
      = if m = 12 then lba' else 0 := by
    intro m h1 h2
    rw [blocks_table (d := d) hlba0 hlba' hne h2, if_neg (by omega)]
  have hq : ((ino.setSector 12 lba).grow 24).blocks d' 12 = lba' := by
    rw [hind 12 (by decide) (by decide), if_pos rfl]
  refine addsSlot_of_blocks hw ⟨by decide, by decide, ne_of_eq_of_ne hq hlba0'⟩ ?_ ?_ ?_ ?_ rfl ?_
  · rw [slotEntry, hq]
    exact entry_newBlock_zero he
  · rintro ⟨-, hk⟩
    exact absurd (hk hfull) (by decide)
  · intro p _ h hk
    have hp12 := hk hfull
    have hbp := hdir p.1 hp12
    refine ⟨⟨h.1, h.2.1, hbp ▸ h.2.2⟩, ?_⟩
    rw [slotEntry, slotEntry, hbp]
    refine entryAt_congr ?_ h.2.1
    rw [← Inode.held_of_lt h.1]
    exact hsame p.1 h.1.le (by rw [Inode.held_of_lt h.1]; exact h.2.2)
  · intro p hp h hno
    by_cases hp12 : p.1 < 12
    · refine absurd ⟨⟨h.1, h.2.1, ?_⟩, fun _ ↦ hp12⟩ hno
      rw [← hdir p.1 hp12]
      exact h.2.2
    · have hpk : p.1 = 12 := by
        by_contra hne12
        refine h.2.2 ?_
        rw [hind p.1 (by omega) h.1, if_neg hne12]
      have hp2 : 0 < p.2 := Nat.pos_of_ne_zero fun h0 ↦ hp (Prod.ext hpk h0)
      rw [slotEntry, hpk, hq]
      exact entry_newBlock_pos hp2 h.2.1
  · intro p hp
    by_cases hp140 : p = 140
    · subst hp140
      rw [Inode.held_table, h12]
      exact hlba
    · rw [Inode.held_of_lt (by omega)]
      by_cases hp12 : p < 12
      · rw [hdir p hp12, ← Inode.held_of_lt (by omega)]
        exact hw.onDisk p hp
      · rw [hind p (by omega) (by omega)]
        split_ifs
        · exact hlba'
        · exact Nat.zero_le _

end Effect

/-- A successful insertion adds the slot it fills. -/
theorem Placed.addsSlot {q : ℕ × ℕ} (hm : s.Mounted E) (he : e.Fits)
    (hw : DirBlocks E s.disk s.blockBitmap (s.inode a)) (h : Placed E s a e q s') :
    AddsSlot s.disk (s.inode a) s'.disk (s'.inode a) e q := by
  have hstart : 0 < E.part.sb.dataStartLba := by
    have := hm.part.dataStartLba_eq
    omega
  cases h with
  | @reuse k j hk hj hb hfree =>
    rw [Fs.reusedSlot, Fs.setInode_inode, Function.update_self]
    exact addsSlot_reuse he hw hk hj hb hfree
  | @direct k i hk hb hi hlba =>
    obtain ⟨hlen, hfree, -⟩ := Bitmap.scan_one_eq_some.mp hi
    rw [Fs.addedDirect, Fs.setInode_inode, Function.update_self]
    exact addsSlot_direct he hw (fun l hl ↦ sameSector_takeBlock hm hlen hl) hk hb (by omega) hlba
      fun p hp h0 ↦ hw.owns.ne_free hp h0 hfree
  | @table i i' hfull hi hi' hlba hlba' =>
    obtain ⟨hlen, hfree, -⟩ := Bitmap.scan_one_eq_some.mp hi
    obtain ⟨hlen', hfree', -⟩ := Bitmap.scan_one_eq_some.mp hi'
    rw [Bitmap.bit_set] at hfree'
    have hne : i' ≠ i := by
      rintro rfl
      rw [if_pos rfl] at hfree'
      cases hfree'
    rw [if_neg hne] at hfree'
    have hm' : (s.takeBlock E i).Mounted E := ⟨hm.part, hm.blockLen, hm.inodeLen⟩
    rw [Fs.addedTable, Fs.setInode_inode, Function.update_self]
    exact addsSlot_table he hw (fun l hl ↦ (sameSector_takeBlock hm hlen hl).trans
      (sameSector_takeBlock hm' hlen' hl)) hfull (by omega) (by omega) hlba hlba' (by omega)
      (fun p hp h0 ↦ hw.owns.ne_free hp h0 hfree) fun p hp h0 ↦ hw.owns.ne_free hp h0 hfree'

/-- A successful insertion adds one slot. -/
theorem SyncOutcome.addsSlot (hm : s.Mounted E) (he : e.Fits)
    (hw : WellFormedDir E s.disk s.blockBitmap (s.inode a)) (h : SyncOutcome E s a e true s') :
    ∃ q, AddsSlot s.disk (s.inode a) s'.disk (s'.inode a) e q := by
  obtain ⟨q, hplaced⟩ := h.placed
  exact ⟨q, hplaced.addsSlot hm he hw.dirBlocks⟩

/-! ## The law of insertion -/

/-- What is expected of a successful insertion. -/
structure Inserted (E : Env) (dir : Dir) (s : Fs) (e : DirEntry) (s' : Fs) : Prop where
  kept : ∀ p, LiveSlot s.disk (s.inode dir.inode) p → ∃ p',
    LiveSlot s'.disk (s'.inode dir.inode) p' ∧
      slotEntry s'.disk (s'.inode dir.inode) p' = slotEntry s.disk (s.inode dir.inode) p
  added : ∃! p, LiveSlot s'.disk (s'.inode dir.inode) p ∧
    slotEntry s'.disk (s'.inode dir.inode) p = e
  found : ∀ p, LiveSlot s'.disk (s'.inode dir.inode) p → ∃ t,
    Returns (searchDirEntry E dir (slotEntry s'.disk (s'.inode dir.inode) p).name) s'
      (some (slotEntry s'.disk (s'.inode dir.inode) p)) t
  size : (s'.inode dir.inode).iSize
    = E.part.sb.dirEntrySize * (liveSlots s'.disk (s'.inode dir.inode)).card

/-- A new entry for a directory: in use, with a name that is not taken. -/
structure NewEntry (d : Image) (ino : Inode) (e : DirEntry) : Prop where
  fits : e.Fits
  inUse : e.fType ≠ .unknown
  named : e.name ≠ []
  absent : ∀ p, LiveSlot d ino p → (slotEntry d ino p).name ≠ e.name

section Law

variable {d d' : Image} {bm : Bitmap} {ino ino' : Inode} {q : ℕ × ℕ}

theorem AddsSlot.live_new (h : AddsSlot d ino d' ino' e q) (hn : NewEntry d ino e) :
    LiveSlot d' ino' q := ⟨h.inSlots, by rw [h.entry]; exact hn.inUse⟩

/-- The slot with the entry of a live slot that is kept. -/
theorem AddsSlot.live_old (h : AddsSlot d ino d' ino' e q) {p : ℕ × ℕ} (hl : LiveSlot d ino p)
    (hk : Kept d ino p) : p ≠ q ∧ LiveSlot d' ino' p ∧ slotEntry d' ino' p = slotEntry d ino p := by
  have hpq : p ≠ q := by
    rintro rfl
    exact h.fresh ⟨hl, hk⟩
  have hl' := (h.live_iff p hpq).mpr ⟨hl, hk⟩
  exact ⟨hpq, hl', h.same p hpq hl'⟩

/-- The live slots carry different names, none of them empty. -/
theorem AddsSlot.name_inj (h : AddsSlot d ino d' ino' e q) (hw : WellFormedDir E d bm ino)
    (hn : NewEntry d ino e) {p p' : ℕ × ℕ} (hp : LiveSlot d' ino' p) (hp' : LiveSlot d' ino' p')
    (hname : (slotEntry d' ino' p).name = (slotEntry d' ino' p').name) : p = p' := by
  by_cases hq : p = q
  · by_cases hq' : p' = q
    · rw [hq, hq']
    · have hl := ((h.live_iff p' hq').mp hp').1
      rw [hq, h.entry, h.same p' hq' hp'] at hname
      exact absurd hname.symm (hn.absent p' hl)
  · have hl := ((h.live_iff p hq).mp hp).1
    by_cases hq' : p' = q
    · rw [hq', h.entry, h.same p hq hp] at hname
      exact absurd hname (hn.absent p hl)
    · have hl' := ((h.live_iff p' hq').mp hp').1
      rw [h.same p hq hp, h.same p' hq' hp'] at hname
      exact hw.inj p p' hl hl' hname

theorem AddsSlot.named (h : AddsSlot d ino d' ino' e q) (hw : WellFormedDir E d bm ino)
    (hn : NewEntry d ino e) {p : ℕ × ℕ} (hp : LiveSlot d' ino' p) :
    (slotEntry d' ino' p).name ≠ [] := by
  by_cases hq : p = q
  · rw [hq, h.entry]
    exact hn.named
  · rw [h.same p hq hp]
    exact hw.named p ((h.live_iff p hq).mp hp).1

/-- A slot that compares equal with the name of a live slot, if it is terminated, is this slot. -/
theorem AddsSlot.eq_of_strEq (h : AddsSlot d ino d' ino' e q) (hw : WellFormedDir E d bm ino)
    (hn : NewEntry d ino e) {p p' : ℕ × ℕ} (hp : LiveSlot d' ino' p) (hin : InSlots d' ino' p')
    (ht : (slotEntry d' ino' p').Terminated)
    (hs : strEq d' (512 * ino'.blocks d' p'.1 + 24 * p'.2) (slotEntry d' ino' p).name = true) :
    p' = p := by
  have hname := (DirEntry.strEq_iff_name ht (DirEntry.zero_notMem_name _)).mp hs
  by_cases hl : LiveSlot d' ino' p'
  · exact h.name_inj hw hn hl hp hname
  · have hq : p' ≠ q := by
      rintro rfl
      exact hl (h.live_new hn)
    exact absurd ((h.dead p' hq hin hl).symm.trans hname).symm (h.named hw hn hp)

/-- A slot other than the new one is terminated, or empty. -/
theorem AddsSlot.terminated (h : AddsSlot d ino d' ino' e q) (hw : WellFormedDir E d bm ino)
    {p : ℕ × ℕ} (hpq : p ≠ q) (hin : InSlots d' ino' p) : (slotEntry d' ino' p).Terminated := by
  by_cases hl : LiveSlot d' ino' p
  · rw [h.same p hpq hl]
    exact hw.terminated p ((h.live_iff p hpq).mp hl).1
  · have hnil := congrArg List.length (h.dead p hpq hin hl)
    rw [DirEntry.length_name] at hnil
    exact Or.inl (by rw [hnil]; decide)

end Law

/-- An entry behind the old table would have to be somewhere. -/
theorem AddsSlot.not_inserted_of_lost {dir : Dir} {q : ℕ × ℕ}
    (hadd : AddsSlot s.disk (s.inode dir.inode) s'.disk (s'.inode dir.inode) e q)
    (hw : WellFormedDir E s.disk s.blockBitmap (s.inode dir.inode))
    (hn : NewEntry s.disk (s.inode dir.inode) e)
    (hlost : DirectFull s.disk (s.inode dir.inode) ∧
      ∃ p, LiveSlot s.disk (s.inode dir.inode) p ∧ 12 ≤ p.1) : ¬Inserted E dir s e s' := by
  intro hins
  obtain ⟨hfull, p, hp, hp12⟩ := hlost
  obtain ⟨p', hp', heq⟩ := hins.kept p hp
  by_cases hq : p' = q
  · rw [hq, hadd.entry] at heq
    exact hn.absent p hp (congrArg DirEntry.name heq.symm)
  · obtain ⟨hl, hk⟩ := (hadd.live_iff p' hq).mp hp'
    rw [hadd.same p' hq hp'] at heq
    obtain rfl := hw.inj p' p hl hp (congrArg DirEntry.name heq)
    have := hk hfull
    omega

/-- The search finds the new entry only if its name compares equal in its slot. -/
theorem AddsSlot.terminated_of_inserted {dir : Dir} {q : ℕ × ℕ} (hm : s.Mounted E)
    (hadd : AddsSlot s.disk (s.inode dir.inode) s'.disk (s'.inode dir.inode) e q)
    (hw : WellFormedDir E s.disk s.blockBitmap (s.inode dir.inode))
    (hn : NewEntry s.disk (s.inode dir.inode) e) (hins : Inserted E dir s e s') :
    e.Terminated := by
  by_contra ht
  have hqlive := hadd.live_new hn
  obtain ⟨t, hsearch⟩ := hins.found q hqlive
  rcases searchDirEntry_sound hm.part hsearch with ⟨-, h, -⟩ | ⟨-, -, -, -, -, h, -⟩
  · cases h
  · obtain ⟨k, j, hk, hmatch, -⟩ := exists_match_of_lookup h.symm
    obtain ⟨hin, hs⟩ := (match_iff hk).mp hmatch
    have hnot : ¬(slotEntry s'.disk (s'.inode dir.inode) q).Terminated := by
      rwa [hadd.entry]
    by_cases hq : (k, j) = q
    · subst hq
      have hlen : (slotEntry s'.disk (s'.inode dir.inode) (k, j)).name.length ≤ 16 :=
        (DirEntry.length_name _).trans_le (DirEntry.nameLen_le _)
      have hno := DirEntry.strEq_of_not_terminated hnot hlen
      exact absurd hs (by rw [hno]; decide)
    · exact hq (hadd.eq_of_strEq hw hn hqlive hin (hadd.terminated hw hq hin) hs)

/-- An insertion leaves the heap alone. -/
theorem SyncOutcome.heap_eq {r : Bool} (h : SyncOutcome E s a e r s') : s'.heap = s.heap := by
  cases h <;> rfl

theorem SyncOutcome.supplied (h : SyncOutcome E s a e true s') (hs : s.SearchSupplied E) :
    s'.SearchSupplied E := by
  cases h <;> exact hs

/-- **The law of insertion.** A successful insertion keeps every entry, adds the new one once, makes
all of them searchable and counts them, exactly if no live entry lies behind an indirect table that
is replaced, and the name of the new entry is terminated. -/
theorem inserted_iff {dir : Dir} {ioBuf : ℕ} (hm : s.Mounted E)
    (hw : WellFormedDir E s.disk s.blockBitmap (s.inode dir.inode))
    (hn : NewEntry s.disk (s.inode dir.inode) e) (hheap : s.SearchSupplied E)
    (hret : Returns (syncDirEntry E dir e ioBuf) s true s') :
    Inserted E dir s e s' ↔
      ¬(DirectFull s.disk (s.inode dir.inode) ∧
          ∃ p, LiveSlot s.disk (s.inode dir.inode) p ∧ 12 ≤ p.1) ∧ e.Terminated := by
  obtain ⟨hlive, hout⟩ := syncDirEntry_outcome hm hret
  obtain ⟨q, hadd⟩ := hout.addsSlot hm hn.fits hw
  have hqlive := hadd.live_new hn
  constructor
  · exact fun hins ↦ ⟨fun hfull ↦ hadd.not_inserted_of_lost hw hn hfull hins,
      hadd.terminated_of_inserted hm hw hn hins⟩
  · rintro ⟨hcond, ht⟩
    have hkept : ∀ p, LiveSlot s.disk (s.inode dir.inode) p →
        Kept s.disk (s.inode dir.inode) p := by
      intro p hp hfull
      by_contra hge
      exact hcond ⟨hfull, p, hp, by omega⟩
    refine ⟨fun p hp ↦ ?_, ?_, fun p hp ↦ ?_, ?_⟩
    · obtain ⟨-, h1, h2⟩ := hadd.live_old hp (hkept p hp)
      exact ⟨p, h1, h2⟩
    · refine ⟨q, ⟨hqlive, hadd.entry⟩, fun p hp ↦ ?_⟩
      refine hadd.name_inj hw hn hp.1 hqlive ?_
      rw [hp.2, hadd.entry]
    · have hterm : ∀ p, InSlots s'.disk (s'.inode dir.inode) p →
          (slotEntry s'.disk (s'.inode dir.inode) p).Terminated := by
        intro p hin
        by_cases hq : p = q
        · rw [hq, hadd.entry]
          exact ht
        · exact hadd.terminated hw hq hin
      have hlook : lookup s'.disk (s'.inode dir.inode)
          (slotEntry s'.disk (s'.inode dir.inode) p).name
            = some (slotEntry s'.disk (s'.inode dir.inode) p) := by
        refine lookup_eq_some hp.1.1
          ((match_iff hp.1.1).mpr ⟨hp.1, DirEntry.strEq_name (hterm p hp.1)⟩) fun k' j' hk' hm' ↦ ?_
        obtain ⟨hin, hs⟩ := (match_iff hk').mp hm'
        have := hadd.eq_of_strEq hw hn hp hin (hterm _ hin) hs
        exact ⟨congrArg Prod.fst this, congrArg Prod.snd this⟩
      rw [← hlook]
      exact searchDirEntry_complete hm.part (hout.heap_eq ▸ hlive)
        (Inode.held_table ▸ hadd.onDisk 140 (le_refl _))
        (fun k hk ↦ Inode.held_of_lt hk ▸ hadd.onDisk k hk.le) (hout.supplied hheap)
    · have hset : liveSlots s'.disk (s'.inode dir.inode)
          = insert q (liveSlots s.disk (s.inode dir.inode)) := by
        ext p
        rw [Finset.mem_insert, mem_liveSlots, mem_liveSlots]
        by_cases hq : p = q
        · subst hq
          simp [hqlive]
        · rw [hadd.live_iff p hq]
          exact ⟨fun h ↦ Or.inr h.1, fun h ↦ ⟨h.resolve_left hq, hkept p (h.resolve_left hq)⟩⟩
      have hfresh : q ∉ liveSlots s.disk (s.inode dir.inode) :=
        mem_liveSlots.not.mpr fun h ↦ hadd.fresh ⟨h, hkept q h⟩
      rw [hset, Finset.card_insert_of_notMem hfresh, hadd.size, hw.size, hm.part.dirEntrySize_eq]
      exact (Nat.mul_succ 24 _).symm

/-! ## A directory with 253 entries -/

/-- Entry `j` of a block: the name consists of the bytes `k + 1` and `j + 1`. -/
def crowdedEntry (k j : ℕ) : DirEntry where
  filename i := if i = 0 then UInt8.ofNat (k + 1) else if i = 1 then UInt8.ofNat (j + 1) else 0
  iNo := 1
  fType := .regular

/-- Twelve full direct blocks, then the table, then a block with one entry. -/
def crowdedDisk : Image := fun i ↦
  if i / 512 = 687 then ofWords (fun k ↦ if k = 0 then 688 else 0) (i % 512)
  else if i / 512 < 675 ∨ 688 < i / 512 then 0
  else if i / 512 = 688 ∧ 24 ≤ i % 512 then 0
  else (crowdedEntry (i / 512 - 675) (i % 512 / 24)).encode (i % 512 % 24)

/-- The inode of this directory, in the block at `kHeapStart`. -/
def crowdedInode : Inode where
  iNo := 0
  iSize := 24 * 253
  iOpenCnts := 1
  writeDeny := false
  iSectors k := if k < 13 then 675 + k else 0

/-- A kernel thread with this directory open. -/
def Fs.crowded : Fs :=
  { Fs.blank with
    disk := crowdedDisk
    blockBitmap := ⟨512, fun i ↦ if i = 0 then 0xff else if i = 1 then 0x3f else 0⟩
    inodeBitmap := ⟨512, fun i ↦ if i = 0 then 1 else 0⟩
    inode := fun _ ↦ crowdedInode
    heap := fun i ↦ if i = kHeapStart then some Blk.inode else none
    tick := 1 }

theorem crowdedEntry_fits (k j : ℕ) : (crowdedEntry k j).Fits where
  filename i hi := by
    simp only [crowdedEntry]
    rw [if_neg (by omega), if_neg (by omega)]
  iNo := show 1 < 2 ^ 32 by decide
  fType := show 1 < 2 ^ 32 by decide
  other v h := by cases h

theorem crowdedEntry_name {k j : ℕ} (hk : k < 14) (hj : j < 21) :
    (crowdedEntry k j).name = [UInt8.ofNat (k + 1), UInt8.ofNat (j + 1)] := by
  have hne : ∀ n < 21, UInt8.ofNat (n + 1) ≠ 0 := by decide
  have hlen : (crowdedEntry k j).nameLen = 2 := by
    have hfirst : firstFrom (fun i ↦ (crowdedEntry k j).filename i == 0) 16 0 = some 2 := by
      refine firstFrom_eq_some.mpr ⟨by decide, by decide, rfl, fun i _ hi ↦ ?_⟩
      have hi2 : i = 0 ∨ i = 1 := by omega
      rcases hi2 with rfl | rfl
      · exact beq_false_of_ne (hne k (by omega))
      · exact beq_false_of_ne (hne j hj)
    rw [DirEntry.nameLen, hfirst, Option.getD_some]
  rw [DirEntry.name, hlen]
  rfl

theorem crowded_table {m : ℕ} (hm : m < 128) :
    tableAt crowdedDisk 687 m = if m = 0 then 688 else 0 := by
  have hlt : (if m = 0 then 688 else 0) < 2 ^ 32 := by split_ifs <;> omega
  refine Eq.trans (le32_congr fun i hi ↦ ?_) (le32_ofWords (w := fun k ↦ if k = 0 then 688 else 0) hlt)
  rw [crowdedDisk, if_pos (by omega)]
  congr 1
  omega

theorem crowded_blocks {k : ℕ} (hk : k < 140) :
    crowdedInode.blocks crowdedDisk k
      = if k < 12 then 675 + k else if k = 12 then 688 else 0 := by
  by_cases h12 : k < 12
  · rw [Inode.blocks_of_lt h12, if_pos h12]
    exact if_pos (by omega)
  · have htab : crowdedInode.iSectors 12 = 687 := rfl
    rw [Inode.blocks_of_table (by omega) (by rw [htab]; decide), htab, crowded_table (by omega),
      if_neg h12]
    exact if_congr (by omega) rfl rfl

theorem crowded_entry {k j : ℕ} (hk : k < 12 ∨ k = 13 ∧ j = 0) (hj : j < 21) :
    entryAt crowdedDisk (675 + k) j = crowdedEntry k j := by
  rw [entryAt, ← DirEntry.decode_encode (crowdedEntry_fits k j)]
  refine DirEntry.decode_congr fun i hi ↦ ?_
  have hdiv : (512 * (675 + k) + 24 * j + i) / 512 = 675 + k := by omega
  have hmod : (512 * (675 + k) + 24 * j + i) % 512 = 24 * j + i := by omega
  have hj' : (24 * j + i) / 24 = j := by omega
  have hi' : (24 * j + i) % 24 = i := by omega
  rw [crowdedDisk, hdiv, hmod, if_neg (by omega), if_neg (by omega), if_neg (by omega), hj', hi',
    Nat.add_sub_cancel_left, Nat.zero_add]

theorem crowded_entry_dead {j : ℕ} (h0 : 0 < j) (hj : j < 21) :
    entryAt crowdedDisk 688 j = DirEntry.decode (fun _ ↦ 0) 0 := by
  refine DirEntry.decode_congr fun i hi ↦ ?_
  have hdiv : (512 * 688 + 24 * j + i) / 512 = 688 := by omega
  have hmod : (512 * 688 + 24 * j + i) % 512 = 24 * j + i := by omega
  rw [crowdedDisk, hdiv, hmod, if_neg (by omega), if_neg (by omega), if_pos (by omega)]

theorem crowded_inSlots {p : ℕ × ℕ} :
    InSlots crowdedDisk crowdedInode p ↔ p.1 ≤ 12 ∧ p.2 < 21 := by
  constructor
  · rintro ⟨h1, h2, h3⟩
    rw [crowded_blocks h1] at h3
    refine ⟨?_, h2⟩
    by_contra h
    rw [if_neg (by omega), if_neg (by omega)] at h3
    exact h3 rfl
  · rintro ⟨h1, h2⟩
    refine ⟨by omega, h2, ?_⟩
    rw [crowded_blocks (by omega)]
    split_ifs <;> omega

/-- The slots in use, and their entries. -/
theorem crowded_live {p : ℕ × ℕ} :
    LiveSlot crowdedDisk crowdedInode p ↔ p.1 < 12 ∧ p.2 < 21 ∨ p.1 = 12 ∧ p.2 = 0 := by
  rw [LiveSlot, crowded_inSlots, slotEntry]
  by_cases h12 : p.1 < 12
  · rw [crowded_blocks (by omega), if_pos h12]
    constructor
    · rintro ⟨⟨-, h⟩, -⟩
      exact Or.inl ⟨h12, h⟩
    · rintro (⟨-, h⟩ | ⟨h, -⟩)
      · refine ⟨⟨by omega, h⟩, ?_⟩
        rw [crowded_entry (Or.inl h12) h]
        exact FileType.noConfusion
      · omega
  · by_cases hp : p.1 = 12
    · rw [crowded_blocks (by omega), if_neg h12, if_pos hp]
      constructor
      · rintro ⟨⟨-, h⟩, hty⟩
        by_cases h0 : p.2 = 0
        · exact Or.inr ⟨hp, h0⟩
        · rw [crowded_entry_dead (by omega) h] at hty
          exact absurd rfl hty
      · rintro (⟨h, -⟩ | ⟨-, h⟩)
        · omega
        · refine ⟨⟨by omega, by omega⟩, ?_⟩
          rw [show 688 = 675 + 13 from rfl, crowded_entry (Or.inr ⟨rfl, h⟩) (by omega)]
          exact FileType.noConfusion
    · constructor
      · rintro ⟨⟨h, -⟩, -⟩
        omega
      · rintro (⟨h, -⟩ | ⟨h, -⟩) <;> omega

theorem crowded_slotEntry {p : ℕ × ℕ} (h : LiveSlot crowdedDisk crowdedInode p) :
    slotEntry crowdedDisk crowdedInode p
      = crowdedEntry (if p.1 < 12 then p.1 else 13) p.2 := by
  rw [slotEntry, crowded_blocks h.1.1]
  rcases crowded_live.mp h with ⟨h1, h2⟩ | ⟨h1, h2⟩
  · rw [if_pos h1, if_pos h1, crowded_entry (Or.inl h1) h2]
  · rw [if_neg (by omega), if_pos h1, if_neg (by omega), show 688 = 675 + 13 from rfl,
      crowded_entry (Or.inr ⟨rfl, h2⟩) (by omega)]

theorem crowded_name {p : ℕ × ℕ} (h : LiveSlot crowdedDisk crowdedInode p) :
    (slotEntry crowdedDisk crowdedInode p).name
      = [UInt8.ofNat ((if p.1 < 12 then p.1 else 13) + 1), UInt8.ofNat (p.2 + 1)] := by
  rw [crowded_slotEntry h]
  refine crowdedEntry_name ?_ ?_
  · split_ifs <;> omega
  · exact h.1.2.1

theorem crowded_held {p : ℕ} (hp : p ≤ 140) :
    crowdedInode.held crowdedDisk p
      = if p < 12 then 675 + p else if p = 12 then 688 else if p = 140 then 687 else 0 := by
  by_cases h140 : p = 140
  · subst h140
    rfl
  · rw [Inode.held_of_lt (by omega), crowded_blocks (by omega), if_neg h140]

theorem crowded_wellFormed : WellFormedDir (Env.bump samplePartition) crowdedDisk
    Fs.crowded.blockBitmap crowdedInode where
  size := by
    have hset : liveSlots crowdedDisk crowdedInode
        = insert (12, 0) (Finset.range 12 ×ˢ Finset.range 21) := by
      ext ⟨k, j⟩
      rw [mem_liveSlots, crowded_live, Finset.mem_insert, Finset.mem_product, Finset.mem_range,
        Finset.mem_range, Prod.mk.injEq]
      exact or_comm
    have hnot : ((12, 0) : ℕ × ℕ) ∉ Finset.range 12 ×ˢ Finset.range 21 := by decide
    rw [hset, Finset.card_insert_of_notMem hnot, Finset.card_product, Finset.card_range,
      Finset.card_range]
    rfl
  owns :=
    { inData := by
        intro p hp h0
        have hstart : (Env.bump samplePartition).part.sb.dataStartLba = 675 := by decide
        rw [crowded_held hp] at h0 ⊢
        rw [hstart]
        split_ifs at h0 ⊢ <;> omega
      used := by
        intro p hp h0
        have hstart : (Env.bump samplePartition).part.sb.dataStartLba = 675 := by decide
        have hbits : ∀ i < 14, Fs.crowded.blockBitmap.bit i = true := by decide
        rw [crowded_held hp] at h0 ⊢
        rw [hstart]
        refine hbits _ ?_
        split_ifs at h0 ⊢ <;> omega
      inj := by
        intro p hp q hq h0 heq
        rw [crowded_held hp] at h0 heq
        rw [crowded_held hq] at heq
        split_ifs at h0 heq <;> omega }
  onDisk p hp := by
    have hmax : maxLba = 163839 := by decide
    rw [crowded_held hp, hmax]
    split_ifs <;> omega
  named p h := by
    rw [crowded_name h]
    exact List.cons_ne_nil _ _
  terminated p h := by
    have hlen := congrArg List.length (crowded_name h)
    rw [DirEntry.length_name] at hlen
    exact Or.inl (hlen.trans_lt (show 2 < 16 by decide))
  inj p q hp hq h := by
    rw [crowded_name hp, crowded_name hq, List.cons.injEq, List.cons.injEq] at h
    have hinj : ∀ m < 21, ∀ n < 21, UInt8.ofNat (m + 1) = UInt8.ofNat (n + 1) → m = n := by decide
    have h2 := hinj _ hp.1.2.1 _ hq.1.2.1 h.2.1
    have h1 := hinj _ (by split_ifs <;> omega) _ (by split_ifs <;> omega) h.1
    rcases crowded_live.mp hp with ⟨hp1, -⟩ | ⟨hp1, -⟩ <;>
      rcases crowded_live.mp hq with ⟨hq1, -⟩ | ⟨hq1, -⟩ <;>
      split_ifs at h1 <;> first | exact Prod.ext (by omega) h2 | omega
  dead p hin hnot := by
    obtain ⟨h1, h2⟩ := crowded_inSlots.mp hin
    rw [crowded_live] at hnot
    have hp : p.1 = 12 := by omega
    rw [slotEntry, crowded_blocks hin.1, if_neg (by omega), if_pos hp,
      crowded_entry_dead (by omega) h2]
    rfl

/-- The entry to be inserted. -/
def oneMore : DirEntry := ⟨fun i ↦ if i = 0 then 97 else 0, 2, .regular⟩

theorem crowded_mounted : Fs.crowded.Mounted (Env.bump samplePartition) :=
  ⟨samplePartition_formatted, by decide, by decide⟩

theorem oneMore_new : NewEntry crowdedDisk crowdedInode oneMore where
  fits := ⟨fun i hi ↦ if_neg (by omega), by decide, by decide, fun v h ↦ by cases h⟩
  inUse := by decide
  named := by decide
  absent p hp h := by
    have hlen := congrArg List.length h
    have hone : oneMore.name.length = 1 := by decide
    rw [crowded_name hp, hone] at hlen
    exact absurd hlen (show ¬2 = 1 by decide)

theorem crowded_supplied : Fs.crowded.SearchSupplied (Env.bump samplePartition) :=
  ⟨kHeapStart + 4096, kHeapStart + 8192, by decide, by decide⟩

theorem returns_oneMore : ∃ s', Returns (syncDirEntry (Env.bump samplePartition)
    ⟨kHeapStart, none⟩ oneMore 1024) Fs.crowded true s' :=
  exists_returns (by decide +kernel)

theorem inserted_iff_oneMore : ∃ s', Returns (syncDirEntry (Env.bump samplePartition)
    ⟨kHeapStart, none⟩ oneMore 1024) Fs.crowded true s' ∧
    (Inserted (Env.bump samplePartition) ⟨kHeapStart, none⟩ Fs.crowded oneMore s' ↔
      ¬(DirectFull crowdedDisk crowdedInode ∧ ∃ p, LiveSlot crowdedDisk crowdedInode p ∧
        12 ≤ p.1) ∧ oneMore.Terminated) := by
  obtain ⟨s', h⟩ := returns_oneMore
  exact ⟨s', h, inserted_iff crowded_mounted crowded_wellFormed oneMore_new crowded_supplied h⟩

/-- The 254th entry of a directory replaces the 253rd. -/
theorem oneMore_not_inserted :
    Fs.crowded.Mounted (Env.bump samplePartition) ∧
      WellFormedDir (Env.bump samplePartition) Fs.crowded.disk Fs.crowded.blockBitmap
        (Fs.crowded.inode kHeapStart) ∧
      NewEntry Fs.crowded.disk (Fs.crowded.inode kHeapStart) oneMore ∧
      Fs.crowded.SearchSupplied (Env.bump samplePartition) ∧
      ∃ s', Returns (syncDirEntry (Env.bump samplePartition) ⟨kHeapStart, none⟩ oneMore 1024)
          Fs.crowded true s' ∧
        ¬Inserted (Env.bump samplePartition) ⟨kHeapStart, none⟩ Fs.crowded oneMore s' := by
  refine ⟨crowded_mounted, crowded_wellFormed, oneMore_new, crowded_supplied, ?_⟩
  obtain ⟨s', h⟩ := returns_oneMore
  refine ⟨s', h, ?_⟩
  obtain ⟨-, hout⟩ := syncDirEntry_outcome crowded_mounted h
  obtain ⟨q, hadd⟩ := hout.addsSlot crowded_mounted oneMore_new.fits crowded_wellFormed
  refine hadd.not_inserted_of_lost crowded_wellFormed oneMore_new ⟨fun k hk ↦ ?_, (12, 0), ?_, ?_⟩
  · have hsec : crowdedInode.iSectors k = 675 + k := if_pos (by omega)
    refine ⟨ne_of_eq_of_ne hsec (by omega), fun j hj ↦ ?_⟩
    change (entryAt crowdedDisk (crowdedInode.iSectors k) j).fType ≠ _
    rw [hsec, crowded_entry (Or.inl hk) hj]
    exact FileType.noConfusion
  · exact crowded_live.mpr (Or.inr ⟨rfl, rfl⟩)
  · decide

end GlowOS
