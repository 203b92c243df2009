import Mathlib
import GlowOS.Fs.Content

/-!
# Writing a file

`file_write` and `file_read` on a file whose contents are known. The results are about total
correctness: given enough free blocks and heap, the call returns, and with the right bytes.

A write works as long as it does not grow the file in one of two ways: into the indirect table
before all twelve direct blocks are in use, or by further blocks once there is a table. The buffer
for the inode has one sector, so the slot of the inode may not cross a sector either.
-/

namespace GlowOS

open Bytes Program Scan

variable {E : Env} {s s' : Fs} {f a u : ℕ} {content : Image}

/-! ## Free blocks -/

/-- The bits of the free blocks that lie on the disk. -/
def freeBlocks (E : Env) (bm : Bitmap) : Finset ℕ :=
  (Finset.range (8 * bm.btmpBytesLen)).filter fun i ↦
    bm.bit i = false ∧ E.part.sb.dataStartLba + i ≤ maxLba

theorem mem_freeBlocks {bm : Bitmap} {i : ℕ} :
    i ∈ freeBlocks E bm ↔
      i < 8 * bm.btmpBytesLen ∧ bm.bit i = false ∧ E.part.sb.dataStartLba + i ≤ maxLba := by
  rw [freeBlocks, Finset.mem_filter, Finset.mem_range]

/-- There is one free block less when one is allocated. -/
theorem card_freeBlocks_set {bm : Bitmap} {i : ℕ} (hi : i ∈ freeBlocks E bm) :
    (freeBlocks E (bm.set i true)).card + 1 = (freeBlocks E bm).card := by
  have herase : freeBlocks E (bm.set i true) = (freeBlocks E bm).erase i := by
    ext m
    rw [Finset.mem_erase, mem_freeBlocks, mem_freeBlocks, Bitmap.bit_set,
      Bitmap.set_btmpBytesLen]
    by_cases hm : m = i
    · simp [hm]
    · simp [hm]
  rw [herase]
  exact Finset.card_erase_add_one hi

/-- The scan finds a free block of the disk, and there is one less afterwards. -/
theorem exists_scan {bm : Bitmap} (h : 0 < (freeBlocks E bm).card) :
    ∃ i, bm.scan 1 = some i ∧ i ∈ freeBlocks E bm ∧
      (freeBlocks E bm).card ≤ (freeBlocks E (bm.set i true)).card + 1 := by
  obtain ⟨j, hj⟩ := Finset.card_pos.mp h
  obtain ⟨hj1, hj2, hj3⟩ := mem_freeBlocks.mp hj
  cases hscan : bm.scan 1 with
  | none =>
    rw [Bitmap.scan_one_eq_none.mp hscan j hj1] at hj2
    cases hj2
  | some i =>
    obtain ⟨hi1, hi2, hi3⟩ := Bitmap.scan_one_eq_some.mp hscan
    have hij : i ≤ j := by
      by_contra hlt
      rw [hi3 j (by omega)] at hj2
      cases hj2
    have hi : i ∈ freeBlocks E bm := mem_freeBlocks.mpr ⟨hi1, hi2, by omega⟩
    exact ⟨i, rfl, hi, (card_freeBlocks_set hi).ge⟩

/-! ## A file that is ready -/

/-- The open file `f` has the inode at `a`, which holds `content` in `u` blocks. -/
structure FileIntact (E : Env) (f a : ℕ) (s : Fs) (u : ℕ) (content : Image) : Prop where
  mounted : s.Mounted E
  rootBlock : s.blockBitmap.bit 0 = true
  fd : (s.fileTable f).fdInode = some a
  live : s.heap a = some Blk.inode
  holds : FileHolds E s.disk s.blockBitmap (s.inode a) u content

/-- The slot of the inode can be written with a buffer of one sector, too. -/
structure FileReady (E : Env) (f a : ℕ) (s : Fs) (u : ℕ) (content : Image) : Prop
    extends FileIntact E f a s u content where
  slot : SlotAccess E ((s.inode a).iNo % 2 ^ 8) 512

/-- The heap and the tasks are the same. -/
structure Fs.SameHeap (s s' : Fs) : Prop where
  heap : s'.heap = s.heap
  stale : s'.stale = s.stale
  tick : s'.tick = s.tick
  tasks : s'.tasks = s.tasks
  running : s'.running = s.running

theorem Fs.SameHeap.refl (s : Fs) : s.SameHeap s := ⟨rfl, rfl, rfl, rfl, rfl⟩

theorem Fs.SameHeap.trans {s₁ s₂ s₃ : Fs} (h : s₁.SameHeap s₂) (h' : s₂.SameHeap s₃) :
    s₁.SameHeap s₃ :=
  ⟨h'.heap.trans h.heap, h'.stale.trans h.stale, h'.tick.trans h.tick, h'.tasks.trans h.tasks,
    h'.running.trans h.running⟩

theorem FileIntact.dataStart_pos (h : FileIntact E f a s u content) :
    0 < E.part.sb.dataStartLba := by
  have := h.mounted.part.dataStartLba_eq
  omega

/-- The bitmap is written to the disk. -/
theorem returns_sync_of_mounted (hm : s.Mounted E) {i : ℕ}
    (hi : i < 8 * s.blockBitmap.btmpBytesLen) :
    Returns (bitmapSync E i .blockBitmap) s PUnit.unit (s.syncedBitmap E i .blockBitmap) := by
  have h1 := hm.bitmapSector_lt hi
  have h2 := hm.part.dataStartLba_le_maxLba
  have h3 := hm.blockLen
  refine returns_bitmapSync.mpr ⟨by omega, ?_, rfl⟩
  change 512 ≤ s.blockBitmap.btmpBytesLen - i / 4096 * 512
  omega

/-- Allocating a block and writing the bitmap. -/
theorem returns_alloc_of_free (hm : s.Mounted E) {i : ℕ} (hi : s.blockBitmap.scan 1 = some i) :
    Returns (blockBitmapAlloc E) s (some (E.part.sb.dataStartLba + i))
        (s.setBitmap (s.blockBitmap.set i true) .blockBitmap) ∧
      blockBitmapIdx E (E.part.sb.dataStartLba + i) = i ∧
      Returns (bitmapSync E i .blockBitmap)
        (s.setBitmap (s.blockBitmap.set i true) .blockBitmap) PUnit.unit (s.takeBlock E i) := by
  have hlen := (Bitmap.scan_one_eq_some.mp hi).1
  have hm' : (s.setBitmap (s.blockBitmap.set i true) .blockBitmap).Mounted E :=
    ⟨hm.part, hm.blockLen, hm.inodeLen⟩
  exact ⟨returns_blockBitmapAlloc.mpr (Or.inr ⟨i, hi, rfl, rfl⟩), blockBitmapIdx_add (hm.bit_lt hlen),
    returns_sync_of_mounted hm' hlen⟩

/-! ## Allocating -/

/-- The loops that allocate blocks without a place for them in the inode. -/
theorem allocBlocks_behind {place : ℕ → ℕ → FsM PUnit} {left k : ℕ} {all : ℕ → ℕ}
    (hm : s.Mounted E) (hplace : ∀ m lba, k ≤ m → place m lba = pure PUnit.unit)
    (hfree : left ≤ (freeBlocks E s.blockBitmap).card) :
    ∃ (idx : ℕ → ℕ) (s' : Fs), Returns (allocBlocks E place left k all) s
        (some fun m ↦ if k ≤ m ∧ m < k + left then E.part.sb.dataStartLba + idx m else all m) s' ∧
      s' = { s with disk := s'.disk, blockBitmap := s'.blockBitmap } ∧ s'.Mounted E ∧
      (∀ l, E.part.sb.dataStartLba ≤ l → SameSector s.disk s'.disk l) ∧
      (∀ m, k ≤ m → m < k + left → idx m ∈ freeBlocks E s.blockBitmap) ∧
      (∀ m m', k ≤ m → m < k + left → k ≤ m' → m' < k + left → idx m = idx m' → m = m') ∧
      ∀ j, s'.blockBitmap.bit j = true ↔
        s.blockBitmap.bit j = true ∨ ∃ m, k ≤ m ∧ m < k + left ∧ idx m = j := by
  induction left generalizing s k all with
  | zero =>
    refine ⟨fun _ ↦ 0, s, returns_pure.mpr ⟨?_, rfl⟩, rfl, hm, fun _ _ ↦ Agree.refl _ _ _, ?_, ?_, ?_⟩
    · congr 1
      funext m
      rw [if_neg (by omega)]
    · intro m h1 h2
      omega
    · intro m m' h1 h2
      omega
    · intro j
      constructor
      · exact Or.inl
      · rintro (h | ⟨m, h1, h2, -⟩)
        · exact h
        · omega
  | succ left ih =>
    obtain ⟨i, hi, hmem, hleft⟩ := exists_scan (by omega : 0 < (freeBlocks E s.blockBitmap).card)
    obtain ⟨hlen, hbit, -⟩ := mem_freeBlocks.mp hmem
    obtain ⟨hret, hidx, hsync⟩ := returns_alloc_of_free hm hi
    have hm' : (s.takeBlock E i).Mounted E := ⟨hm.part, hm.blockLen, hm.inodeLen⟩
    obtain ⟨idx, s', h1, h2, h3, h4, h5, h6, h7⟩ := @ih (s.takeBlock E i) (k + 1)
      (Function.update all k (E.part.sb.dataStartLba + i)) hm'
      (fun m lba hmk ↦ hplace m lba (by omega))
      (by change left ≤ (freeBlocks E (s.blockBitmap.set i true)).card; omega)
    have hmem' : ∀ m, k + 1 ≤ m → m < k + 1 + left →
        idx m ∈ freeBlocks E s.blockBitmap ∧ idx m ≠ i := by
      intro m hm1 hm2
      obtain ⟨hi1, hi2, hi3⟩ := mem_freeBlocks.mp (h5 m hm1 hm2)
      change (s.blockBitmap.set i true).bit (idx m) = false at hi2
      rw [Bitmap.bit_set] at hi2
      have hne : idx m ≠ i := by
        intro heq
        rw [if_pos heq] at hi2
        cases hi2
      rw [if_neg hne] at hi2
      exact ⟨mem_freeBlocks.mpr ⟨hi1, hi2, hi3⟩, hne⟩
    refine ⟨Function.update idx k i, s', ?_, ?_, h3, ?_, ?_, ?_, ?_⟩
    · refine returns_bind.mpr ⟨_, _, hret, ?_⟩
      dsimp only
      rw [hplace k _ (le_refl k), hidx, returns_pure_bind]
      refine returns_bind.mpr ⟨_, _, hsync, ?_⟩
      convert h1 using 2
      funext m
      by_cases hmk : m = k
      · rw [hmk, if_pos (by omega), if_neg (by omega), Function.update_self, Function.update_self]
      · rw [Function.update_of_ne hmk, Function.update_of_ne hmk]
        exact if_congr (by omega) rfl rfl
    · rw [h2]
      rfl
    · intro l hl
      exact (sameSector_takeBlock hm hlen hl).trans (h4 l hl)
    · intro m hm1 hm2
      by_cases hmk : m = k
      · rw [hmk, Function.update_self]
        exact hmem
      · rw [Function.update_of_ne hmk]
        exact (hmem' m (by omega) (by omega)).1
    · intro m m' hm1 hm2 hm1' hm2' heq
      by_cases hmk : m = k
      · by_cases hmk' : m' = k
        · rw [hmk, hmk']
        · rw [hmk, Function.update_self, Function.update_of_ne hmk'] at heq
          exact absurd heq.symm (hmem' m' (by omega) (by omega)).2
      · rw [Function.update_of_ne hmk] at heq
        by_cases hmk' : m' = k
        · rw [hmk', Function.update_self] at heq
          exact absurd heq (hmem' m (by omega) (by omega)).2
        · rw [Function.update_of_ne hmk'] at heq
          exact h6 m m' (by omega) (by omega) (by omega) (by omega) heq
    · intro j
      rw [h7 j]
      change (s.blockBitmap.set i true).bit j = true ∨ _ ↔ _
      rw [Bitmap.bit_set]
      constructor
      · rintro (h | ⟨m, hm1, hm2, rfl⟩)
        · by_cases hj : j = i
          · exact Or.inr ⟨k, le_refl k, by omega, by rw [Function.update_self, hj]⟩
          · rw [if_neg hj] at h
            exact Or.inl h
        · exact Or.inr ⟨m, by omega, by omega, by rw [Function.update_of_ne (by omega)]⟩
      · rintro (h | ⟨m, hm1, hm2, rfl⟩)
        · refine Or.inl ?_
          split_ifs
          · rfl
          · exact h
        · by_cases hmk : m = k
          · rw [hmk, Function.update_self, if_pos rfl]
            exact Or.inl rfl
          · rw [Function.update_of_ne hmk]
            exact Or.inr ⟨m, by omega, by omega, rfl⟩

/-- Block `u`, a direct one, is allocated and recorded. -/
theorem FileIntact.addDirect {i : ℕ} (h : FileIntact E f a s u content) (hu : u < 12)
    (hi : i ∈ freeBlocks E s.blockBitmap) :
    FileIntact E f a ((s.takeBlock E i).setInode a
      ((s.inode a).setSector u (E.part.sb.dataStartLba + i))) (u + 1) content := by
  obtain ⟨hlen, hbit, hlba⟩ := mem_freeBlocks.mp hi
  refine ⟨⟨h.mounted.part, h.mounted.blockLen, h.mounted.inodeLen⟩, ?_, h.fd, h.live, ?_⟩
  · change (s.blockBitmap.set i true).bit 0 = true
    rw [Bitmap.bit_set]
    split_ifs
    · rfl
    · exact h.rootBlock
  · rw [Fs.setInode_inode, Function.update_self]
    exact h.holds.addDirect hu h.dataStart_pos hlba hbit fun l hl ↦
      sameSector_takeBlock h.mounted hlen hl

theorem FileIntact.iSectors_zero_iff (h : FileIntact E f a s u content) :
    (s.inode a).iSectors 0 = 0 ↔ u = 0 := by
  have hb := h.holds.blocks 0 (by decide)
  rw [Inode.blocks_of_lt (by decide)] at hb
  omega

/-- The first block of the file. -/
theorem FileIntact.returns_allocFirst (h : FileIntact E f a s u content)
    (hfree : u = 0 → 1 ≤ (freeBlocks E s.blockBitmap).card) :
    ∃ s', Returns (allocFirst E a) s true s' ∧ FileIntact E f a s' (max u 1) content ∧
      s.SameHeap s' ∧ (s'.inode a).iSize = (s.inode a).iSize ∧
      (s'.inode a).iNo = (s.inode a).iNo ∧
      (freeBlocks E s'.blockBitmap).card + (if u = 0 then 1 else 0)
        = (freeBlocks E s.blockBitmap).card := by
  by_cases hu : u = 0
  · subst hu
    obtain ⟨i, hi, hmem, -⟩ := exists_scan (hfree rfl)
    obtain ⟨hret, hidx, hsync⟩ := returns_alloc_of_free h.mounted hi
    have hi0 : i ≠ 0 := by
      rintro rfl
      have hroot := h.rootBlock
      rw [(mem_freeBlocks.mp hmem).2.1] at hroot
      cases hroot
    refine ⟨(s.takeBlock E i).setInode a ((s.inode a).setSector 0 (E.part.sb.dataStartLba + i)), ?_,
      h.addDirect (by omega) hmem, ⟨rfl, rfl, rfl, rfl, rfl⟩, ?_, ?_, ?_⟩
    · refine returns_bind.mpr ⟨_, _, returns_inodeAt.mpr ⟨h.live, rfl, rfl⟩, ?_⟩
      rw [if_pos (h.iSectors_zero_iff.mpr rfl)]
      refine returns_bind.mpr ⟨_, _, hret, ?_⟩
      refine returns_bind.mpr ⟨PUnit.unit, _, returns_setInodeAt.mpr ⟨h.live, rfl⟩, ?_⟩
      rw [returns_check_bind, hidx]
      obtain ⟨h1, h2, -⟩ := returns_bitmapSync.mp hsync
      exact ⟨hi0, returns_bind.mpr ⟨PUnit.unit, _, returns_bitmapSync.mpr ⟨h1, h2, rfl⟩,
        returns_pure.mpr ⟨rfl, rfl⟩⟩⟩
    · rw [Fs.setInode_inode, Function.update_self]
      rfl
    · rw [Fs.setInode_inode, Function.update_self]
      rfl
    · rw [if_pos rfl]
      exact card_freeBlocks_set hmem
  · refine ⟨s, ?_, by rwa [max_eq_left (by omega)], Fs.SameHeap.refl s, rfl, rfl,
      by rw [if_neg hu, Nat.add_zero]⟩
    refine returns_bind.mpr ⟨_, _, returns_inodeAt.mpr ⟨h.live, rfl, rfl⟩, ?_⟩
    rw [if_neg (h.iSectors_zero_iff.not.mpr hu)]
    exact returns_pure.mpr ⟨rfl, rfl⟩

/-- A new direct block is recorded in the inode. -/
theorem FileIntact.returns_placeDirect {i : ℕ} (h : FileIntact E f a s u content) (hu : u < 12) :
    Returns (placeDirect a u (E.part.sb.dataStartLba + i))
      (s.setBitmap (s.blockBitmap.set i true) .blockBitmap) PUnit.unit
      ((s.setBitmap (s.blockBitmap.set i true) .blockBitmap).setInode a
        ((s.inode a).setSector u (E.part.sb.dataStartLba + i))) := by
  have hu0 : (s.inode a).iSectors u = 0 := by
    have hb := h.holds.blocks u (by omega)
    rw [Inode.blocks_of_lt hu] at hb
    omega
  exact returns_bind.mpr ⟨_, _, returns_inodeAt.mpr ⟨h.live, rfl, rfl⟩,
    returns_check_bind.mpr ⟨hu0, returns_setInodeAt.mpr ⟨h.live, rfl⟩⟩⟩

/-- The loop of situation 1. -/
theorem allocBlocks_direct {left k lo : ℕ} {all : ℕ → ℕ} (h : FileIntact E f a s k content)
    (hle : k + left ≤ 12) (hfree : left ≤ (freeBlocks E s.blockBitmap).card)
    (hall : ∀ m, lo ≤ m → m < k → all m = (s.inode a).blocks s.disk m) :
    ∃ all' s', Returns (allocBlocks E (placeDirect a) left k all) s (some all') s' ∧
      FileIntact E f a s' (k + left) content ∧ s.SameHeap s' ∧
      (s'.inode a).iSize = (s.inode a).iSize ∧ (s'.inode a).iNo = (s.inode a).iNo ∧
      ∀ m, lo ≤ m → m < k + left → all' m = (s'.inode a).blocks s'.disk m := by
  induction left generalizing s k all with
  | zero => exact ⟨all, s, returns_pure.mpr ⟨rfl, rfl⟩, h, Fs.SameHeap.refl s, rfl, rfl, hall⟩
  | succ left ih =>
    obtain ⟨i, hi, hmem, hleft⟩ := exists_scan (by omega : 0 < (freeBlocks E s.blockBitmap).card)
    obtain ⟨hret, hidx, hsync⟩ := returns_alloc_of_free h.mounted hi
    obtain ⟨h1, h2, -⟩ := returns_bitmapSync.mp hsync
    have hsec : ∀ m < 12, (((s.takeBlock E i).setInode a
        ((s.inode a).setSector k (E.part.sb.dataStartLba + i))).inode a).blocks
          ((s.takeBlock E i).setInode a
            ((s.inode a).setSector k (E.part.sb.dataStartLba + i))).disk m
        = if m = k then E.part.sb.dataStartLba + i else (s.inode a).blocks s.disk m := by
      intro m hm
      rw [Fs.setInode_inode, Function.update_self, Inode.blocks_of_lt hm, Inode.blocks_of_lt hm]
      by_cases hmk : m = k
      · rw [if_pos hmk, hmk]
        exact Inode.setSector_self _ k _
      · rw [if_neg hmk]
        exact Inode.setSector_of_ne _ hmk _
    obtain ⟨all', s', h3, h4, h5, h6, h7, h8⟩ := @ih _ (k + 1)
      (Function.update all k (E.part.sb.dataStartLba + i)) (h.addDirect (by omega) hmem) (by omega)
      (by change left ≤ (freeBlocks E (s.blockBitmap.set i true)).card; omega)
      (by
        intro m hlo hm
        rw [hsec m (by omega)]
        by_cases hmk : m = k
        · rw [hmk, Function.update_self, if_pos rfl]
        · rw [Function.update_of_ne hmk, if_neg hmk]
          exact hall m hlo (by omega))
    refine ⟨all', s', ?_, ?_, ?_, ?_, ?_, fun m hlo hm ↦ h8 m hlo (by omega)⟩
    · refine returns_bind.mpr ⟨_, _, hret, ?_⟩
      dsimp only
      have hplace := h.returns_placeDirect (i := i) (by omega)
      refine returns_bind.mpr ⟨PUnit.unit, _, hplace, ?_⟩
      rw [hidx]
      exact returns_bind.mpr ⟨PUnit.unit, _, returns_bitmapSync.mpr ⟨h1, h2, rfl⟩, h3⟩
    · rwa [show k + (left + 1) = k + 1 + left by omega]
    · exact (Fs.SameHeap.mk rfl rfl rfl rfl rfl : s.SameHeap ((s.takeBlock E i).setInode a
        ((s.inode a).setSector k (E.part.sb.dataStartLba + i)))).trans h5
    · rw [h6, Fs.setInode_inode, Function.update_self]
      rfl
    · rw [h7, Fs.setInode_inode, Function.update_self]
      rfl

/-- The blocks a write allocates besides the first block of the file. -/
def blocksNeeded (has will : ℕ) : ℕ := will - has + if has ≤ 12 ∧ 12 < will then 1 else 0

/-- The ways to grow a file that work. -/
def GrowsWell (has will : ℕ) : Prop := will = has ∨ will ≤ 12 ∨ has = 12

/-- A write finds the blocks it needs: the file has `will` blocks afterwards, and those from the last
one in use on are known. -/
def Allocates (E : Env) (f a : ℕ) (s : Fs) (has will : ℕ) (content : Image) : Prop :=
  ∃ all s', Returns (writeBlocks E a has will) s (some all) s' ∧
    FileIntact E f a s' will content ∧ s.SameHeap s' ∧
    (s'.inode a).iSize = (s.inode a).iSize ∧ (s'.inode a).iNo = (s.inode a).iNo ∧
    ∀ k, has - 1 ≤ k → k < will → all k = (s'.inode a).blocks s'.disk k

section Allocates

variable {has will : ℕ}

private theorem returns_writeBlocks_none (hlive : s.heap a = some Blk.inode) (h12 : has ≤ 12) :
    Returns (writeBlocks E a has has) s
      (some (Function.update (fun _ ↦ 0) (has - 1) ((s.inode a).iSectors (has - 1)))) s := by
  refine returns_bind.mpr ⟨_, _, returns_inodeAt.mpr ⟨hlive, rfl, rfl⟩, ?_⟩
  rw [if_pos (by omega), if_pos h12]
  exact returns_pure.mpr ⟨rfl, rfl⟩

/-- Nothing to allocate, and no table. -/
theorem allocates_same (h : FileIntact E f a s has content) (h1 : 1 ≤ has) (h12 : has ≤ 12) :
    Allocates E f a s has has content := by
  refine ⟨_, s, returns_writeBlocks_none h.live h12, h, Fs.SameHeap.refl s, rfl, rfl,
    fun k hk1 hk2 ↦ ?_⟩
  rw [show k = has - 1 by omega, Function.update_self, Inode.blocks_of_lt (by omega)]

private theorem returns_writeBlocks_table (hlive : s.heap a = some Blk.inode) (h12 : ¬has ≤ 12)
    (h0 : (s.inode a).iSectors 12 ≠ 0) (hlba : (s.inode a).iSectors 12 ≤ maxLba) :
    Returns (writeBlocks E a has has) s (some fun i ↦ if i < 12 then 0
      else le32 (fun j ↦ s.disk (512 * (s.inode a).iSectors 12 + j)) (4 * (i - 12))) s := by
  refine returns_bind.mpr ⟨_, _, returns_inodeAt.mpr ⟨hlive, rfl, rfl⟩, ?_⟩
  rw [if_pos (by omega), if_neg h12, returns_check_bind]
  refine ⟨h0, returns_bind.mpr ⟨_, _, ?_, returns_pure.mpr ⟨rfl, rfl⟩⟩⟩
  exact returns_bind.mpr ⟨_, _, (returns_ideRead (by decide)).mpr
    ⟨hlba, by decide, by decide, rfl, rfl⟩, returns_pure.mpr ⟨rfl, rfl⟩⟩

/-- Nothing to allocate behind a table. -/
theorem allocates_behind (h : FileIntact E f a s has content) (h12 : ¬has ≤ 12) :
    Allocates E f a s has has content := by
  have h0 := h.holds.table.mpr (by omega)
  have hlba := h.holds.onDisk 140 (le_refl _)
  rw [Inode.held_table] at hlba
  refine ⟨_, s, returns_writeBlocks_table h.live h12 h0 hlba, h, Fs.SameHeap.refl s, rfl, rfl,
    fun k hk1 hk2 ↦ ?_⟩
  rw [Inode.blocks_of_table (by omega) h0, tableAt]
  refine Eq.trans (if_neg (by omega)) (le32_congr fun j _ ↦ ?_)
  rw [Nat.add_assoc]

/-- Situation 1. -/
theorem allocates_direct (h : FileIntact E f a s has content) (h1 : 1 ≤ has) (hlt : has < will)
    (h12 : will ≤ 12) (hfree : will - has ≤ (freeBlocks E s.blockBitmap).card) :
    Allocates E f a s has will content := by
  have hlast : (s.inode a).iSectors (has - 1) ≠ 0 := by
    have hb := (h.holds.blocks (has - 1) (by omega)).mpr (by omega)
    rwa [Inode.blocks_of_lt (by omega)] at hb
  have hall : ∀ m, has - 1 ≤ m → m < has →
      Function.update (fun _ ↦ 0) (has - 1) ((s.inode a).iSectors (has - 1)) m
        = (s.inode a).blocks s.disk m := by
    intro m hm1 hm2
    rw [show m = has - 1 by omega, Function.update_self, Inode.blocks_of_lt (by omega)]
  obtain ⟨all, s', h2, h3, h4, h5, h6, h7⟩ := allocBlocks_direct h
    (by omega : has + (will - has) ≤ 12) hfree hall
  rw [show has + (will - has) = will by omega] at h3 h7
  refine ⟨all, s', ?_, h3, h4, h5, h6, h7⟩
  refine returns_bind.mpr ⟨_, _, returns_inodeAt.mpr ⟨h.live, rfl, rfl⟩, ?_⟩
  rw [if_neg (by omega), if_pos h12, returns_check_bind, returns_check_bind]
  exact ⟨by omega, hlast, h2⟩

private theorem returns_writeBlocks_mixed {i : ℕ} {t : Fs} {all : ℕ → ℕ} (hm : s.Mounted E)
    (hlive : s.heap a = some Blk.inode) (hlt : 12 < will) (hwill : will ≤ 140)
    (htab0 : (s.inode a).iSectors 12 = 0) (hi : s.blockBitmap.scan 1 = some i)
    (hlba : E.part.sb.dataStartLba + i ≤ maxLba)
    (hr : Returns (allocBlocks E (placeMixed a) (will - 12) 12
        (Function.update (fun _ ↦ 0) (12 - 1) ((s.inode a).iSectors (12 - 1))))
      ((s.takeBlock E i).setInode a ((s.inode a).setSector 12 (E.part.sb.dataStartLba + i)))
      (some all) t) :
    Returns (writeBlocks E a 12 will) s (some all)
      (t.store (512 * (E.part.sb.dataStartLba + i)) 512 (ofWords fun k ↦ all (12 + k))) := by
  obtain ⟨hret, hidx, hsync⟩ := returns_alloc_of_free hm hi
  obtain ⟨hs1, hs2, -⟩ := returns_bitmapSync.mp hsync
  refine returns_bind.mpr ⟨_, _, returns_inodeAt.mpr ⟨hlive, rfl, rfl⟩, ?_⟩
  rw [if_neg (by omega), if_neg (by omega), if_pos (le_refl 12)]
  refine returns_bind.mpr ⟨_, _, hret, ?_⟩
  dsimp only
  rw [returns_check_bind, hidx]
  refine ⟨htab0, returns_bind.mpr ⟨PUnit.unit, _, returns_setInodeAt.mpr ⟨hlive, rfl⟩, ?_⟩⟩
  refine returns_bind.mpr ⟨PUnit.unit, _, returns_bitmapSync.mpr ⟨hs1, hs2, rfl⟩, ?_⟩
  refine returns_bind.mpr ⟨_, _, hr, ?_⟩
  exact returns_bind.mpr ⟨PUnit.unit, _, returns_writeTable.mpr ⟨hlba, rfl⟩,
    returns_pure.mpr ⟨rfl, rfl⟩⟩

/-- Situation 2, for a file whose direct blocks are all in use. -/
theorem allocates_mixed (h : FileIntact E f a s 12 content) (hlt : 12 < will) (hwill : will ≤ 140)
    (hfree : will - 12 + 1 ≤ (freeBlocks E s.blockBitmap).card) :
    Allocates E f a s 12 will content := by
  obtain ⟨i, hi, hmem, hleft⟩ := exists_scan (by omega : 0 < (freeBlocks E s.blockBitmap).card)
  obtain ⟨hlen, hbit, hlba⟩ := mem_freeBlocks.mp hmem
  have htab0 : (s.inode a).iSectors 12 = 0 := by
    by_contra h0
    have := h.holds.table.mp h0
    omega
  have hmt : ((s.takeBlock E i).setInode a
      ((s.inode a).setSector 12 (E.part.sb.dataStartLba + i))).Mounted E :=
    ⟨h.mounted.part, h.mounted.blockLen, h.mounted.inodeLen⟩
  -- the blocks behind the table
  obtain ⟨idx, t, hr, ht, hm', hdata, hmem', hinj, hbits⟩ := @allocBlocks_behind E
    ((s.takeBlock E i).setInode a ((s.inode a).setSector 12 (E.part.sb.dataStartLba + i)))
    (placeMixed a) (will - 12) 12
    (Function.update (fun _ ↦ 0) (12 - 1) ((s.inode a).iSectors (12 - 1))) hmt
    (fun m l hm ↦ if_neg (by omega))
    (by change will - 12 ≤ (freeBlocks E (s.blockBitmap.set i true)).card; omega)
  rw [show 12 + (will - 12) = will by omega] at hr hmem' hinj hbits
  have hfresh : ∀ k, 12 ≤ k → k < will → s.blockBitmap.bit (idx k) = false ∧ idx k ≠ i ∧
      E.part.sb.dataStartLba + idx k ≤ maxLba := by
    intro k hk1 hk2
    obtain ⟨-, hb, hl⟩ := mem_freeBlocks.mp (hmem' k hk1 hk2)
    change (s.blockBitmap.set i true).bit (idx k) = false at hb
    rw [Bitmap.bit_set] at hb
    have hne : idx k ≠ i := by
      intro heq
      rw [if_pos heq] at hb
      cases hb
    rw [if_neg hne] at hb
    exact ⟨hb, hne, hl⟩
  have hbits' : ∀ j, t.blockBitmap.bit j = true ↔
      s.blockBitmap.bit j = true ∨ j = i ∨ ∃ k, 12 ≤ k ∧ k < will ∧ idx k = j := by
    intro j
    rw [hbits j]
    change (s.blockBitmap.set i true).bit j = true ∨ _ ↔ _
    rw [Bitmap.bit_set]
    by_cases hj : j = i
    · simp [hj]
    · simp [hj]
  have hinode : t.inode a = (s.inode a).setSector 12 (E.part.sb.dataStartLba + i) := by
    rw [ht]
    exact Function.update_self ..
  have hholds := h.holds.addTable hlt hwill h.dataStart_pos hlba hbit
    (fun k hk1 hk2 ↦ (hfresh k hk1 hk2).2.2) (fun k hk1 hk2 ↦ ⟨(hfresh k hk1 hk2).1,
      (hfresh k hk1 hk2).2.1⟩) (fun k m hk1 hk2 hm1 hm2 ↦ hinj k m hk1 hk2 hm1 hm2) hbits'
    (fun l hl ↦ (sameSector_takeBlock h.mounted hlen hl).trans (hdata l hl))
    (w := fun k ↦ if 12 ≤ 12 + k ∧ 12 + k < will then E.part.sb.dataStartLba + idx (12 + k) else
      Function.update (fun _ ↦ 0) (12 - 1) ((s.inode a).iSectors (12 - 1)) (12 + k))
    (fun k hk1 hk2 ↦ by
      rw [show 12 + (k - 12) = k by omega, Function.update_of_ne (by omega)]
      exact if_congr (by omega) rfl rfl)
  refine ⟨_, _, returns_writeBlocks_mixed h.mounted h.live hlt hwill htab0 hi hlba hr,
    ⟨⟨hm'.part, hm'.blockLen, hm'.inodeLen⟩, ?_, ?_, ?_, ?_⟩, ?_, ?_, ?_, ?_⟩
  · exact (hbits' 0).mpr (Or.inl h.rootBlock)
  · rw [Fs.store_fileTable, ht]
    exact h.fd
  · rw [Fs.store_heap, ht]
    exact h.live
  · rw [Fs.store_inode, Fs.store_disk, Fs.store_blockBitmap, hinode]
    exact hholds
  · rw [ht]
    exact ⟨rfl, rfl, rfl, rfl, rfl⟩
  · rw [Fs.store_inode, hinode]
    rfl
  · rw [Fs.store_inode, hinode]
    rfl
  · intro k hk1 hk2
    have hmax : maxLba = 163839 := by decide
    have hstart := h.dataStart_pos
    rw [Fs.store_inode, Fs.store_disk, hinode, Inode.blocks_newTable (by omega) (by omega)]
    · by_cases hk12 : k < 12
      · rw [if_pos hk12, if_neg (by omega), show k = 12 - 1 by omega, Function.update_self]
      · rw [if_neg hk12, show 12 + (k - 12) = k by omega]
    · intro hk12
      have := (hfresh k hk12 hk2).2.2
      rw [show 12 + (k - 12) = k by omega, if_pos ⟨hk12, hk2⟩]
      omega

/-- **The allocation of a write.** -/
theorem allocates (h : FileIntact E f a s has content) (h1 : 1 ≤ has) (hle : has ≤ will)
    (hwill : will ≤ 140) (hgrow : GrowsWell has will)
    (hfree : blocksNeeded has will ≤ (freeBlocks E s.blockBitmap).card) :
    Allocates E f a s has will content := by
  rw [blocksNeeded] at hfree
  by_cases heq : will = has
  · subst heq
    by_cases h12 : will ≤ 12
    · exact allocates_same h h1 h12
    · exact allocates_behind h h12
  · by_cases h12 : will ≤ 12
    · exact allocates_direct h h1 (by omega) h12 (by omega)
    · rcases hgrow with hg | hg | rfl
      · exact absurd hg heq
      · exact absurd hg h12
      · rw [if_pos (by omega)] at hfree
        exact allocates_mixed h (by omega) hwill hfree

end Allocates

/-! ## Writing the sectors -/

/-- The sector the next bytes go to, with these bytes. -/
theorem FileIntact.write {n : ℕ} {g src : Image} (h : FileIntact E f a s u content)
    (hk : (s.inode a).iSize / 512 < u) (hn : n ≤ 512 - (s.inode a).iSize % 512)
    (hold : ∀ i < (s.inode a).iSize % 512,
      g i = s.disk (512 * (s.inode a).blocks s.disk ((s.inode a).iSize / 512) + i))
    (hnew : ∀ i < n, g ((s.inode a).iSize % 512 + i) = src i) :
    FileIntact E f a (((s.store (512 * (s.inode a).blocks s.disk ((s.inode a).iSize / 512)) 512
        g).setInode a ((s.inode a).grow n)).seek f n) u
      (splice content (s.inode a).iSize n src) := by
  refine ⟨⟨h.mounted.part, h.mounted.blockLen, h.mounted.inodeLen⟩, h.rootBlock, ?_, h.live, ?_⟩
  · simp only [Fs.seek, Fs.setFile_fileTable, Function.update_self]
    exact h.fd
  · simp only [Fs.seek, Fs.setFile_inode, Fs.setFile_disk, Fs.setFile_blockBitmap,
      Fs.setInode_inode, Fs.setInode_disk, Fs.setInode_blockBitmap, Function.update_self]
    exact h.holds.write hk hn hold hnew

/-- **The loop over the sectors** appends the bytes. Only the first sector may be in use already. -/
theorem writeSectors_ready {all : ℕ → ℕ} {fuel left : ℕ} {first : Bool} (buf : Image) (written : ℕ)
    (h : FileIntact E f a s u content) (hfuel : left ≤ fuel)
    (hroom : (s.inode a).iSize + left ≤ 512 * u)
    (hall : ∀ k, (s.inode a).iSize / 512 ≤ k → k < u → all k = (s.inode a).blocks s.disk k)
    (hfirst : first = true ∨ left = 0 ∨ (s.inode a).iSize % 512 = 0) :
    ∃ s', Returns (writeSectors E f a buf all fuel written left first) s PUnit.unit s' ∧
      FileIntact E f a s' u
        (splice content (s.inode a).iSize left fun i ↦ buf (written + i)) ∧
      s.SameHeap s' ∧ (s'.inode a).iSize = (s.inode a).iSize + left ∧
      (s'.inode a).iNo = (s.inode a).iNo := by
  induction fuel generalizing s written left first content with
  | zero =>
    obtain rfl : left = 0 := by omega
    refine ⟨s, ?_, ?_, Fs.SameHeap.refl s, rfl, rfl⟩
    · rw [writeSectors, if_pos rfl]
      exact returns_pure.mpr ⟨rfl, rfl⟩
    · rwa [splice_zero]
  | succ fuel ih =>
    by_cases hleft : left = 0
    · subst hleft
      refine ⟨s, ?_, ?_, Fs.SameHeap.refl s, rfl, rfl⟩
      · rw [writeSectors, if_pos rfl]
        exact returns_pure.mpr ⟨rfl, rfl⟩
      · rwa [splice_zero]
    · have hmod := Nat.mod_lt (s.inode a).iSize (show 0 < 512 by decide)
      have hk : (s.inode a).iSize / 512 < u := by omega
      have hu := h.holds.le
      set n := min left (512 - (s.inode a).iSize % 512) with hn
      have hn1 : 1 ≤ n := by omega
      have hblk := hall _ (le_refl _) hk
      have hlba := h.holds.block_le hk
      set ioBuf : Image := if first then
        fun i ↦ s.disk (512 * (s.inode a).blocks s.disk ((s.inode a).iSize / 512) + i)
        else fun _ ↦ 0 with hio
      set g := splice ioBuf ((s.inode a).iSize % 512) n fun i ↦ buf (written + i) with hg
      have hready := h.write (n := n) (g := g) hk (by omega)
        (fun i hi ↦ by
          rw [hg, splice_of_lt hi, hio]
          rcases hfirst with hf | hf | hf
          · rw [if_pos hf]
          · exact absurd hf hleft
          · omega)
        (fun i hi ↦ by rw [hg, splice_add, if_pos hi])
      set t := ((s.store (512 * (s.inode a).blocks s.disk ((s.inode a).iSize / 512)) 512
        g).setInode a ((s.inode a).grow n)).seek f n with ht
      have htino : t.inode a = (s.inode a).grow n := Function.update_self ..
      have hsize : (t.inode a).iSize = (s.inode a).iSize + n := by
        rw [htino]
        rfl
      obtain ⟨s', hr, h1, h2, h3, h4⟩ := @ih t _ (left - n) false (written + n) hready (by omega)
        (by omega) (fun k hk1 hk2 ↦ by
          rw [htino]
          exact (hall k (by omega) hk2).trans (h.holds.blocks_write hk (by omega)).symm)
        (by omega)
      refine ⟨s', ?_, ?_, (Fs.SameHeap.mk rfl rfl rfl rfl rfl : s.SameHeap t).trans h2, by omega,
        h4.trans (by rw [htino]; rfl)⟩
      · rw [writeSectors, if_neg hleft]
        refine returns_bind.mpr ⟨_, _, returns_inodeAt.mpr ⟨h.live, rfl, rfl⟩, ?_⟩
        rw [returns_check_bind]
        refine ⟨by omega, ?_⟩
        have hread : Returns (sectorBuf first (all ((s.inode a).iSize / 512))) s ioBuf s := by
          rw [sectorBuf]
          by_cases hf : first = true
          · rw [if_pos hf, hio, if_pos hf]
            refine (returns_ideRead (by decide)).mpr ⟨hblk ▸ hlba, by decide, by decide, ?_, rfl⟩
            rw [hblk]
          · rw [if_neg hf, hio, if_neg hf]
            exact returns_pure.mpr ⟨rfl, rfl⟩
        refine returns_bind.mpr ⟨_, _, hread, ?_⟩
        refine returns_bind.mpr ⟨PUnit.unit, _, (returns_ideWrite (by decide)).mpr
          ⟨hblk ▸ hlba, by decide, by decide, rfl⟩, ?_⟩
        refine returns_bind.mpr ⟨PUnit.unit, _, returns_setInodeAt.mpr ⟨h.live, rfl⟩, ?_⟩
        rw [returns_modify_bind, hblk]
        exact hr
      · rw [hsize] at h1
        have hcat := splice_splice content (fun i ↦ buf (written + i)) (s.inode a).iSize n (left - n)
        rw [show n + (left - n) = left by omega] at hcat
        rw [← hcat]
        convert h1 using 2
        funext i
        rw [Nat.add_assoc]

end GlowOS
