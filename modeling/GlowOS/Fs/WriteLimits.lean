import Mathlib
import GlowOS.Fs.Frames
import GlowOS.Fs.RoundTrip

/-!
# The limits of a write

`file_write` compares the new size with the maximum, counts blocks by a formula that is one too high
for a size that is a multiple of a block, and asserts that the count is at most 140. The comparison is
made after a wrap at 32 bits. So the assertion fails for a file of exactly the maximal size, and a
count that wraps passes the comparison and runs off `all_blocks`.

Whether a call goes wrong also depends on the free blocks: without them it gives up before it gets
there. `Fs.blocksTaken` is the number of blocks a call takes until it goes wrong or comes to its end,
and `writesAs_iff` says exactly which calls meet their limits.
-/

namespace GlowOS

open Bytes Program Scan

variable {E : Env} {s s' : Fs} {f a u : ℕ} {content : Image}

/-! ## Running out of blocks -/

/-- The free blocks of the partition lie on the disk. -/
def FreeOnDisk (E : Env) (bm : Bitmap) : Prop :=
  ∀ i < 8 * bm.btmpBytesLen, bm.bit i = false → E.part.sb.dataStartLba + i ≤ maxLba

section OutOfBlocks

variable {bm : Bitmap} {i left k : ℕ} {all : ℕ → ℕ}

theorem FreeOnDisk.set (hd : FreeOnDisk E bm) : FreeOnDisk E (bm.set i true) := by
  intro j hj hbit
  rw [Bitmap.bit_set] at hbit
  split_ifs at hbit
  exact hd j hj hbit

theorem FreeOnDisk.mem_of_scan (hd : FreeOnDisk E bm) (hi : bm.scan 1 = some i) :
    i ∈ freeBlocks E bm := by
  obtain ⟨h1, h2, -⟩ := Bitmap.scan_one_eq_some.mp hi
  exact mem_freeBlocks.mpr ⟨h1, h2, hd i h1 h2⟩

theorem scan_of_card_eq_zero (hd : FreeOnDisk E bm) (h : (freeBlocks E bm).card = 0) :
    bm.scan 1 = none := by
  cases hscan : bm.scan 1 with
  | none => rfl
  | some i =>
    have := Finset.card_pos.mpr ⟨i, hd.mem_of_scan hscan⟩
    omega

theorem returns_alloc_none (h : s.blockBitmap.scan 1 = none) :
    Returns (blockBitmapAlloc E) s none s :=
  returns_blockBitmapAlloc.mpr (Or.inl ⟨h, rfl, rfl⟩)

/-- The loops that allocate blocks without a place for them in the inode. -/
theorem allocBlocks_behind_none {place : ℕ → ℕ → FsM PUnit} (hm : s.Mounted E)
    (hd : FreeOnDisk E s.blockBitmap) (hplace : ∀ m lba, k ≤ m → place m lba = pure PUnit.unit)
    (hfree : (freeBlocks E s.blockBitmap).card < left) :
    ∃ s', Returns (allocBlocks E place left k all) s none s' ∧ s'.inode = s.inode := by
  induction left generalizing s k all with
  | zero => omega
  | succ left ih =>
    cases hscan : s.blockBitmap.scan 1 with
    | none =>
      exact ⟨s, returns_bind.mpr ⟨_, _, returns_alloc_none hscan, returns_pure.mpr ⟨rfl, rfl⟩⟩, rfl⟩
    | some i =>
      have hcard := card_freeBlocks_set (hd.mem_of_scan hscan)
      obtain ⟨hret, hidx, hsync⟩ := returns_alloc_of_free hm hscan
      have hm' : (s.takeBlock E i).Mounted E := ⟨hm.part, hm.blockLen, hm.inodeLen⟩
      obtain ⟨s', h1, h2⟩ := @ih (s.takeBlock E i) (k + 1)
        (Function.update all k (E.part.sb.dataStartLba + i)) hm' hd.set
        (fun m lba hmk ↦ hplace m lba (by omega))
        (by change (freeBlocks E (s.blockBitmap.set i true)).card < left; omega)
      refine ⟨s', returns_bind.mpr ⟨_, _, hret, ?_⟩, h2⟩
      dsimp only
      rw [hplace k _ (le_refl k), hidx, returns_pure_bind]
      exact returns_bind.mpr ⟨_, _, hsync, h1⟩

/-- The loop of situation 1. -/
theorem allocBlocks_direct_none (h : FileIntact E f a s k content)
    (hd : FreeOnDisk E s.blockBitmap) (hle : k + left ≤ 12)
    (hfree : (freeBlocks E s.blockBitmap).card < left) :
    ∃ s', Returns (allocBlocks E (placeDirect a) left k all) s none s' ∧
      (s'.inode a).iSize = (s.inode a).iSize := by
  induction left generalizing s k all with
  | zero => omega
  | succ left ih =>
    cases hscan : s.blockBitmap.scan 1 with
    | none =>
      exact ⟨s, returns_bind.mpr ⟨_, _, returns_alloc_none hscan, returns_pure.mpr ⟨rfl, rfl⟩⟩, rfl⟩
    | some i =>
      have hmem := hd.mem_of_scan hscan
      have hcard := card_freeBlocks_set hmem
      obtain ⟨hret, hidx, hsync⟩ := returns_alloc_of_free h.mounted hscan
      obtain ⟨h1, h2, -⟩ := returns_bitmapSync.mp hsync
      obtain ⟨s', h3, h4⟩ := @ih _ (k + 1) (Function.update all k (E.part.sb.dataStartLba + i))
        (h.addDirect (by omega) hmem) hd.set (by omega)
        (by change (freeBlocks E (s.blockBitmap.set i true)).card < left; omega)
      refine ⟨s', returns_bind.mpr ⟨_, _, hret, ?_⟩, ?_⟩
      · dsimp only
        have hplace := h.returns_placeDirect (i := i) (by omega)
        refine returns_bind.mpr ⟨PUnit.unit, _, hplace, ?_⟩
        rw [hidx]
        exact returns_bind.mpr ⟨PUnit.unit, _, returns_bitmapSync.mpr ⟨h1, h2, rfl⟩, h3⟩
      · rw [h4, Fs.setInode_inode, Function.update_self]
        rfl

end OutOfBlocks

/-- The blocks a write takes from the second one on, until it goes wrong or has them all. A file of
fewer than twelve blocks that grows behind the twelfth goes wrong at the first direct block, after
the indirect table. -/
def blocksTried (has will : ℕ) : ℕ := if has < 12 ∧ 12 < will then 2 else blocksNeeded has will

section WriteBlocks

variable {has will : ℕ} {r : Option (ℕ → ℕ)}

/-- Without enough blocks a write does not get further than the allocation. -/
theorem writeBlocks_none (h : FileIntact E f a s has content) (hd : FreeOnDisk E s.blockBitmap)
    (h1 : 1 ≤ has) (hle : has ≤ will) (hwill : will ≤ 140)
    (hfree : (freeBlocks E s.blockBitmap).card < blocksTried has will) :
    ∃ s', Returns (writeBlocks E a has will) s none s' ∧
      (s'.inode a).iSize = (s.inode a).iSize := by
  have hne : will ≠ has := by
    rintro rfl
    rw [blocksTried, blocksNeeded, if_neg (by omega), if_neg (by omega)] at hfree
    omega
  by_cases h12 : will ≤ 12
  · -- situation 1
    have hlast : (s.inode a).iSectors (has - 1) ≠ 0 := by
      have hb := (h.holds.blocks (has - 1) (by omega)).mpr (by omega)
      rwa [Inode.blocks_of_lt (by omega)] at hb
    rw [blocksTried, blocksNeeded, if_neg (by omega), if_neg (by omega)] at hfree
    obtain ⟨s', hr, hsize⟩ := @allocBlocks_direct_none _ _ _ _ _ _ _
      (Function.update (fun _ ↦ 0) (has - 1) ((s.inode a).iSectors (has - 1))) h hd
      (by omega : has + (will - has) ≤ 12) (by omega)
    refine ⟨s', (returns_inodeAt_bind h.live).mpr ?_, hsize⟩
    rw [if_neg (by omega), if_pos h12, returns_check_bind, returns_check_bind]
    exact ⟨by omega, hlast, hr⟩
  · by_cases hhas : has ≤ 12
    · -- situation 2
      cases hscan : s.blockBitmap.scan 1 with
      | none =>
        refine ⟨s, (returns_inodeAt_bind h.live).mpr ?_, rfl⟩
        rw [if_neg (by omega), if_neg h12, if_pos hhas]
        exact returns_bind.mpr ⟨_, _, returns_alloc_none hscan, returns_pure.mpr ⟨rfl, rfl⟩⟩
      | some i =>
        have hcard := card_freeBlocks_set (hd.mem_of_scan hscan)
        obtain ⟨hret, hidx, hsync⟩ := returns_alloc_of_free h.mounted hscan
        obtain ⟨hs1, hs2, -⟩ := returns_bitmapSync.mp hsync
        have htab0 : (s.inode a).iSectors 12 = 0 := by
          by_contra h0
          have := h.holds.table.mp h0
          omega
        set t := (s.takeBlock E i).setInode a
          ((s.inode a).setSector 12 (E.part.sb.dataStartLba + i)) with ht
        have hmt : t.Mounted E := ⟨h.mounted.part, h.mounted.blockLen, h.mounted.inodeLen⟩
        have hbits : t.blockBitmap = s.blockBitmap.set i true := rfl
        have hsize : (t.inode a).iSize = (s.inode a).iSize := by
          rw [ht, Fs.setInode_inode, Function.update_self]
          rfl
        have hloop : ∃ s', Returns (allocBlocks E (placeMixed a) (will - has) has
            (Function.update (fun _ ↦ 0) (has - 1) ((s.inode a).iSectors (has - 1)))) t none s' ∧
            s'.inode = t.inode := by
          by_cases hlt : has < 12
          · -- no block is left for the first direct one
            rw [blocksTried, if_pos ⟨hlt, by omega⟩] at hfree
            have hnone : t.blockBitmap.scan 1 = none :=
              scan_of_card_eq_zero (hbits ▸ hd.set) (by rw [hbits]; omega)
            rw [show will - has = (will - has - 1) + 1 by omega]
            exact ⟨t, returns_bind.mpr ⟨_, _, returns_alloc_none hnone, returns_pure.mpr ⟨rfl, rfl⟩⟩,
              rfl⟩
          · rw [blocksTried, if_neg (by omega), blocksNeeded, if_pos (by omega)] at hfree
            exact allocBlocks_behind_none hmt (hbits ▸ hd.set)
              (fun m lba hm ↦ if_neg (by omega)) (by rw [hbits]; omega)
        obtain ⟨s', hr, hino⟩ := hloop
        refine ⟨s', (returns_inodeAt_bind h.live).mpr ?_, by rw [hino, hsize]⟩
        rw [if_neg (by omega), if_neg h12, if_pos hhas]
        refine returns_bind.mpr ⟨_, _, hret, ?_⟩
        dsimp only
        rw [returns_check_bind, hidx]
        refine ⟨htab0, returns_bind.mpr ⟨PUnit.unit, _, returns_setInodeAt.mpr ⟨h.live, rfl⟩, ?_⟩⟩
        refine returns_bind.mpr ⟨PUnit.unit, _, returns_bitmapSync.mpr ⟨hs1, hs2, rfl⟩, ?_⟩
        exact returns_bind.mpr ⟨_, _, hr, returns_pure.mpr ⟨rfl, rfl⟩⟩
    · -- situation 3
      rw [blocksTried, if_neg (by omega), blocksNeeded, if_neg (by omega)] at hfree
      obtain ⟨s', hr, hino⟩ := @allocBlocks_behind_none E s _ has (fun _ ↦ 0)
        (fun _ _ ↦ pure PUnit.unit) h.mounted hd (fun _ _ _ ↦ rfl) (by omega : _ < will - has)
      refine ⟨s', (returns_inodeAt_bind h.live).mpr ?_, by rw [hino]⟩
      rw [if_neg (by omega), if_neg h12, if_neg hhas, returns_check_bind]
      exact ⟨h.holds.table.mpr (by omega),
        returns_bind.mpr ⟨_, _, hr, returns_pure.mpr ⟨rfl, rfl⟩⟩⟩

/-- Nothing is allocated for fewer blocks than there are. -/
theorem writeBlocks_ne_none (hle : will ≤ has) (h : Returns (writeBlocks E a has will) s r s') :
    r ≠ none := by
  obtain ⟨ino, t, h1, h⟩ := returns_bind.mp h
  have hzero : will - has = 0 := by omega
  rw [hzero] at h
  rcases returns_ite.mp h with ⟨-, h⟩ | ⟨hadd, h⟩
  · rcases returns_ite.mp h with ⟨-, h⟩ | ⟨-, h⟩
    · rw [(returns_pure.mp h).1]
      exact Option.some_ne_none _
    · obtain ⟨all, t', -, h⟩ := returns_bind.mp (returns_check_bind.mp h).2
      rw [(returns_pure.mp h).1]
      exact Option.some_ne_none _
  · rcases returns_ite.mp h with ⟨-, h⟩ | ⟨h12, h⟩
    · have h := (returns_check_bind.mp (returns_check_bind.mp h).2).2
      rw [(returns_pure.mp h).1]
      exact Option.some_ne_none _
    · rcases returns_ite.mp h with ⟨hhas, h⟩ | ⟨-, h⟩
      · omega
      · obtain ⟨all, t', h2, h⟩ := returns_bind.mp (returns_check_bind.mp h).2
        rw [(returns_pure.mp h2).1] at h
        obtain ⟨_, t'', -, h⟩ := returns_bind.mp h
        rw [(returns_pure.mp h).1]
        exact Option.some_ne_none _

/-- In situation 2, the first direct block ends the call. -/
theorem not_returns_writeBlocks (h : FileIntact E f a s has content)
    (hd : FreeOnDisk E s.blockBitmap) (hhas : has < 12) (hlt : 12 < will) (hwill : will ≤ 140)
    (hfree : 2 ≤ (freeBlocks E s.blockBitmap).card) :
    ¬Returns (writeBlocks E a has will) s r s' := by
  intro hret
  obtain ⟨i, hi, hmem, -⟩ := exists_scan (by omega : 0 < (freeBlocks E s.blockBitmap).card)
  have hcard := card_freeBlocks_set hmem
  obtain ⟨halloc, hidx, hsync⟩ := returns_alloc_of_free h.mounted hi
  rw [writeBlocks, returns_inodeAt_bind h.live, if_neg (by omega), if_neg (by omega),
    if_pos (by omega), halloc.bind_iff] at hret
  obtain ⟨-, hret⟩ := returns_check_bind.mp hret
  obtain ⟨_, t, h1, hret⟩ := returns_bind.mp hret
  obtain ⟨-, rfl⟩ := returns_setInodeAt.mp h1
  obtain ⟨_, t, h2, hret⟩ := returns_bind.mp hret
  rw [hidx] at h2
  obtain ⟨-, -, rfl⟩ := returns_bitmapSync.mp h2
  obtain ⟨ans, t, h3, -⟩ := returns_bind.mp hret
  rw [show will - has = (will - has - 1) + 1 by omega] at h3
  obtain ⟨ans', t', h4, h3⟩ := returns_bind.mp h3
  have hstart : 12 < E.part.sb.dataStartLba := by
    have h1 := h.mounted.part.dataStartLba_eq
    omega
  rcases returns_blockBitmapAlloc.mp h4 with ⟨hnone, -⟩ | ⟨i', -, rfl, -⟩
  · change (s.blockBitmap.set i true).scan 1 = none at hnone
    obtain ⟨j, hj, -⟩ := exists_scan (E := E)
      (by omega : 0 < (freeBlocks E (s.blockBitmap.set i true)).card)
    rw [hnone] at hj
    cases hj
  · -- its address is not an index of `i_sectors`
    obtain ⟨_, t'', h5, -⟩ := returns_bind.mp h3
    rw [placeMixed, if_pos hhas] at h5
    obtain ⟨ino, t₃, -, h5⟩ := returns_bind.mp h5
    have := (returns_check_bind.mp h5).1
    omega

/-- In situation 3, the table is overwritten with the new blocks alone. -/
theorem writeBlocks_behind (h : FileIntact E f a s has content) (hhas : 12 < has) (hlt : has < will)
    (hwill : will ≤ 140) (hfree : will - has ≤ (freeBlocks E s.blockBitmap).card)
    (hret : Returns (writeBlocks E a has will) s r s') :
    ∃ all, r = some all ∧ tableAt s'.disk ((s.inode a).iSectors 12) 0 = 0 ∧
      s'.inode = s.inode ∧ s'.heap = s.heap ∧ ∀ k, all k ≠ (s.inode a).iSectors 12 := by
  have htab := h.holds.table.mpr (by omega)
  have hlba := h.holds.onDisk 140 (le_refl _)
  rw [Inode.held_table] at hlba
  obtain ⟨idx, t, hr, ht, -, hdata, hmem, -, -⟩ := @allocBlocks_behind E s
    (fun _ _ ↦ pure PUnit.unit) _ has (fun _ ↦ 0) h.mounted (fun _ _ _ ↦ rfl)
    hfree
  rw [writeBlocks, returns_inodeAt_bind h.live, if_neg (by omega), if_neg (by omega),
    if_neg (by omega), returns_check_bind, and_iff_right htab, hr.bind_iff] at hret
  obtain ⟨_, t', h1, hret⟩ := returns_bind.mp hret
  obtain ⟨rfl, rfl⟩ := returns_pure.mp hret
  obtain ⟨-, rfl⟩ := returns_writeTable.mp h1
  refine ⟨_, rfl, ?_, by rw [Fs.store_inode, ht], by rw [Fs.store_heap, ht], fun k heq ↦ ?_⟩
  · rw [Fs.store_disk, tableAt, le32_splice_of_mem (by omega) (by omega), Nat.add_sub_cancel_left,
      le32_ofWords (w := fun k ↦ if has ≤ 12 + k ∧ 12 + k < has + (will - has) then
        E.part.sb.dataStartLba + idx (12 + k) else 0)]
    · exact if_neg (by omega)
    · rw [if_neg (by omega)]
      decide
  · split_ifs at heq with hk
    · obtain ⟨-, hbit, -⟩ := mem_freeBlocks.mp (hmem k hk.1 hk.2)
      have h0 : (s.inode a).held s.disk 140 ≠ 0 := by rwa [Inode.held_table]
      refine h.holds.owns.ne_free (le_refl 140) h0 hbit ?_
      rw [Inode.held_table, heq]
    · exact htab heq.symm

end WriteBlocks

/-! ## The part behind the buffers -/

section Sectors

/-- The loop over the sectors leaves the pointers of the inode and the other sectors alone. -/
theorem writeSectors_frame {buf : Image} {all : ℕ → ℕ} {fuel written left lba : ℕ} {first : Bool}
    {v : PUnit} (hall : ∀ k, all k ≠ lba)
    (h : Returns (writeSectors E f a buf all fuel written left first) s v s') :
    SameSector s.disk s'.disk lba ∧ (s'.inode a).iSectors = (s.inode a).iSectors := by
  induction fuel generalizing s written left first with
  | zero =>
    rw [writeSectors] at h
    rcases returns_ite.mp h with ⟨-, h⟩ | ⟨-, h⟩
    · obtain ⟨-, rfl⟩ := returns_pure.mp h
      exact ⟨Agree.refl _ _ _, rfl⟩
    · exact absurd h returns_throw
  | succ fuel ih =>
    rw [writeSectors] at h
    rcases returns_ite.mp h with ⟨-, h⟩ | ⟨-, h⟩
    · obtain ⟨-, rfl⟩ := returns_pure.mp h
      exact ⟨Agree.refl _ _ _, rfl⟩
    · obtain ⟨ino, t, h1, h⟩ := returns_bind.mp h
      obtain ⟨-, rfl, rfl⟩ := returns_inodeAt.mp h1
      obtain ⟨-, h⟩ := returns_check_bind.mp h
      obtain ⟨ioBuf, t', h2, h⟩ := returns_bind.mp h
      have hsame : t' = t := by
        rcases returns_ite.mp h2 with ⟨-, h2⟩ | ⟨-, h2⟩
        · exact ((returns_ideRead (by decide)).mp h2).2.2.2.2
        · exact (returns_pure.mp h2).2
      rw [hsame] at h
      obtain ⟨_, t₁, h3, h⟩ := returns_bind.mp h
      obtain ⟨-, -, -, rfl⟩ := (returns_ideWrite (by decide)).mp h3
      obtain ⟨_, t₂, h4, h⟩ := returns_bind.mp h
      obtain ⟨-, rfl⟩ := returns_setInodeAt.mp h4
      obtain ⟨hdisk, hsec⟩ := ih (returns_modify_bind.mp h)
      refine ⟨Agree.trans (sameSector_splice (hall _).symm) hdisk, hsec.trans ?_⟩
      rw [Fs.seek, Fs.setFile_inode, Fs.setInode_inode, Function.update_self]
      rfl

end Sectors

section FileWriteIn

variable {s₁ : Fs} {buf : Image} {count : ℕ} {r : Option ℕ}

/-- How the call goes on once the first block is there. -/
theorem fileWriteIn_cases (hfirst : Returns (allocFirst E a) s true s₁)
    (hlive : s₁.heap a = some Blk.inode) (h : Returns (fileWriteIn E f a buf count) s r s') :
    ((s₁.inode a).iSize + count) % 2 ^ 32 / 512 + 1 ≤ 140 ∧ ∃ ans t,
      Returns (writeBlocks E a ((s₁.inode a).iSize / 512 + 1)
        (((s₁.inode a).iSize + count) % 2 ^ 32 / 512 + 1)) s₁ ans t ∧
      (ans = none ∧ r = none ∨ ∃ all t₁ t₂, ans = some all ∧ r = some count ∧
        t₁.disk = t.disk ∧ t₁.inode = t.inode ∧
        Returns (writeSectors E f a buf all count 0 count true) t₁ PUnit.unit t₂ ∧
        Returns (inodeSync E (t₂.inode a) 512) t₂ PUnit.unit s') := by
  rw [fileWriteIn, hfirst.bind_iff, if_pos rfl, returns_inodeAt_bind hlive] at h
  obtain ⟨hwill, h⟩ := returns_check_bind.mp h
  obtain ⟨ans, t, h1, h⟩ := returns_bind.mp h
  refine ⟨hwill, ans, t, h1, ?_⟩
  cases ans with
  | none => exact Or.inl ⟨rfl, (returns_pure.mp h).1⟩
  | some all =>
    obtain ⟨ino, t', h2, h⟩ := returns_bind.mp h
    obtain ⟨-, rfl, rfl⟩ := returns_inodeAt.mp h2
    obtain ⟨v, t₂, h3, h⟩ := returns_bind.mp (returns_modify_bind.mp h)
    obtain ⟨ino, t₃, h4, h⟩ := returns_bind.mp h
    obtain ⟨-, rfl, rfl⟩ := returns_inodeAt.mp h4
    obtain ⟨_, t₄, h5, h⟩ := returns_bind.mp h
    obtain ⟨rfl, rfl⟩ := returns_pure.mp h
    refine Or.inr ⟨all, _, t₃, rfl, rfl, ?_, ?_, h3, h5⟩ <;> rfl

/-- Without a first block the call gives up at once. -/
theorem allocFirst_none (h : FileIntact E f a s u content) (hd : FreeOnDisk E s.blockBitmap)
    (hu : u = 0) (hfree : (freeBlocks E s.blockBitmap).card = 0) :
    Returns (allocFirst E a) s false s := by
  rw [allocFirst, returns_inodeAt_bind h.live, if_pos (h.iSectors_zero_iff.mpr hu)]
  exact returns_bind.mpr ⟨_, _, returns_alloc_none (scan_of_card_eq_zero hd hfree),
    returns_pure.mpr ⟨rfl, rfl⟩⟩

/-- At most one block is taken for the first one. -/
theorem FreeOnDisk.allocFirst {v : Bool} (hd : FreeOnDisk E s.blockBitmap)
    (h : Returns (allocFirst E a) s v s') : FreeOnDisk E s'.blockBitmap := by
  obtain ⟨ino, t, h1, h⟩ := returns_bind.mp h
  obtain ⟨-, rfl, rfl⟩ := returns_inodeAt.mp h1
  rcases returns_ite.mp h with ⟨-, h⟩ | ⟨-, h⟩
  · obtain ⟨ans, t', h2, h⟩ := returns_bind.mp h
    rcases returns_blockBitmapAlloc.mp h2 with ⟨-, rfl, rfl⟩ | ⟨i, -, rfl, rfl⟩
    · rw [(returns_pure.mp h).2]
      exact hd
    · obtain ⟨_, t₁, h3, h⟩ := returns_bind.mp h
      obtain ⟨-, rfl⟩ := returns_setInodeAt.mp h3
      obtain ⟨_, t₂, h4, h⟩ := returns_bind.mp (returns_check_bind.mp h).2
      obtain ⟨-, -, rfl⟩ := returns_bitmapSync.mp h4
      rw [(returns_pure.mp h).2]
      exact hd.set
  · rw [(returns_pure.mp h).2]
    exact hd

/-- The blocks a call takes until it goes wrong or has them all. A file that would have the maximal
size goes wrong behind its first block. -/
def Fs.blocksTaken (s : Fs) (a count : ℕ) : ℕ :=
  (if (s.inode a).iSectors 0 = 0 then 1 else 0) +
    if (s.inode a).iSize + count = 71680 then 0
    else blocksTried ((s.inode a).iSize / 512 + 1) (((s.inode a).iSize + count) / 512 + 1)

/-- The number of blocks of a file goes with its size. Only an empty file may have none, and a file of
the maximal size has no block behind its last byte. -/
def BlocksFor (size u : ℕ) : Prop := u = 0 ∧ size = 0 ∨ u = min 140 (size / 512 + 1)

/-- Without the blocks it takes, a call gives up and leaves the size as it is. -/
theorem FileIntact.fileWriteIn_none (h : FileIntact E f a s u content)
    (hd : FreeOnDisk E s.blockBitmap) (hu : BlocksFor (s.inode a).iSize u)
    (hroom : (s.inode a).iSize + count ≤ 71680)
    (hfree : (freeBlocks E s.blockBitmap).card < s.blocksTaken a count) :
    ∃ s', Returns (fileWriteIn E f a buf count) s none s' ∧
      (s'.inode a).iSize = (s.inode a).iSize := by
  rw [Fs.blocksTaken, if_congr h.iSectors_zero_iff rfl rfl] at hfree
  by_cases hnone : u = 0 ∧ (freeBlocks E s.blockBitmap).card = 0
  · refine ⟨s, ?_, rfl⟩
    rw [fileWriteIn, (allocFirst_none h hd hnone.1 hnone.2).bind_iff]
    exact returns_pure.mpr ⟨rfl, rfl⟩
  · obtain ⟨s₁, hr₁, h₁, hh₁, hs₁, -, hf₁⟩ := h.returns_allocFirst (by omega)
    have hd₁ := hd.allocFirst hr₁
    rw [BlocksFor] at hu
    have hmax : max u 1 = (s.inode a).iSize / 512 + 1 := by
      split_ifs at hfree <;> omega
    rw [hmax] at h₁
    have hne : (s.inode a).iSize + count ≠ 71680 := by
      intro heq
      rw [if_pos heq] at hfree
      omega
    rw [if_neg hne] at hfree
    obtain ⟨s', hr, hsize⟩ := writeBlocks_none h₁ hd₁ (by omega)
      (by omega : _ ≤ ((s.inode a).iSize + count) / 512 + 1) (by omega) (by omega)
    refine ⟨s', ?_, hsize.trans hs₁⟩
    rw [fileWriteIn, hr₁.bind_iff, if_pos rfl, returns_inodeAt_bind h₁.live, hs₁,
      Nat.mod_eq_of_lt (by omega), returns_check_bind, hr.bind_iff]
    exact ⟨by omega, returns_pure.mpr ⟨rfl, rfl⟩⟩

end FileWriteIn

/-! ## The call -/

instance : Writing Fs.SameHeap where
  refl := Fs.SameHeap.refl
  trans _ _ _ := Fs.SameHeap.trans
  store _ _ _ _ := ⟨rfl, rfl, rfl, rfl, rfl⟩
  setBitmap _ ty _ _ := by cases ty <;> exact ⟨rfl, rfl, rfl, rfl, rfl⟩
  setInode _ _ _ _ _ := ⟨rfl, rfl, rfl, rfl, rfl⟩
  replace _ _ _ := ⟨rfl, rfl, rfl, rfl, rfl⟩
  seek _ _ _ := ⟨rfl, rfl, rfl, rfl, rfl⟩

/-- The slot of an inode can be written from one sector unless it crosses a sector. -/
theorem slotAccess_iff (hp : E.part.Formatted) {n : ℕ} (hn : n < 4096) :
    SlotAccess E n 512 ↔ n * 76 % 512 ≤ 436 := by
  have hall := slotAccess_of_formatted hp hn
  constructor
  · intro h
    by_contra hcross
    have htwo : (inodePosition E n).twoSec = true := decide_eq_true (by omega)
    have hroom := h.room
    rw [InodePosition.sectors, htwo] at hroom
    revert hroom
    decide
  · intro h
    have hone : (inodePosition E n).twoSec = false := decide_eq_false (by omega)
    refine ⟨hall.number, hall.inPart, hall.onDisk, ?_⟩
    rw [InodePosition.sectors, hone]
    decide

section Call

variable {buf : Image} {count : ℕ} {r : Option ℕ}

/-- What a call writes, when it is to be refused and when it fits. -/
structure WritesAs (E : Env) (f a : ℕ) (s : Fs) (content buf : Image) (count : ℕ) : Prop where
  returns : ∃ r s', Returns (fileWrite E f buf count) s r s' ∧ (s'.inode a).iSize ≤ 71680
  tooBig : 71680 < (s.inode a).iSize + count →
    ∃ s', Returns (fileWrite E f buf count) s none s' ∧ (s'.inode a).iSize = (s.inode a).iSize
  fits : (s.inode a).iSize + count ≤ 71680 → s.BuffersSupplied E →
    s.blocksForWrite a count ≤ (freeBlocks E s.blockBitmap).card →
    ∃ s' u', Returns (fileWrite E f buf count) s (some count) s' ∧
      (s'.inode a).iSize = (s.inode a).iSize + count ∧
      FileHolds E s'.disk s'.blockBitmap (s'.inode a) u' (splice content (s.inode a).iSize count buf)

/-- A call without its two buffers gives up. -/
theorem Fs.Opened.fileWrite_of_no_buffers (h : s.Opened f a)
    (hheap : ¬s.BuffersSupplied E) :
    ∃ s', Returns (fileWrite E f buf count) s none s' ∧ s'.inode a = s.inode a := by
  by_cases hbig : 512 * 140 < ((s.inode a).iSize + count) % 2 ^ 32
  · refine ⟨s, h.returns_fileWrite_iff.mpr ?_, rfl⟩
    rw [if_pos hbig]
    exact returns_pure.mpr ⟨rfl, rfl⟩
  · cases hb : s.answer E 512 with
    | none =>
      refine ⟨s.answered .buffer none, h.returns_fileWrite_iff.mpr ?_, rfl⟩
      rw [if_neg hbig]
      refine returns_bind.mpr ⟨_, _, returns_sysMalloc.mpr ⟨hb.symm, rfl⟩, ?_⟩
      exact returns_pure.mpr ⟨rfl, rfl⟩
    | some b =>
      have hab := h.ne_of_heap (E.malloc_fresh hb)
      have hc : (s.alloc b .buffer).answer E 560 = none := by
        cases hc : (s.alloc b .buffer).answer E 560 with
        | none => rfl
        | some c => exact absurd ⟨b, c, hb, hc⟩ hheap
      refine ⟨(s.alloc b .buffer).answered .buffer none, h.returns_fileWrite_iff.mpr ?_,
        Function.update_of_ne hab ..⟩
      rw [if_neg hbig]
      refine returns_bind.mpr ⟨_, _, returns_sysMalloc.mpr ⟨hb.symm, rfl⟩, ?_⟩
      refine returns_bind.mpr ⟨_, _, returns_sysMalloc.mpr ⟨hc.symm, rfl⟩, ?_⟩
      exact returns_pure.mpr ⟨rfl, rfl⟩

/-- A call with its buffers returns what the part behind them returns. -/
theorem Fs.Opened.fileWrite_of_in {b c : ℕ} {t : Fs} (h : s.Opened f a)
    (hb : s.answer E 512 = some b) (hc : (s.alloc b .buffer).answer E 560 = some c)
    (hsize : ((s.inode a).iSize + count) % 2 ^ 32 ≤ 71680)
    (hr : Returns (fileWriteIn E f a buf count) ((s.alloc b .buffer).alloc c .buffer) r t) :
    Returns (fileWrite E f buf count) s r ((t.free E c).free E b) := by
  have hsame : Fs.SameHeap _ t := within_fileWriteIn E f a buf count _ _ _ hr
  rw [h.returns_fileWrite_iff, if_neg (by omega)]
  exact returns_buffers (pure none) hb hc hr hsame.tasks hsame.running

/-- A call that had its buffers went through the part behind them. -/
theorem Fs.Opened.in_of_fileWrite {b c : ℕ} (h : s.Opened f a)
    (hb : s.answer E 512 = some b) (hc : (s.alloc b .buffer).answer E 560 = some c)
    (hsize : ((s.inode a).iSize + count) % 2 ^ 32 ≤ 71680)
    (hr : Returns (fileWrite E f buf count) s r s') :
    ∃ t, Returns (fileWriteIn E f a buf count) ((s.alloc b .buffer).alloc c .buffer) r t ∧
      s' = (t.free E c).free E b := by
  rw [h.returns_fileWrite_iff, if_neg (by omega)] at hr
  rcases buffers_cases hr with ⟨hb', -⟩ | ⟨b', hb', hc', -⟩ | ⟨b', c', t, hb', hc', hr, hs'⟩
  · rw [hb] at hb'
    cases hb'
  · obtain rfl := Option.some.inj (hb.symm.trans hb')
    rw [hc] at hc'
    cases hc'
  · obtain rfl := Option.some.inj (hb.symm.trans hb')
    obtain rfl := Option.some.inj (hc.symm.trans hc')
    exact ⟨t, hr, hs'⟩

theorem BlocksFor.max_eq {size : ℕ} (hu : BlocksFor size u) (hsize : size < 71680) :
    max u 1 = size / 512 + 1 := by
  rw [BlocksFor] at hu
  omega

/-- After a wrap at 32 bits, the part behind the buffers does not give up. -/
theorem FileIntact.fileWriteIn_wrap (h : FileIntact E f a s u content) (hcount : count < 2 ^ 32)
    (hwrap : 2 ^ 32 ≤ (s.inode a).iSize + count) :
    ¬Returns (fileWriteIn E f a buf count) s none s' := by
  intro hret
  have hle := h.holds.le
  have hroom := h.holds.room
  have h0 : u ≠ 0 := by omega
  obtain ⟨s₁, hr₁, h₁, -, hs₁, -⟩ := h.returns_allocFirst fun hz ↦ absurd hz h0
  obtain ⟨-, ans, t, hw, hend⟩ := fileWriteIn_cases hr₁ h₁.live hret
  rw [hs₁] at hw
  rcases hend with ⟨hnone, -⟩ | ⟨all, t₁, t₂, -, heq, -⟩
  · exact writeBlocks_ne_none (by omega) hw hnone
  · cases heq

/-- The first block is there if the call gets as far as it would go wrong. -/
theorem FileIntact.first_of_blocksTaken (h : FileIntact E f a s u content)
    (hfree : s.blocksTaken a count ≤ (freeBlocks E s.blockBitmap).card) :
    u = 0 → 1 ≤ (freeBlocks E s.blockBitmap).card := by
  intro hu
  rw [Fs.blocksTaken, if_pos (h.iSectors_zero_iff.mpr hu)] at hfree
  omega

/-- A file that would get the maximal size stops the call. -/
theorem FileIntact.lt_of_returns (h : FileIntact E f a s u content)
    (hroom : (s.inode a).iSize + count ≤ 71680)
    (hfree : s.blocksTaken a count ≤ (freeBlocks E s.blockBitmap).card)
    (hret : Returns (fileWriteIn E f a buf count) s r s') :
    (s.inode a).iSize + count < 71680 := by
  obtain ⟨s₁, hr₁, h₁, -, hs₁, -⟩ := h.returns_allocFirst (h.first_of_blocksTaken hfree)
  have hwill := (fileWriteIn_cases hr₁ h₁.live hret).1
  rw [hs₁, Nat.mod_eq_of_lt (by omega)] at hwill
  omega

/-- A call that grows the file in another way either stops, or loses the blocks behind the twelfth. -/
theorem FileIntact.lost_of_not_growsWell (h : FileIntact E f a s u content)
    (hd : FreeOnDisk E s.blockBitmap) (hu : BlocksFor (s.inode a).iSize u)
    (hroom : (s.inode a).iSize + count < 71680)
    (hfree : s.blocksTaken a count ≤ (freeBlocks E s.blockBitmap).card)
    (hgrow : ¬GrowsWell ((s.inode a).iSize / 512 + 1) (((s.inode a).iSize + count) / 512 + 1))
    (hret : Returns (fileWriteIn E f a buf count) s r s') :
    12 < (s.inode a).iSize / 512 + 1 ∧ (s'.inode a).blocks s'.disk 12 = 0 := by
  obtain ⟨s₁, hr₁, h₁, -, hs₁, -, hf₁⟩ := h.returns_allocFirst (h.first_of_blocksTaken hfree)
  rw [hu.max_eq (by omega)] at h₁
  obtain ⟨-, ans, t, hw, hend⟩ := fileWriteIn_cases hr₁ h₁.live hret
  rw [hs₁, Nat.mod_eq_of_lt (by omega)] at hw
  rw [GrowsWell] at hgrow
  have hmax : (s.inode a).iSize + count ≠ 71680 := by omega
  rw [Fs.blocksTaken, if_congr h.iSectors_zero_iff rfl rfl, if_neg hmax] at hfree
  by_cases hhas : (s.inode a).iSize / 512 + 1 < 12
  · have htried : blocksTried ((s.inode a).iSize / 512 + 1)
        (((s.inode a).iSize + count) / 512 + 1) = 2 := if_pos ⟨hhas, by omega⟩
    rw [htried] at hfree
    exact absurd hw
      (not_returns_writeBlocks h₁ (hd.allocFirst hr₁) hhas (by omega) (by omega) (by omega))
  · have htried : blocksTried ((s.inode a).iSize / 512 + 1)
        (((s.inode a).iSize + count) / 512 + 1) =
        ((s.inode a).iSize + count) / 512 + 1 - ((s.inode a).iSize / 512 + 1) := by
      rw [blocksTried, if_neg (by omega), blocksNeeded, if_neg (by omega), Nat.add_zero]
    rw [htried] at hfree
    obtain ⟨all, rfl, htab, hino, -, hall⟩ := writeBlocks_behind h₁ (by omega) (by omega) (by omega)
      (by omega) hw
    refine ⟨by omega, ?_⟩
    rcases hend with ⟨heq, -⟩ | ⟨all', t₁, t₂, heq, -, hd₁, hi₁, hloop, hsync⟩
    · cases heq
    · obtain rfl := Option.some.inj heq
      obtain ⟨hsame, hsec⟩ := writeSectors_frame hall hloop
      obtain ⟨hslot, rfl⟩ := returns_inodeSync.mp hsync
      -- neither the sectors nor the slot of the inode are the table
      have hbase := slotBase_le_dataStart h.mounted.part hslot.number
      have hne := h₁.holds.table.mpr (by omega)
      have hdata := h₁.holds.owns.inData 140 (le_refl _) (by rwa [Inode.held_table])
      rw [Inode.held_table] at hdata
      have hsec12 : (t₂.inode a).iSectors 12 = (s₁.inode a).iSectors 12 := by
        rw [hsec, hi₁, hino]
      rw [Fs.store_inode, Fs.store_disk, Inode.blocks, if_neg (by decide), hsec12, if_pos hne]
      have hagree : SameSector t₁.disk (splice t₂.disk (slotBase E ((t₂.inode a).iNo % 2 ^ 8)) 76
          (t₂.inode a).pureInode.encode) ((s₁.inode a).iSectors 12) :=
        Agree.trans hsame (agree_splice (by omega))
      rw [tableAt_congr hagree (by decide), hd₁]
      exact htab

/-- A call that goes to its end has written the inode to a slot of one sector. -/
theorem FileIntact.slot_of_returns (h : FileIntact E f a s u content)
    (hu : BlocksFor (s.inode a).iSize u) (hroom : (s.inode a).iSize + count < 71680)
    (hgrow : GrowsWell ((s.inode a).iSize / 512 + 1) (((s.inode a).iSize + count) / 512 + 1))
    (hfree : s.blocksForWrite a count ≤ (freeBlocks E s.blockBitmap).card)
    (hret : Returns (fileWriteIn E f a buf count) s r s') :
    (s.inode a).iNo % 2 ^ 8 * 76 % 512 ≤ 436 := by
  rw [BlocksFor] at hu
  obtain ⟨t, -, -, -, hno, hiff⟩ := h.returns_fileWriteIn buf (by omega) hroom hgrow hfree
  obtain ⟨hslot, -⟩ := returns_inodeSync.mp ((hiff r s').mp hret).2
  rw [hno] at hslot
  exact (slotAccess_iff h.mounted.part hslot.number).mp hslot

/-- Except in the situations that go wrong early, the blocks a call takes are those it needs. -/
theorem Fs.blocksTaken_eq (hmax : (s.inode a).iSize + count ≠ 71680)
    (hsit : ¬((s.inode a).iSize / 512 + 1 < 12 ∧ 12 < ((s.inode a).iSize + count) / 512 + 1)) :
    s.blocksTaken a count = s.blocksForWrite a count := by
  rw [Fs.blocksTaken, Fs.blocksForWrite, blocksTried, if_neg hmax, if_neg hsit]

theorem GrowsWell.not_mixed {has will : ℕ} (h : GrowsWell has will) : ¬(has < 12 ∧ 12 < will) := by
  rw [GrowsWell] at h
  omega

theorem Fs.blocksTaken_le : s.blocksTaken a count ≤ s.blocksForWrite a count := by
  rw [Fs.blocksTaken, Fs.blocksForWrite, blocksTried, blocksNeeded]
  split_ifs <;> omega

/-- The calls that do what they should. -/
def WriteWorks (E : Env) (a : ℕ) (s : Fs) (count : ℕ) : Prop :=
  ¬s.BuffersSupplied E ∨
    71680 < (s.inode a).iSize + count ∧ (s.inode a).iSize + count < 2 ^ 32 ∨
    (s.inode a).iSize + count ≤ 71680 ∧
      ((freeBlocks E s.blockBitmap).card < s.blocksTaken a count ∨
        (s.inode a).iSize + count < 71680 ∧
        GrowsWell ((s.inode a).iSize / 512 + 1) (((s.inode a).iSize + count) / 512 + 1) ∧
        (s.inode a).iNo % 2 ^ 8 * 76 % 512 ≤ 436)

/-- A call that works meets its limits. -/
theorem FileIntact.writesAs (h : FileIntact E f a s u content) (hd : FreeOnDisk E s.blockBitmap)
    (hu : BlocksFor (s.inode a).iSize u) (hw : WriteWorks E a s count) :
    WritesAs E f a s content buf count := by
  have hle := h.holds.le
  have hsize := h.holds.room
  rcases hw with hheap | ⟨hbig, hwrap⟩ | ⟨hroom, hw⟩
  · obtain ⟨s', hr, hino⟩ := @Fs.Opened.fileWrite_of_no_buffers E s f a buf count h.opened hheap
    exact ⟨⟨none, s', hr, by rw [hino]; omega⟩, fun _ ↦ ⟨s', hr, by rw [hino]⟩,
      fun _ hheap' ↦ absurd hheap' hheap⟩
  · have hr : Returns (fileWrite E f buf count) s none s := by
      rw [h.opened.returns_fileWrite_iff, if_pos (by omega)]
      exact returns_pure.mpr ⟨rfl, rfl⟩
    exact ⟨⟨none, s, hr, by omega⟩, fun _ ↦ ⟨s, hr, rfl⟩, fun hroom ↦ by omega⟩
  · by_cases hheap : s.BuffersSupplied E
    · obtain ⟨b, c, hb, hc⟩ := hheap
      obtain ⟨h₂, hab, hac, hino⟩ := h.buffers hb hc
      rcases hw with hfree | ⟨hlt, hgrow, hslot⟩
      · have hno := @Fs.blocksTaken_le s a count
        obtain ⟨t, hr, hkept⟩ := @FileIntact.fileWriteIn_none E _ f a u content buf count h₂ hd
          (by rwa [hino]) (by rwa [hino]) (by rwa [Fs.blocksTaken, hino])
        have hret := h.opened.fileWrite_of_in hb hc (by omega) hr
        refine ⟨⟨none, _, hret, ?_⟩, fun hbig ↦ by omega, fun _ _ hfor ↦ by omega⟩
        rw [Fs.free_free_inode hab hac, hkept, hino]
        omega
      · have hready : FileReady E f a s u content :=
          ⟨h, (slotAccess_iff h.mounted.part (by omega)).mpr hslot⟩
        by_cases hfree : s.blocksForWrite a count ≤ (freeBlocks E s.blockBitmap).card
        · obtain ⟨s', hr, h', hs'⟩ := hready.returns_fileWrite buf (by rw [BlocksFor] at hu; omega) hlt
            hgrow hfree ⟨b, c, hb, hc⟩
          exact ⟨⟨_, s', hr, by omega⟩, fun hbig ↦ by omega,
            fun _ _ _ ↦ ⟨s', _, hr, hs', h'.holds⟩⟩
        · obtain ⟨t, hr, hkept⟩ := @FileIntact.fileWriteIn_none E _ f a u content buf count h₂ hd
            (by rwa [hino]) (by rwa [hino])
            (by
              have := Fs.blocksTaken_eq hlt.ne hgrow.not_mixed
              rw [Fs.blocksTaken, hino]
              rw [Fs.blocksTaken] at this
              exact this ▸ not_le.mp hfree)
          have hret := h.opened.fileWrite_of_in hb hc (by omega) hr
          refine ⟨⟨none, _, hret, ?_⟩, fun hbig ↦ by omega, fun _ _ hfor ↦ absurd hfor hfree⟩
          rw [Fs.free_free_inode hab hac, hkept, hino]
          omega
    · obtain ⟨s', hr, hino⟩ := @Fs.Opened.fileWrite_of_no_buffers E s f a buf count h.opened hheap
      exact ⟨⟨none, s', hr, by rw [hino]; omega⟩, fun _ ↦ ⟨s', hr, by rw [hino]⟩,
        fun _ hheap' ↦ absurd hheap' hheap⟩

/-- **The limits of a write.** A call meets them exactly if it does not get its buffers, or the sum is
too large without a wrap, or it does not get the blocks on the way, or it leaves the file below the
maximal size, grows it in a way that works, and the slot of the inode lies in one sector. -/
theorem writesAs_iff (h : FileIntact E f a s u content) (hd : FreeOnDisk E s.blockBitmap)
    (hu : BlocksFor (s.inode a).iSize u) (hcount : count < 2 ^ 32) :
    WritesAs E f a s content buf count ↔ WriteWorks E a s count := by
  refine ⟨fun hw ↦ ?_, h.writesAs hd hu⟩
  have hle := h.holds.le
  have hsize := h.holds.room
  by_cases hheap : s.BuffersSupplied E
  · obtain ⟨b, c, hb, hc⟩ := hheap
    obtain ⟨h₂, hab, hac, hino⟩ := h.buffers hb hc
    right
    by_cases hroom : (s.inode a).iSize + count ≤ 71680
    · refine Or.inr ⟨hroom, ?_⟩
      by_cases hfree : s.blocksTaken a count ≤ (freeBlocks E s.blockBitmap).card
      · right
        obtain ⟨r, s', hret, -⟩ := hw.returns
        obtain ⟨t, hin, rfl⟩ := h.opened.in_of_fileWrite hb hc (by omega) hret
        have hfree₂ : ((s.alloc b .buffer).alloc c .buffer).blocksTaken a count ≤
            (freeBlocks E s.blockBitmap).card := by
          rwa [Fs.blocksTaken, hino]
        have hlt := h₂.lt_of_returns (by rwa [hino]) hfree₂ hin
        rw [hino] at hlt
        have hgrow : GrowsWell ((s.inode a).iSize / 512 + 1)
            (((s.inode a).iSize + count) / 512 + 1) := by
          by_contra hgrow
          obtain ⟨hhas, hlost⟩ := h₂.lost_of_not_growsWell hd (by rwa [hino]) (by rwa [hino]) hfree₂
            (by rwa [hino]) hin
          rw [hino] at hhas
          -- the file should have all its blocks
          have hfor : s.blocksForWrite a count ≤ (freeBlocks E s.blockBitmap).card := by
            rwa [← Fs.blocksTaken_eq hlt.ne (by omega)]
          obtain ⟨s', u', hret', hgrown, hholds⟩ := hw.fits hroom ⟨b, c, hb, hc⟩ hfor
          obtain ⟨-, rfl⟩ := hret.unique hret'
          rw [← Fs.free_free_inode (E := E) (t := t) hab hac] at hlost
          have hno := mt (hholds.blocks 12 (by decide)).mpr (not_not.mpr hlost)
          have hroom' := hholds.room
          rw [GrowsWell] at hgrow
          omega
        refine ⟨hlt, hgrow, ?_⟩
        have hslot := h₂.slot_of_returns (by rwa [hino]) (by rwa [hino]) (by rwa [hino])
          (by
            have := Fs.blocksTaken_eq hlt.ne hgrow.not_mixed
            rw [Fs.blocksForWrite, hino]
            rw [Fs.blocksForWrite] at this
            exact this ▸ hfree) hin
        rwa [hino] at hslot
      · exact Or.inl (not_le.mp hfree)
    · refine Or.inl ⟨by omega, ?_⟩
      by_contra hwrap
      obtain ⟨s', hret, -⟩ := hw.tooBig (by omega)
      obtain ⟨t, hin, -⟩ := h.opened.in_of_fileWrite hb hc (by omega) hret
      exact h₂.fileWriteIn_wrap hcount (by rw [hino]; omega) hin
  · exact Or.inl hheap

end Call

/-! ## A file of the maximal size -/

/-- The free blocks of the file system with one empty file lie on the disk. -/
theorem oneFile_freeOnDisk : FreeOnDisk (Env.bump samplePartition) Fs.oneFile.blockBitmap := by
  intro i hi _
  have hstart : (Env.bump samplePartition).part.sb.dataStartLba = 675 := by decide
  have hmax : maxLba = 163839 := by decide
  have hlen : Fs.oneFile.blockBitmap.btmpBytesLen = 512 := rfl
  omega

theorem oneFile_intact :
    FileIntact (Env.bump samplePartition) 3 kHeapStart Fs.oneFile 0 fun _ ↦ 0 :=
  ⟨oneFile_empty.mounted, oneFile_empty.rootBlock, oneFile_empty.fd, oneFile_empty.live,
    fileHolds_empty _ oneFile_empty.iSize oneFile_empty.iSectors⟩

theorem writesAs_iff_oneFile : WritesAs (Env.bump samplePartition) 3 kHeapStart Fs.oneFile
      (fun _ ↦ 0) (fun _ ↦ 1) 1000 ↔
    WriteWorks (Env.bump samplePartition) kHeapStart Fs.oneFile 1000 :=
  writesAs_iff oneFile_intact oneFile_freeOnDisk (Or.inl ⟨rfl, rfl⟩) (by decide)

/-- An empty file cannot be filled with one call. -/
theorem oneFile_not_writesAs :
    FileIntact (Env.bump samplePartition) 3 kHeapStart Fs.oneFile 0 (fun _ ↦ 0) ∧
      (Fs.oneFile.inode kHeapStart).iSize + 71680 = 512 * 140 ∧
      ¬WritesAs (Env.bump samplePartition) 3 kHeapStart Fs.oneFile (fun _ ↦ 0) (fun _ ↦ 1)
        71680 := by
  refine ⟨oneFile_intact, rfl, fun h ↦ ?_⟩
  obtain ⟨r, s', hret, -⟩ := h.returns
  exact not_returns_of_isNone (by decide +kernel) hret

end GlowOS
