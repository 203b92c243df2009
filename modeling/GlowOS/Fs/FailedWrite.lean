import Mathlib
import GlowOS.Fs.WriteLimits

/-!
# Writes that fail

`file_write` allocates its blocks one by one, marks each of them in the bitmap at once and enters it
in the inode. When there is no further block it gives back its two buffers and nothing else. It also
keeps the first buffer if there is no heap for the second one.

A call gives up for want of blocks exactly if fewer are free than it asks for before it stops at an
assertion or has all of them. `Asks` is this statement for a part of the call, and the lemmas about it
follow the way the parts are put together. Nothing is assumed of the inode, which may be the result
of earlier calls that failed.
-/

namespace GlowOS

open Bytes Program

variable {E : Env} {α β : Type}

/-! ## Asking for blocks -/

/-- The program gives up exactly if fewer than `n` blocks are free. -/
def Asks (m : FsM (Option α)) (s : Fs) (n : ℕ) : Prop :=
  (∃ s', Returns m s none s') ↔ s.blockBitmap.freeCount < n

/-- Where the program gives up, no block is free. -/
def EndsFull (m : FsM (Option α)) : Prop :=
  ∀ s s', Returns m s none s' → s'.blockBitmap.freeCount = 0

section Asks

variable {m : FsM (Option α)} {s t : Fs} {n : ℕ}

/-- A program that does not give up asks for nothing. -/
theorem asks_zero (h : ∀ s', ¬Returns m s none s') : Asks m s 0 :=
  iff_of_false (fun ⟨s', hr⟩ ↦ h s' hr) (Nat.not_lt_zero _)

theorem asks_bind {k : FsM β} {f : β → FsM (Option α)} {b : β} (h : Returns k s b t)
    (hfree : t.blockBitmap.freeCount = s.blockBitmap.freeCount) (ha : Asks (f b) t n) :
    Asks (k >>= f) s n := by
  rw [Asks] at ha ⊢
  rw [← hfree, ← ha]
  exact exists_congr fun s' ↦ h.bind_iff

theorem asks_check {p : Prop} [Decidable p] {e : Fault} {f : PUnit → FsM (Option α)} (hp : p)
    (ha : Asks (f PUnit.unit) s n) : Asks (Program.check e p >>= f) s n :=
  asks_bind (returns_check.mpr ⟨hp, rfl⟩ : Returns (Program.check e p) s PUnit.unit s) rfl ha

theorem asks_setInodeAt {a : ℕ} {ino : Inode} {f : PUnit → FsM (Option α)}
    (hlive : s.heap a = some Blk.inode) (ha : Asks (f PUnit.unit) (s.setInode a ino) n) :
    Asks (setInodeAt a ino >>= f) s n :=
  have hset : Returns (setInodeAt a ino) s PUnit.unit _ := returns_setInodeAt.mpr ⟨hlive, rfl⟩
  asks_bind hset rfl ha

/-- What comes behind an allocating part does not give up. -/
theorem asks_then {k : Option α → FsM (Option β)} (hnone : k none = pure none)
    (hsome : ∀ x t s', ¬Returns (k (some x)) t none s') (ha : Asks m s n) :
    Asks (m >>= k) s n := by
  rw [Asks] at ha ⊢
  rw [← ha]
  constructor
  · rintro ⟨s', hr⟩
    obtain ⟨r, t, h1, h2⟩ := returns_bind.mp hr
    cases r with
    | none => exact ⟨t, h1⟩
    | some x => exact absurd h2 (hsome x t s')
  · rintro ⟨s', hr⟩
    refine ⟨s', returns_bind.mpr ⟨none, s', hr, ?_⟩⟩
    rw [hnone]
    exact returns_pure.mpr ⟨rfl, rfl⟩

theorem freeCount_eq_zero_iff {b : Bitmap} : b.freeCount = 0 ↔ b.scan 1 = none := by
  rw [Bitmap.scan_one_eq_none, Bitmap.freeCount, Finset.card_eq_zero, Finset.filter_eq_empty_iff]
  constructor
  · intro h i hi
    simpa using h (Finset.mem_range.mpr hi)
  · intro h i hi
    simp [h i (Finset.mem_range.mp hi)]

/-- An allocation asks for a block, and what follows for the rest. -/
theorem asks_alloc {f : ℕ → FsM (Option α)}
    (ha : ∀ i, s.blockBitmap.scan 1 = some i →
      Asks (f (E.part.sb.dataStartLba + i))
        (s.setBitmap (s.blockBitmap.set i true) .blockBitmap) n) :
    Asks (blockBitmapAlloc E >>= fun r ↦ match r with
      | none => pure none
      | some lba => f lba) s (n + 1) := by
  cases hscan : s.blockBitmap.scan 1 with
  | none =>
    refine iff_of_true ⟨s, returns_bind.mpr ⟨none, s, returns_alloc_none hscan, ?_⟩⟩ ?_
    · exact returns_pure.mpr ⟨rfl, rfl⟩
    · rw [freeCount_eq_zero_iff.mpr hscan]
      exact Nat.succ_pos n
  | some i =>
    obtain ⟨hlt, hbit, -⟩ := Bitmap.scan_one_eq_some.mp hscan
    have hcard := Bitmap.freeCount_set hlt hbit
    have hret : Returns (blockBitmapAlloc E) s _ _ :=
      returns_blockBitmapAlloc.mpr (Or.inr ⟨i, hscan, rfl, rfl⟩)
    have hrest := ha i hscan
    rw [Asks] at hrest ⊢
    change _ ↔ (s.blockBitmap.set i true).freeCount < n at hrest
    rw [← hcard, Nat.add_lt_add_iff_right, ← hrest]
    exact exists_congr fun s' ↦ hret.bind_iff

end Asks

/-! ## The blocks a call asks for -/

/-- The blocks situation 1 asks for: the loop stops behind the first place that is taken. -/
def directAsked (sec : ℕ → ℕ) : ℕ → ℕ → ℕ
  | 0, _ => 0
  | left + 1, k => if sec k = 0 then directAsked sec left (k + 1) + 1 else 1

/-- The blocks a file asks for behind the first one, to grow from `has` blocks to `will`. -/
def Inode.blocksAsked (ino : Inode) (has will : ℕ) : ℕ :=
  if will ≤ has then 0
  else if will ≤ 12 then
    if ino.iSectors (has - 1) = 0 then 0 else directAsked ino.iSectors (will - has) has
  else if has ≤ 12 then
    if ino.iSectors 12 ≠ 0 then 1 else if has < 12 then 2 else will - has + 1
  else if ino.iSectors 12 = 0 then 0 else will - has

/-- The inode with a first block. -/
def Inode.withFirst (ino : Inode) : Inode :=
  if ino.iSectors 0 = 0 then ino.setSector 0 1 else ino

/-- The blocks `file_write` asks for until it stops or has all of them. -/
def Inode.asksFor (ino : Inode) (count : ℕ) : ℕ :=
  (if ino.iSectors 0 = 0 then 1 else 0) +
    if 140 < (ino.iSize + count) % 2 ^ 32 / 512 + 1 then 0
    else ino.withFirst.blocksAsked (ino.iSize / 512 + 1) ((ino.iSize + count) % 2 ^ 32 / 512 + 1)

theorem directAsked_congr {sec sec' : ℕ → ℕ} {left k : ℕ}
    (h : ∀ j, k ≤ j → (sec j = 0 ↔ sec' j = 0)) : directAsked sec left k = directAsked sec' left k := by
  induction left generalizing k with
  | zero => rfl
  | succ left ih =>
    rw [directAsked, directAsked, if_congr (h k (le_refl k)) rfl rfl,
      ih fun j hj ↦ h j (by omega)]

theorem Inode.blocksAsked_congr {i j : Inode} (h : ∀ k, i.iSectors k = 0 ↔ j.iSectors k = 0)
    (has will : ℕ) : i.blocksAsked has will = j.blocksAsked has will := by
  rw [Inode.blocksAsked, Inode.blocksAsked, if_congr (h (has - 1)) rfl rfl,
    if_congr (not_congr (h 12)) rfl rfl, if_congr (h 12) rfl rfl,
    directAsked_congr fun k _ ↦ h k]

section Parts

variable {s t : Fs} {a has will : ℕ}

/-- The partition is mounted, and the block in use is in memory. -/
structure Fs.Writable (E : Env) (s : Fs) (a : ℕ) : Prop where
  mounted : s.Mounted E
  rootBlock : s.blockBitmap.bit 0 = true
  live : s.heap a = some Blk.inode

/-- The block found is not the one of the root directory. -/
theorem Fs.Writable.ne_zero {i : ℕ} (h : s.Writable E a) (hi : s.blockBitmap.scan 1 = some i) :
    i ≠ 0 := by
  rintro rfl
  have hbit := (Bitmap.scan_one_eq_some.mp hi).2.1
  rw [h.rootBlock] at hbit
  cases hbit

theorem Fs.Writable.mark (h : s.Writable E a) (i : ℕ) :
    (s.setBitmap (s.blockBitmap.set i true) .blockBitmap).Writable E a := by
  refine ⟨⟨h.mounted.part, h.mounted.blockLen, h.mounted.inodeLen⟩, ?_, h.live⟩
  change (s.blockBitmap.set i true).bit 0 = true
  rw [Bitmap.bit_set, h.rootBlock, ite_self]

theorem Fs.Writable.takeBlock (h : s.Writable E a) (i : ℕ) : (s.takeBlock E i).Writable E a :=
  ⟨⟨h.mounted.part, h.mounted.blockLen, h.mounted.inodeLen⟩, (h.mark i).rootBlock, h.live⟩

theorem Fs.Writable.setInode (h : s.Writable E a) (ino : Inode) :
    (s.setInode a ino).Writable E a :=
  ⟨⟨h.mounted.part, h.mounted.blockLen, h.mounted.inodeLen⟩, h.rootBlock, h.live⟩

/-- After the block `i` was marked, and something was done with it, the bitmap is written. -/
theorem asks_sync {α : Type} {f : PUnit → FsM (Option α)} {n i : ℕ} (hm : t.Mounted E)
    (hi : i < 8 * t.blockBitmap.btmpBytesLen)
    (ha : Asks (f PUnit.unit) (t.syncedBitmap E i .blockBitmap) n) :
    Asks (bitmapSync E (blockBitmapIdx E (E.part.sb.dataStartLba + i)) .blockBitmap >>= f) t n := by
  rw [blockBitmapIdx_add (hm.bit_lt hi)]
  exact asks_bind (returns_sync_of_mounted hm hi) rfl ha

/-- The loops without a place in the inode ask for all their blocks. -/
theorem asks_behind {place : ℕ → ℕ → FsM PUnit} {left k : ℕ} {all : ℕ → ℕ}
    (h : s.Writable E a) (hplace : ∀ m lba, k ≤ m → place m lba = pure PUnit.unit) :
    Asks (allocBlocks E place left k all) s left := by
  induction left generalizing s k all with
  | zero => exact asks_zero fun s' hr ↦ Option.some_ne_none _ (returns_pure.mp hr).1.symm
  | succ left ih =>
    refine asks_alloc fun i hi ↦ ?_
    rw [hplace k _ (le_refl k)]
    have hlen := (Bitmap.scan_one_eq_some.mp hi).1
    refine asks_bind (returns_pure.mpr ⟨rfl, rfl⟩) rfl (asks_sync (h.mark i).mounted hlen ?_)
    exact ih (h.takeBlock i) fun m lba hm ↦ hplace m lba (by omega)

/-- The loop of situation 1. -/
theorem asks_direct {left k : ℕ} {all : ℕ → ℕ} (h : s.Writable E a) (hle : k + left ≤ 13) :
    Asks (allocBlocks E (placeDirect a) left k all) s (directAsked (s.inode a).iSectors left k) := by
  induction left generalizing s k all with
  | zero => exact asks_zero fun s' hr ↦ Option.some_ne_none _ (returns_pure.mp hr).1.symm
  | succ left ih =>
    have hcount : directAsked (s.inode a).iSectors (left + 1) k =
        (if (s.inode a).iSectors k = 0 then directAsked (s.inode a).iSectors left (k + 1) else 0) +
          1 := by
      rw [directAsked]
      split_ifs <;> rfl
    rw [hcount]
    refine asks_alloc fun i hi ↦ ?_
    have hlen := (Bitmap.scan_one_eq_some.mp hi).1
    set lba := E.part.sb.dataStartLba + i
    split_ifs with h0
    · have hplace : Returns (placeDirect a k lba)
          (s.setBitmap (s.blockBitmap.set i true) .blockBitmap) PUnit.unit
          ((s.setBitmap (s.blockBitmap.set i true) .blockBitmap).setInode a
            ((s.inode a).setSector k lba)) := by
        refine returns_bind.mpr ⟨_, _, returns_inodeAt.mpr ⟨h.live, rfl, rfl⟩, ?_⟩
        exact returns_check_bind.mpr ⟨h0, returns_setInodeAt.mpr ⟨h.live, rfl⟩⟩
      refine asks_bind hplace rfl (asks_sync ((h.mark i).setInode _).mounted hlen ?_)
      have hnext := @ih ((s.takeBlock E i).setInode a ((s.inode a).setSector k lba)) (k + 1)
        (Function.update all k lba) ((h.takeBlock i).setInode _) (by omega)
      rw [Fs.setInode_inode, Function.update_self] at hnext
      rw [@directAsked_congr _ ((s.inode a).setSector k lba).iSectors _ _ fun j hj ↦ by
        rw [Inode.setSector_of_ne _ (by omega)]]
      exact hnext
    · refine asks_zero fun s' hr ↦ ?_
      obtain ⟨_, t, hp, -⟩ := returns_bind.mp hr
      obtain ⟨ino, t', h1, hp⟩ := returns_bind.mp hp
      obtain ⟨-, rfl, rfl⟩ := returns_inodeAt.mp h1
      exact h0 (returns_check_bind.mp hp).1

/-- A direct block behind the twelfth place stops the loop of situation 2. -/
theorem asks_mixed {left k : ℕ} {all : ℕ → ℕ} (h : s.Writable E a) (hk : k < 12)
    (hleft : left ≠ 0) : Asks (allocBlocks E (placeMixed a) left k all) s 1 := by
  obtain ⟨left, rfl⟩ := Nat.exists_eq_succ_of_ne_zero hleft
  refine asks_alloc fun i _ ↦ asks_zero fun s' hr ↦ ?_
  have hstart := h.mounted.part.dataStartLba_eq
  obtain ⟨_, t, hp, -⟩ := returns_bind.mp hr
  rw [placeMixed, if_pos hk] at hp
  obtain ⟨ino, t', -, hp⟩ := returns_bind.mp hp
  have := (returns_check_bind.mp hp).1
  omega

theorem asks_writeBlocks (h : s.Writable E a) (hwill : will ≤ 140) :
    Asks (writeBlocks E a has will) s ((s.inode a).blocksAsked has will) := by
  rw [Inode.blocksAsked]
  by_cases hle : will ≤ has
  · rw [if_pos hle]
    exact asks_zero fun s' hr ↦ writeBlocks_ne_none hle hr rfl
  · rw [if_neg hle]
    refine asks_bind (returns_inodeAt.mpr ⟨h.live, rfl, rfl⟩) rfl ?_
    rw [if_neg (by omega)]
    by_cases h12 : will ≤ 12
    · -- situation 1
      rw [if_pos h12, if_pos h12]
      refine asks_check (by omega) ?_
      by_cases hlast : (s.inode a).iSectors (has - 1) = 0
      · rw [if_pos hlast]
        exact asks_zero fun s' hr ↦ (returns_check_bind.mp hr).1 hlast
      · rw [if_neg hlast]
        exact asks_check hlast (asks_direct h (by omega))
    · rw [if_neg h12, if_neg h12]
      by_cases hhas : has ≤ 12
      · -- situation 2
        rw [if_pos hhas, if_pos hhas]
        have hcount : (if (s.inode a).iSectors 12 ≠ 0 then 1
            else if has < 12 then 2 else will - has + 1) =
            (if (s.inode a).iSectors 12 ≠ 0 then 0 else if has < 12 then 1 else will - has) + 1 := by
          split_ifs <;> rfl
        rw [hcount]
        refine asks_alloc fun i hi ↦ ?_
        have hlen := (Bitmap.scan_one_eq_some.mp hi).1
        by_cases htab : (s.inode a).iSectors 12 ≠ 0
        · rw [if_pos htab]
          exact asks_zero fun s' hr ↦ htab (returns_check_bind.mp hr).1
        · rw [if_neg htab]
          have hset := (h.mark i).setInode ((s.inode a).setSector 12 (E.part.sb.dataStartLba + i))
          refine asks_check (not_not.mp htab) ?_
          refine asks_setInodeAt h.live (asks_sync hset.mounted hlen ?_)
          refine asks_then rfl (fun all t s' hr ↦ ?_) ?_
          · obtain ⟨_, t', -, hr⟩ := returns_bind.mp hr
            exact Option.some_ne_none _ (returns_pure.mp hr).1.symm
          · have hw := (h.takeBlock i).setInode ((s.inode a).setSector 12 (E.part.sb.dataStartLba + i))
            split_ifs with hlt
            · exact asks_mixed hw hlt (by omega)
            · exact asks_behind hw fun m lba hm ↦ if_neg (by omega)
      · -- situation 3
        rw [if_neg hhas, if_neg hhas]
        by_cases htab : (s.inode a).iSectors 12 = 0
        · rw [if_pos htab]
          exact asks_zero fun s' hr ↦ (returns_check_bind.mp hr).1 htab
        · rw [if_neg htab]
          refine asks_check htab ?_
          refine asks_then rfl (fun all t s' hr ↦ ?_) (asks_behind h fun _ _ _ ↦ rfl)
          obtain ⟨_, t', -, hr⟩ := returns_bind.mp hr
          exact Option.some_ne_none _ (returns_pure.mp hr).1.symm

/-- `file_write` behind the first block. -/
def fileWriteBehind (E : Env) (f a : ℕ) (buf : Image) (count : ℕ) : FsM (Option ℕ) := do
  let ino ← inodeAt a
  let has := ino.iSize / 512 + 1
  let will := (ino.iSize + count) % 2 ^ 32 / 512 + 1
  ASSERT (will ≤ 140)
  match ← writeBlocks E a has will with
  | none => pure none
  | some allBlocks => do
    let ino ← inodeAt a
    modify fun s ↦ s.setFile f { s.fileTable f with fdPos := (ino.iSize + 2 ^ 32 - 1) % 2 ^ 32 }
    writeSectors E f a buf allBlocks count 0 count true
    let ino ← inodeAt a
    inodeSync E ino 512
    pure (some count)

theorem fileWriteIn_eq (E : Env) (f a : ℕ) (buf : Image) (count : ℕ) :
    fileWriteIn E f a buf count =
      (do if ← allocFirst E a then fileWriteBehind E f a buf count else pure none) := rfl

/-- The blocks asked for behind the first one. -/
theorem asks_rest {buf : Image} {f count : ℕ} (h : s.Writable E a) :
    Asks (fileWriteBehind E f a buf count) s
      (if 140 < ((s.inode a).iSize + count) % 2 ^ 32 / 512 + 1 then 0
      else (s.inode a).blocksAsked ((s.inode a).iSize / 512 + 1)
        (((s.inode a).iSize + count) % 2 ^ 32 / 512 + 1)) := by
  refine asks_bind (returns_inodeAt.mpr ⟨h.live, rfl, rfl⟩) rfl ?_
  by_cases hbig : 140 < ((s.inode a).iSize + count) % 2 ^ 32 / 512 + 1
  · rw [if_pos hbig]
    exact asks_zero fun s' hr ↦ by
      have := (returns_check_bind.mp hr).1
      omega
  · rw [if_neg hbig]
    refine asks_check (not_lt.mp hbig)
      (asks_then rfl (fun all t s' hr ↦ ?_) (asks_writeBlocks h (not_lt.mp hbig)))
    -- behind the blocks, the number of bytes is returned
    obtain ⟨ino, t₁, -, hr⟩ := returns_bind.mp hr
    obtain ⟨_, t₂, -, hr⟩ := returns_bind.mp (returns_modify_bind.mp hr)
    obtain ⟨ino, t₃, -, hr⟩ := returns_bind.mp hr
    obtain ⟨_, t₄, -, hr⟩ := returns_bind.mp hr
    exact Option.some_ne_none _ (returns_pure.mp hr).1.symm

/-- A file that has a first block gets no other one. -/
theorem returns_allocFirst_of_ne (h : s.Writable E a) (h0 : (s.inode a).iSectors 0 ≠ 0) :
    Returns (allocFirst E a) s true s := by
  rw [allocFirst, returns_inodeAt_bind h.live, if_neg h0]
  exact returns_pure.mpr ⟨rfl, rfl⟩

/-- The first block is entered in the inode. -/
theorem returns_allocFirst_of_free {i : ℕ} (h : s.Writable E a) (h0 : (s.inode a).iSectors 0 = 0)
    (hi : s.blockBitmap.scan 1 = some i) :
    Returns (allocFirst E a) s true
      ((s.takeBlock E i).setInode a ((s.inode a).setSector 0 (E.part.sb.dataStartLba + i))) := by
  obtain ⟨hret, hidx, hsync⟩ := returns_alloc_of_free h.mounted hi
  obtain ⟨h1, h2, -⟩ := returns_bitmapSync.mp hsync
  rw [allocFirst, returns_inodeAt_bind h.live, if_pos h0, hret.bind_iff]
  refine returns_bind.mpr ⟨PUnit.unit, _, returns_setInodeAt.mpr ⟨h.live, rfl⟩, ?_⟩
  rw [returns_check_bind, hidx]
  exact ⟨h.ne_zero hi, returns_bind.mpr ⟨PUnit.unit, _, returns_bitmapSync.mpr ⟨h1, h2, rfl⟩,
    returns_pure.mpr ⟨rfl, rfl⟩⟩⟩

/-- **`file_write` behind its buffers** gives up exactly if it asks for more blocks than are free. -/
theorem asks_fileWriteIn {buf : Image} {f count : ℕ} (h : s.Writable E a) :
    Asks (fileWriteIn E f a buf count) s ((s.inode a).asksFor count) := by
  rw [Inode.asksFor]
  by_cases h0 : (s.inode a).iSectors 0 = 0
  · rw [if_pos h0]
    cases hscan : s.blockBitmap.scan 1 with
    | none =>
      have hfalse : Returns (allocFirst E a) s false s := by
        rw [allocFirst, returns_inodeAt_bind h.live, if_pos h0]
        exact returns_bind.mpr ⟨_, _, returns_alloc_none hscan, returns_pure.mpr ⟨rfl, rfl⟩⟩
      refine iff_of_true ⟨s, ?_⟩ ?_
      · rw [fileWriteIn, hfalse.bind_iff]
        exact returns_pure.mpr ⟨rfl, rfl⟩
      · rw [freeCount_eq_zero_iff.mpr hscan]
        omega
    | some i =>
      have hlba : E.part.sb.dataStartLba + i ≠ 0 := by
        have := h.mounted.part.dataStartLba_eq
        omega
      have hret := returns_allocFirst_of_free h h0 hscan
      have hw := (h.takeBlock i).setInode ((s.inode a).setSector 0 (E.part.sb.dataStartLba + i))
      have hrest := @asks_rest E _ a buf f count hw
      have hsize : ((s.inode a).setSector 0 (E.part.sb.dataStartLba + i)).iSize =
          (s.inode a).iSize := rfl
      have hzero : ∀ k, ((s.inode a).setSector 0 (E.part.sb.dataStartLba + i)).iSectors k = 0 ↔
          ((s.inode a).withFirst).iSectors k = 0 := by
        intro k
        rw [Inode.withFirst, if_pos h0]
        by_cases hk : k = 0
        · rw [hk, Inode.setSector_self, Inode.setSector_self]
          exact iff_of_false hlba one_ne_zero
        · rw [Inode.setSector_of_ne _ hk, Inode.setSector_of_ne _ hk]
      rw [Fs.setInode_inode, Function.update_self, hsize, Inode.blocksAsked_congr hzero] at hrest
      obtain ⟨hlt, hbit, -⟩ := Bitmap.scan_one_eq_some.mp hscan
      have hcard := Bitmap.freeCount_set hlt hbit
      rw [Asks] at hrest ⊢
      change _ ↔ (s.blockBitmap.set i true).freeCount < _ at hrest
      rw [← hcard, Nat.add_comm 1, Nat.add_lt_add_iff_right, ← hrest]
      refine exists_congr fun s' ↦ ?_
      rw [fileWriteIn, hret.bind_iff, if_pos rfl]
      exact Iff.rfl
  · rw [if_neg h0, Nat.zero_add, Inode.withFirst, if_neg h0]
    have hret := returns_allocFirst_of_ne h h0
    rw [fileWriteIn]
    refine asks_bind hret rfl ?_
    rw [if_pos rfl]
    exact asks_rest h

end Parts

/-! ## Where a call gives up -/

section EndsFull

variable {m : FsM (Option α)}

theorem endsFull_some {x : α} : EndsFull (pure (some x) : FsM (Option α)) :=
  fun _ _ h ↦ absurd (returns_pure.mp h).1.symm (Option.some_ne_none x)

theorem endsFull_bind {k : FsM β} {f : β → FsM (Option α)} (h : ∀ b, EndsFull (f b)) :
    EndsFull (k >>= f) := by
  intro s s' hr
  obtain ⟨b, t, -, hr⟩ := returns_bind.mp hr
  exact h b t s' hr

theorem endsFull_ite {p : Prop} [Decidable p] {m' : FsM (Option α)} (h : EndsFull m)
    (h' : EndsFull m') : EndsFull (if p then m else m') := by
  split_ifs
  · exact h
  · exact h'

theorem endsFull_then {k : Option α → FsM (Option β)} (hnone : k none = pure none)
    (hm : EndsFull m) (hsome : ∀ x, EndsFull (k (some x))) : EndsFull (m >>= k) := by
  intro s s' hr
  obtain ⟨r, t, h1, h2⟩ := returns_bind.mp hr
  cases r with
  | none =>
    rw [hnone] at h2
    obtain ⟨-, rfl⟩ := returns_pure.mp h2
    exact hm s s' h1
  | some x => exact hsome x t s' h2

theorem endsFull_alloc : EndsFull (blockBitmapAlloc E) := by
  intro s s' hr
  rcases returns_blockBitmapAlloc.mp hr with ⟨hnone, -, rfl⟩ | ⟨i, -, hsome, -⟩
  · exact freeCount_eq_zero_iff.mpr hnone
  · cases hsome

theorem endsFull_allocBlocks {place : ℕ → ℕ → FsM PUnit} {left k : ℕ} {all : ℕ → ℕ} :
    EndsFull (allocBlocks E place left k all) := by
  induction left generalizing k all with
  | zero => exact endsFull_some
  | succ left ih =>
    exact endsFull_then rfl endsFull_alloc fun lba ↦ endsFull_bind fun _ ↦ endsFull_bind fun _ ↦ ih

theorem endsFull_writeBlocks {a has will : ℕ} : EndsFull (writeBlocks E a has will) := by
  refine endsFull_bind fun ino ↦ endsFull_ite (endsFull_ite endsFull_some ?_)
    (endsFull_ite ?_ (endsFull_ite ?_ ?_))
  · exact endsFull_bind fun _ ↦ endsFull_bind fun _ ↦ endsFull_some
  · exact endsFull_bind fun _ ↦ endsFull_bind fun _ ↦ endsFull_allocBlocks
  · refine endsFull_then rfl endsFull_alloc fun lba ↦ endsFull_bind fun _ ↦ endsFull_bind fun _ ↦
      endsFull_bind fun _ ↦ ?_
    exact endsFull_then rfl endsFull_allocBlocks fun all ↦ endsFull_bind fun _ ↦ endsFull_some
  · refine endsFull_bind fun _ ↦ endsFull_then rfl endsFull_allocBlocks fun all ↦ ?_
    exact endsFull_bind fun _ ↦ endsFull_some

theorem allocFirst_false {s s' : Fs} {a : ℕ} (h : Returns (allocFirst E a) s false s') :
    s'.blockBitmap.freeCount = 0 := by
  obtain ⟨ino, t, h1, h⟩ := returns_bind.mp h
  rcases returns_ite.mp h with ⟨-, h⟩ | ⟨-, h⟩
  · obtain ⟨r, t', h2, h⟩ := returns_bind.mp h
    cases r with
    | none =>
      obtain ⟨-, rfl⟩ := returns_pure.mp h
      exact endsFull_alloc t s' h2
    | some lba =>
      obtain ⟨_, t₁, -, h⟩ := returns_bind.mp h
      obtain ⟨_, t₂, -, h⟩ := returns_bind.mp (returns_check_bind.mp h).2
      cases (returns_pure.mp h).1
  · cases (returns_pure.mp h).1

/-- `file_write` gives up behind its buffers only when no block is free. -/
theorem endsFull_fileWriteIn {f a count : ℕ} {buf : Image} :
    EndsFull (fileWriteIn E f a buf count) := by
  intro s s' hr
  rw [fileWriteIn_eq] at hr
  obtain ⟨first, t, h1, hr⟩ := returns_bind.mp hr
  cases first with
  | false =>
    obtain ⟨-, rfl⟩ := returns_pure.mp hr
    exact allocFirst_false h1
  | true =>
    have hrest : EndsFull (fileWriteBehind E f a buf count) :=
      endsFull_bind fun ino ↦ endsFull_bind fun _ ↦ endsFull_then rfl endsFull_writeBlocks fun all ↦
        endsFull_bind fun _ ↦ endsFull_bind fun _ ↦ endsFull_bind fun _ ↦ endsFull_bind fun _ ↦
          endsFull_bind fun _ ↦ endsFull_some
    exact hrest t s' hr

end EndsFull

/-! ## Giving up at once -/

/-- If no block is free, the program gives up where it was started, or not at all. -/
def StaysPut (m : FsM (Option α)) (s : Fs) : Prop :=
  s.blockBitmap.freeCount = 0 → ∀ s', Returns m s none s' → s' = s

section StaysPut

variable {m : FsM (Option α)} {s : Fs} {a has will : ℕ}

theorem staysPut_zero (h : ∀ s', ¬Returns m s none s') : StaysPut m s :=
  fun _ s' hr ↦ absurd hr (h s')

theorem staysPut_check {p : Prop} [Decidable p] {e : Fault} {f : PUnit → FsM (Option α)}
    (h : StaysPut (f PUnit.unit) s) : StaysPut (Program.check e p >>= f) s :=
  fun hfree s' hr ↦ h hfree s' (returns_check_bind.mp hr).2

theorem staysPut_ite {p : Prop} [Decidable p] {m' : FsM (Option α)} (h : StaysPut m s)
    (h' : StaysPut m' s) : StaysPut (if p then m else m') s := by
  split_ifs
  · exact h
  · exact h'

theorem staysPut_inodeAt {f : Inode → FsM (Option α)} (h : StaysPut (f (s.inode a)) s) :
    StaysPut (inodeAt a >>= f) s := by
  intro hfree s' hr
  obtain ⟨ino, t, h1, hr⟩ := returns_bind.mp hr
  obtain ⟨-, rfl, rfl⟩ := returns_inodeAt.mp h1
  exact h hfree s' hr

theorem staysPut_then {k : Option α → FsM (Option β)} (hnone : k none = pure none)
    (hsome : ∀ x t s', ¬Returns (k (some x)) t none s') (h : StaysPut m s) :
    StaysPut (m >>= k) s := by
  intro hfree s' hr
  obtain ⟨r, t, h1, h2⟩ := returns_bind.mp hr
  cases r with
  | none =>
    rw [hnone] at h2
    obtain ⟨-, rfl⟩ := returns_pure.mp h2
    exact h hfree s' h1
  | some x => exact absurd h2 (hsome x t s')

theorem staysPut_alloc {k : Option ℕ → FsM (Option α)} (hnone : k none = pure none) :
    StaysPut (blockBitmapAlloc E >>= k) s := by
  intro hfree s' hr
  have hret := returns_alloc_none (E := E) (freeCount_eq_zero_iff.mp hfree)
  rw [hret.bind_iff, hnone] at hr
  exact (returns_pure.mp hr).2

theorem staysPut_allocBlocks {place : ℕ → ℕ → FsM PUnit} {left k : ℕ} {all : ℕ → ℕ} :
    StaysPut (allocBlocks E place left k all) s := by
  cases left with
  | zero => exact staysPut_zero fun s' hr ↦ Option.some_ne_none _ (returns_pure.mp hr).1.symm
  | succ left => exact staysPut_alloc rfl

theorem staysPut_writeBlocks : StaysPut (writeBlocks E a has will) s := by
  refine staysPut_inodeAt (staysPut_ite (staysPut_ite ?_ ?_) (staysPut_ite ?_ (staysPut_ite ?_ ?_)))
  · exact staysPut_zero fun s' hr ↦ Option.some_ne_none _ (returns_pure.mp hr).1.symm
  · refine staysPut_check (staysPut_zero fun s' hr ↦ ?_)
    obtain ⟨all, t, -, hr⟩ := returns_bind.mp hr
    exact Option.some_ne_none _ (returns_pure.mp hr).1.symm
  · exact staysPut_check (staysPut_check staysPut_allocBlocks)
  · exact staysPut_alloc rfl
  · refine staysPut_check (staysPut_then rfl (fun all t s' hr ↦ ?_) staysPut_allocBlocks)
    obtain ⟨_, t', -, hr⟩ := returns_bind.mp hr
    exact Option.some_ne_none _ (returns_pure.mp hr).1.symm

theorem staysPut_fileWriteIn {f count : ℕ} {buf : Image} (h : s.Writable E a) :
    StaysPut (fileWriteIn E f a buf count) s := by
  intro hfree s' hr
  rw [fileWriteIn_eq] at hr
  by_cases h0 : (s.inode a).iSectors 0 = 0
  · have hfalse : Returns (allocFirst E a) s false s := by
      rw [allocFirst, returns_inodeAt_bind h.live, if_pos h0]
      exact returns_bind.mpr ⟨_, _, returns_alloc_none (freeCount_eq_zero_iff.mp hfree),
        returns_pure.mpr ⟨rfl, rfl⟩⟩
    rw [hfalse.bind_iff] at hr
    exact (returns_pure.mp hr).2
  · rw [(returns_allocFirst_of_ne h h0).bind_iff, if_pos rfl] at hr
    have hput : StaysPut (fileWriteBehind E f a buf count) s := by
      refine staysPut_inodeAt (staysPut_check (staysPut_then rfl (fun all t s' hr ↦ ?_)
        staysPut_writeBlocks))
      obtain ⟨ino, t₁, -, hr⟩ := returns_bind.mp hr
      obtain ⟨_, t₂, -, hr⟩ := returns_bind.mp (returns_modify_bind.mp hr)
      obtain ⟨ino, t₃, -, hr⟩ := returns_bind.mp hr
      obtain ⟨_, t₄, -, hr⟩ := returns_bind.mp hr
      exact Option.some_ne_none _ (returns_pure.mp hr).1.symm
    exact hput hfree s' hr

end StaysPut

/-! ## The trace of a call -/

section Trace

variable {s s' : Fs} {f a count : ℕ} {buf : Image}

/-- What a failed write must leave as it was: the size and the pointers of the inode, the disk with the
indirect table and the bitmap on it, the bitmap in memory, and the live blocks of the heap. -/
structure Untouched (a : ℕ) (s s' : Fs) : Prop where
  iSize : (s'.inode a).iSize = (s.inode a).iSize
  iSectors : (s'.inode a).iSectors = (s.inode a).iSectors
  disk : s'.disk = s.disk
  blockBitmap : s'.blockBitmap = s.blockBitmap
  heap : s'.heap = s.heap

/-- A call that fails leaves everything as it was. -/
def NoTrace (E : Env) (f a : ℕ) (s : Fs) (buf : Image) (count : ℕ) : Prop :=
  ∀ s', Returns (fileWrite E f buf count) s none s' → Untouched a s s'

/-- The call passes the test of the size and gets one buffer but not the other, or it gets both and
finds some of the blocks it asks for. -/
def LeavesTrace (E : Env) (a : ℕ) (s : Fs) (count : ℕ) : Prop :=
  ((s.inode a).iSize + count) % 2 ^ 32 ≤ 71680 ∧
    ((∃ b, s.answer E 512 = some b ∧ (s.alloc b .buffer).answer E 560 = none) ∨
      s.BuffersSupplied E ∧ 0 < s.blockBitmap.freeCount ∧
        s.blockBitmap.freeCount < (s.inode a).asksFor count)

/-- Two blocks that are allocated and given back leave the heap as it was. -/
theorem heap_of_buffers {b c : ℕ} (hb : s.answer E 512 = some b)
    (hc : (s.alloc b .buffer).answer E 560 = some c) :
    ((((s.alloc b .buffer).alloc c .buffer).free E c).free E b).heap = s.heap := by
  have hb0 : s.heap b = none := E.malloc_fresh hb
  have hc0 : (s.alloc b .buffer).heap c = none := E.malloc_fresh hc
  have hcb : c ≠ b := by
    rintro rfl
    rw [show (s.alloc c .buffer).heap c = some Blk.buffer from Function.update_self ..] at hc0
    cases hc0
  have hc1 : s.heap c = none := by
    rwa [show (s.alloc b .buffer).heap c = s.heap c from Function.update_of_ne hcb ..] at hc0
  funext x
  change Function.update (Function.update (Function.update (Function.update s.heap b _) c _) c none)
    b none x = s.heap x
  by_cases hxb : x = b
  · rw [hxb, Function.update_self, hb0]
  · by_cases hxc : x = c
    · rw [Function.update_of_ne hxb, hxc, Function.update_self, hc1]
    · rw [Function.update_of_ne hxb, Function.update_of_ne hxc, Function.update_of_ne hxc,
        Function.update_of_ne hxb]

/-- The buffers are other blocks than the inode. -/
theorem ne_buffers {b c : ℕ} (hlive : s.heap a = some Blk.inode) (hb : s.answer E 512 = some b)
    (hc : (s.alloc b .buffer).answer E 560 = some c) : a ≠ b ∧ a ≠ c := by
  have hb0 : s.heap b = none := E.malloc_fresh hb
  have hc0 : (s.alloc b .buffer).heap c = none := E.malloc_fresh hc
  have hab : a ≠ b := by
    rintro rfl
    rw [hb0] at hlive
    cases hlive
  refine ⟨hab, ?_⟩
  rintro rfl
  rw [show (s.alloc b .buffer).heap a = s.heap a from Function.update_of_ne hab .., hlive] at hc0
  cases hc0

theorem Fs.Writable.buffers {b c : ℕ} (h : s.Writable E a) (hb : s.answer E 512 = some b)
    (hc : (s.alloc b .buffer).answer E 560 = some c) :
    ((s.alloc b .buffer).alloc c .buffer).Writable E a ∧
      ((s.alloc b .buffer).alloc c .buffer).inode a = s.inode a := by
  obtain ⟨hab, hac⟩ := ne_buffers h.live hb hc
  refine ⟨⟨⟨h.mounted.part, h.mounted.blockLen, h.mounted.inodeLen⟩, h.rootBlock, ?_⟩, ?_⟩
  · exact (Function.update_of_ne hac ..).trans ((Function.update_of_ne hab ..).trans h.live)
  · exact (Function.update_of_ne hac ..).trans (Function.update_of_ne hab ..)

/-- What a call has taken when it fails is lost. -/
theorem LeavesTrace.not_noTrace (hl : LeavesTrace E a s count) (h : s.Writable E a)
    (hfd : (s.fileTable f).fdInode = some a) : ¬NoTrace E f a s buf count := by
  have hopen : s.Opened f a := ⟨hfd, h.live⟩
  intro hno
  obtain ⟨hsize, ⟨b, hb, hc⟩ | ⟨⟨b, c, hb, hc⟩, hfree, hasks⟩⟩ := hl
  · -- the first buffer
    have hret : Returns (fileWrite E f buf count) s none
        ((s.alloc b .buffer).answered .buffer none) := by
      rw [hopen.returns_fileWrite_iff, if_neg (by omega)]
      refine returns_bind.mpr ⟨_, _, returns_sysMalloc.mpr ⟨hb.symm, rfl⟩, ?_⟩
      refine returns_bind.mpr ⟨_, _, returns_sysMalloc.mpr ⟨hc.symm, rfl⟩, ?_⟩
      exact returns_pure.mpr ⟨rfl, rfl⟩
    have hheap := congrFun (hno _ hret).heap b
    rw [E.malloc_fresh hb] at hheap
    change Function.update s.heap b (some Blk.buffer) b = none at hheap
    rw [Function.update_self] at hheap
    cases hheap
  · -- the blocks that were found
    obtain ⟨h₂, hino⟩ := h.buffers hb hc
    obtain ⟨t, hin⟩ := (@asks_fileWriteIn E _ a buf f count h₂).mpr (by rwa [hino])
    have hret := hopen.fileWrite_of_in hb hc hsize hin
    have hfull : t.blockBitmap.freeCount = 0 := endsFull_fileWriteIn _ _ hin
    have hbits : t.blockBitmap = s.blockBitmap := (hno _ hret).blockBitmap
    rw [hbits] at hfull
    omega

/-- **Failed writes** leave no trace exactly if they do not find the first buffer without the second
one, and do not run out of blocks after they found one. -/
theorem noTrace_iff (h : s.Writable E a) (hfd : (s.fileTable f).fdInode = some a) :
    NoTrace E f a s buf count ↔ ¬LeavesTrace E a s count := by
  have hopen : s.Opened f a := ⟨hfd, h.live⟩
  refine ⟨fun hno hl ↦ hl.not_noTrace h hfd hno, fun hleaves s' hret ↦ ?_⟩
  by_cases hbig : 512 * 140 < ((s.inode a).iSize + count) % 2 ^ 32
  · rw [hopen.returns_fileWrite_iff, if_pos hbig] at hret
    obtain ⟨-, rfl⟩ := returns_pure.mp hret
    exact ⟨rfl, rfl, rfl, rfl, rfl⟩
  · rw [hopen.returns_fileWrite_iff, if_neg hbig] at hret
    rcases buffers_cases hret with ⟨-, hret⟩ | ⟨b, hb, hc, -⟩ | ⟨b, c, t, hb, hc, hin, rfl⟩
    · obtain ⟨-, rfl⟩ := returns_pure.mp hret
      exact ⟨rfl, rfl, rfl, rfl, rfl⟩
    · exact absurd ⟨by omega, Or.inl ⟨b, hb, hc⟩⟩ hleaves
    · obtain ⟨h₂, hino⟩ := h.buffers hb hc
      have hasks := (@asks_fileWriteIn E _ a buf f count h₂).mp ⟨t, hin⟩
      rw [hino] at hasks
      have hfull : s.blockBitmap.freeCount = 0 := by
        by_contra hpos
        exact hleaves ⟨by omega, Or.inr ⟨⟨b, c, hb, hc⟩, Nat.pos_of_ne_zero hpos, hasks⟩⟩
      obtain rfl := staysPut_fileWriteIn h₂ hfull t hin
      obtain ⟨hab, hac⟩ := ne_buffers h.live hb hc
      refine ⟨?_, ?_, rfl, rfl, heap_of_buffers hb hc⟩
      · rw [Fs.free_free_inode hab hac, hino]
      · rw [Fs.free_free_inode hab hac, hino]

end Trace

/-! ## A disk with one free block -/

/-- The empty file on a disk that has block 1 free and no other. -/
def Fs.oneBlockFree : Fs :=
  { Fs.oneFile with blockBitmap := ⟨512, fun i ↦ if i = 0 then 0xfd else 0xff⟩ }

theorem oneBlockFree_writable : Fs.oneBlockFree.Writable (Env.bump samplePartition) kHeapStart :=
  ⟨⟨samplePartition_formatted, by decide, by decide⟩, by decide, rfl⟩

theorem noTrace_iff_oneBlockFree :
    NoTrace (Env.bump samplePartition) 3 kHeapStart Fs.oneBlockFree (fun _ ↦ 1) 1000 ↔
      ¬LeavesTrace (Env.bump samplePartition) kHeapStart Fs.oneBlockFree 1000 :=
  noTrace_iff oneBlockFree_writable rfl

theorem oneBlockFree_freeCount : Fs.oneBlockFree.blockBitmap.freeCount = 1 := by
  have hbyte : ∀ j < 8, (0xff : UInt8).toNat.testBit j = true := by decide
  have hfirst : ∀ j < 8, ((0xfd : UInt8).toNat.testBit j = false ↔ j = 1) := by decide
  rw [Bitmap.freeCount, Finset.card_eq_one]
  refine ⟨1, Finset.ext fun i ↦ ?_⟩
  rw [Finset.mem_filter, Finset.mem_range, Finset.mem_singleton]
  have hbit : Fs.oneBlockFree.blockBitmap.bit i =
      (if i / 8 = 0 then (0xfd : UInt8) else 0xff).toNat.testBit (i % 8) := rfl
  have hlen : Fs.oneBlockFree.blockBitmap.btmpBytesLen = 512 := rfl
  rw [hbit, hlen]
  have hj : i % 8 < 8 := Nat.mod_lt _ (by omega)
  split_ifs with h0
  · rw [hfirst _ hj]
    omega
  · rw [hbyte _ hj]
    simp only [Bool.true_eq_false, and_false, false_iff]
    omega

/-- A write of 1000 bytes takes this block, and fails. -/
theorem oneBlockFree_not_noTrace :
    Fs.oneBlockFree.Writable (Env.bump samplePartition) kHeapStart ∧
      ¬NoTrace (Env.bump samplePartition) 3 kHeapStart Fs.oneBlockFree (fun _ ↦ 1) 1000 := by
  refine ⟨oneBlockFree_writable, LeavesTrace.not_noTrace ⟨by decide, Or.inr ⟨?_, ?_, ?_⟩⟩
    oneBlockFree_writable rfl⟩
  · exact ⟨kHeapStart + 4096, kHeapStart + 8192, by decide, by decide⟩
  · rw [oneBlockFree_freeCount]
    exact Nat.one_pos
  · rw [oneBlockFree_freeCount]
    decide

end GlowOS
