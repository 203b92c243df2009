import Mathlib
import GlowOS.Fs.Layout
import GlowOS.Fs.State

/-!
# Inodes

The functions of `fs/inode.c`, together with the bitmap services of `fs/file.c` they use.

The inode table is an array of 76-byte slots that ignores sector boundaries. `inodeLocate` finds the
sectors of a slot, and an update reads them, replaces the slot and writes them back. As an operation
on the disk image this is a single splice at `slotBase`; `returns_inodeSync` and
`returns_inodeDelete` say so, and the code above works with that.
-/

namespace GlowOS

open Bytes Program

/-! ## The record -/

/-- The words of an inode on disk: the fields in order, then the list element, which is null. -/
def Inode.word (ino : Inode) (k : ℕ) : ℕ :=
  if k = 0 then ino.iNo
  else if k = 1 then ino.iSize
  else if k = 2 then ino.iOpenCnts
  else if k = 3 then (if ino.writeDeny then 1 else 0)
  else if k < 17 then ino.iSectors (k - 4)
  else 0

/-- The 76 bytes of an inode. -/
def Inode.encode (ino : Inode) : Image := ofWords ino.word

/-- The inode stored at offset `o`. -/
def Inode.decode (b : Image) (o : ℕ) : Inode where
  iNo := le32 b o
  iSize := le32 b (o + 4)
  iOpenCnts := le32 b (o + 8)
  writeDeny := le32 b (o + 12) != 0
  iSectors k := if k < 13 then le32 b (o + 16 + 4 * k) else 0

/-- The persistent part of an inode, which is what `inode_sync` writes. -/
def Inode.pureInode (ino : Inode) : Inode := { ino with iOpenCnts := 0, writeDeny := false }

/-- The fields hold 32-bit values. -/
structure Inode.Fits (ino : Inode) : Prop where
  iNo : ino.iNo < 2 ^ 32
  iSize : ino.iSize < 2 ^ 32
  iSectors : ∀ k < 13, ino.iSectors k < 2 ^ 32

/-- The fields that survive a round trip through the disk. -/
def Inode.Same (i j : Inode) : Prop :=
  i.iNo = j.iNo ∧ i.iSize = j.iSize ∧ ∀ k < 13, i.iSectors k = j.iSectors k

/-- `inode_init`. -/
def Inode.init (n : ℕ) : Inode := { Inode.zero with iNo := n }

theorem Inode.decode_congr {b b' : Image} {o o' : ℕ} (h : ∀ i < 76, b (o + i) = b' (o' + i)) :
    Inode.decode b o = Inode.decode b' o' := by
  have hw : ∀ c, c + 4 ≤ 76 → le32 b (o + c) = le32 b' (o' + c) := by
    intro c hc
    refine le32_congr fun i hi ↦ ?_
    rw [Nat.add_assoc, Nat.add_assoc]
    exact h _ (by omega)
  have h0 : le32 b o = le32 b' o' := hw 0 (by decide)
  rw [Inode.decode, Inode.decode, h0, hw 4 (by decide), hw 8 (by decide), hw 12 (by decide)]
  congr 1
  funext k
  by_cases hk : k < 13
  · rw [if_pos hk, if_pos hk, Nat.add_assoc, hw (16 + 4 * k) (by omega),
      Nat.add_assoc]
  · rw [if_neg hk, if_neg hk]

theorem Inode.decode_splice_of_disjoint {d g : Image} {o n p : ℕ}
    (h : p + 76 ≤ o ∨ o + n ≤ p) :
    Inode.decode (splice d o n g) p = Inode.decode d p :=
  Inode.decode_congr fun i hi ↦ splice_of_disjoint (by omega)

theorem Inode.decode_encode {ino : Inode} (hf : ino.Fits) :
    (Inode.decode ino.pureInode.encode 0).Same ino := by
  have hword : ∀ k, k < 19 → ino.pureInode.word k < 2 ^ 32 := by
    intro k hk
    simp only [Inode.word, Inode.pureInode]
    split_ifs with h0 h1 h2 h3 h4 h5
    · exact hf.iNo
    · exact hf.iSize
    · norm_num
    · contradiction
    · norm_num
    · exact hf.iSectors (k - 4) (by omega)
    · norm_num
  refine ⟨?_, ?_, ?_⟩
  · have := le32_ofWords (hword 0 (by omega))
    rwa [Nat.mul_zero] at this
  · have := le32_ofWords (hword 1 (by omega))
    rwa [Nat.mul_one] at this
  · intro k hk
    have h4 : 0 + 16 + 4 * k = 4 * (k + 4) := by omega
    simp only [Inode.decode, hk, if_true, h4]
    rw [Inode.encode, le32_ofWords (hword (k + 4) (by omega))]
    simp only [Inode.word, Inode.pureInode]
    rw [if_neg (by omega), if_neg (by omega), if_neg (by omega), if_neg (by omega),
      if_pos (by omega)]
    simp

/-! ## Locating a slot -/

/-- `struct inode_position`. -/
structure InodePosition where
  twoSec : Bool
  secLba : ℕ
  offSize : ℕ

/-- The position `inode_locate` computes. -/
def inodePosition (E : Env) (n : ℕ) : InodePosition where
  twoSec := decide (512 - n * 76 % 512 < 76)
  secLba := E.part.sb.inodeTableLba + n * 76 / 512
  offSize := n * 76 % 512

/-- `inode_locate`. -/
def inodeLocate (E : Env) (n : ℕ) : FsM InodePosition := do
  ASSERT (n < 4096)
  pure (inodePosition E n)

/-- The sectors to transfer for a slot. -/
def InodePosition.sectors (pos : InodePosition) : ℕ := if pos.twoSec then 2 else 1

/-- The offset of slot `n` of the inode table on the disk. -/
def slotBase (E : Env) (n : ℕ) : ℕ := 512 * E.part.sb.inodeTableLba + 76 * n

theorem slotBase_eq (E : Env) (n : ℕ) :
    512 * (inodePosition E n).secLba + (inodePosition E n).offSize = slotBase E n := by
  simp only [inodePosition, slotBase]
  omega

/-- A slot lies inside the sectors transferred for it. -/
theorem inodePosition_fits (E : Env) (n : ℕ) :
    (inodePosition E n).offSize + 76 ≤ 512 * (inodePosition E n).sectors := by
  simp only [inodePosition, InodePosition.sectors, decide_eq_true_eq]
  split_ifs with h <;> omega

theorem inodePosition_sectors_le (E : Env) (n : ℕ) : (inodePosition E n).sectors ≤ 2 := by
  rw [InodePosition.sectors]
  split_ifs <;> omega

theorem inodePosition_sectors_pos (E : Env) (n : ℕ) : 0 < (inodePosition E n).sectors := by
  rw [InodePosition.sectors]
  split_ifs <;> omega

/-- Different slots do not overlap. -/
theorem slotBase_apart (E : Env) {m n : ℕ} (h : m ≠ n) :
    slotBase E m + 76 ≤ slotBase E n ∨ slotBase E n + 76 ≤ slotBase E m := by
  simp only [slotBase]
  omega

/-- The inode in slot `n`. -/
def slot (E : Env) (d : Image) (n : ℕ) : Inode := Inode.decode d (slotBase E n)

/-! ## Writing a slot -/

/-- `inode_sync`, with a buffer of `ioBuf` bytes. The inode number passes through a `uint8_t`. -/
def inodeSync (E : Env) (ino : Inode) (ioBuf : ℕ) : FsM PUnit := do
  let inodeNo := ino.iNo % 2 ^ 8
  let pos ← inodeLocate E inodeNo
  ASSERT (pos.secLba ≤ E.part.startLba + E.part.secCnt)
  let buf ← ideRead pos.secLba ioBuf pos.sectors
  ideWrite pos.secLba ioBuf pos.sectors (splice buf pos.offSize 76 ino.pureInode.encode)

/-- `inode_delete`, with a buffer of `ioBuf` bytes. -/
def inodeDelete (E : Env) (n : ℕ) (ioBuf : ℕ) : FsM PUnit := do
  ASSERT (n < 4096)
  let pos ← inodeLocate E n
  ASSERT (pos.secLba ≤ E.part.startLba + E.part.secCnt)
  let buf ← ideRead pos.secLba ioBuf pos.sectors
  ideWrite pos.secLba ioBuf pos.sectors (splice buf pos.offSize 76 fun _ ↦ 0)

/-- The checks on the way to slot `n` with a buffer of `ioBuf` bytes. -/
structure SlotAccess (E : Env) (n ioBuf : ℕ) : Prop where
  number : n < 4096
  inPart : (inodePosition E n).secLba ≤ E.part.startLba + E.part.secCnt
  onDisk : (inodePosition E n).secLba ≤ maxLba
  room : 512 * (inodePosition E n).sectors ≤ ioBuf

/-- Reading the sectors of a slot, replacing the slot and writing them back replaces the slot. -/
theorem splice_slot (E : Env) (d g : Image) (n : ℕ) :
    splice d (512 * (inodePosition E n).secLba)
        (512 * (inodePosition E n).sectors)
        (splice (fun i ↦ d (512 * (inodePosition E n).secLba + i))
          (inodePosition E n).offSize 76 g)
      = splice d (slotBase E n) 76 g := by
  rw [splice_read _ _ (inodePosition_fits E n), slotBase_eq]

/-- What `ide_read` returns, for at most 256 sectors. -/
theorem returns_ideRead {lba room cnt : ℕ} (hcnt : cnt ≤ 256) {s s' : Fs} {b : Image} :
    Returns (ideRead lba room cnt) s b s' ↔
      lba ≤ maxLba ∧ 0 < cnt ∧ 512 * cnt ≤ room ∧
        b = (fun i ↦ s.disk (512 * lba + i)) ∧ s' = s := by
  have hdiv : (cnt - 1) / 256 = 0 := Nat.div_eq_of_lt (by omega)
  simp only [ideRead, returns_check_bind, returns_get_bind, returns_pure, hdiv]
  constructor
  · rintro ⟨h1, h2, h3, -, h4⟩
    exact ⟨h1, h2, h3, h4⟩
  · rintro ⟨h1, h2, h3, h4⟩
    exact ⟨h1, h2, h3, by omega, h4⟩

/-- What `ide_write` does, for at most 256 sectors. -/
theorem returns_ideWrite {lba room cnt : ℕ} (hcnt : cnt ≤ 256) {b : Image} {s s' : Fs} {u : PUnit} :
    Returns (ideWrite lba room cnt b) s u s' ↔
      lba ≤ maxLba ∧ 0 < cnt ∧ 512 * cnt ≤ room ∧
        s' = s.store (512 * lba) (512 * cnt) b := by
  have hdiv : (cnt - 1) / 256 = 0 := Nat.div_eq_of_lt (by omega)
  simp only [ideWrite, returns_check_bind, returns_modify, hdiv]
  constructor
  · rintro ⟨h1, h2, h3, -, h4⟩
    exact ⟨h1, h2, h3, h4⟩
  · rintro ⟨h1, h2, h3, h4⟩
    exact ⟨h1, h2, h3, by omega, h4⟩

/-- The shared part of `inode_sync` and `inode_delete`. -/
private theorem returns_writeSlot {E : Env} {n ioBuf : ℕ} {g : Image} {s s' : Fs} {u : PUnit} :
    Returns (do
        let buf ← ideRead (inodePosition E n).secLba ioBuf (inodePosition E n).sectors
        ideWrite (inodePosition E n).secLba ioBuf (inodePosition E n).sectors
          (splice buf (inodePosition E n).offSize 76 g)) s u s' ↔
      (inodePosition E n).secLba ≤ maxLba ∧
        512 * (inodePosition E n).sectors ≤ ioBuf ∧
        s' = s.store (slotBase E n) 76 g := by
  have hcnt : (inodePosition E n).sectors ≤ 256 := by
    have := inodePosition_sectors_le E n
    omega
  have hpos := inodePosition_sectors_pos E n
  simp only [returns_bind, returns_ideRead hcnt, returns_ideWrite hcnt]
  constructor
  · rintro ⟨b, t, ⟨h1, -, h2, rfl, rfl⟩, -, -, -, rfl⟩
    exact ⟨h1, h2, by rw [Fs.store, splice_slot, ← Fs.store]⟩
  · rintro ⟨h1, h2, rfl⟩
    exact ⟨_, s, ⟨h1, hpos, h2, rfl, rfl⟩, h1, hpos, h2, by rw [Fs.store, Fs.store, splice_slot]⟩

/-- **`inode_sync` replaces one slot of the inode table**: the slot whose number is the inode number
modulo 256. -/
theorem returns_inodeSync {E : Env} {ino : Inode} {ioBuf : ℕ} {s s' : Fs} {u : PUnit} :
    Returns (inodeSync E ino ioBuf) s u s' ↔
      SlotAccess E (ino.iNo % 2 ^ 8) ioBuf ∧
        s' = s.store (slotBase E (ino.iNo % 2 ^ 8)) 76 ino.pureInode.encode := by
  simp only [inodeSync, inodeLocate, bind_assoc, pure_bind, returns_check_bind, returns_writeSlot]
  constructor
  · rintro ⟨h1, h2, h3, h4, h5⟩
    exact ⟨⟨h1, h2, h3, h4⟩, h5⟩
  · rintro ⟨⟨h1, h2, h3, h4⟩, h5⟩
    exact ⟨h1, h2, h3, h4, h5⟩

/-- **`inode_delete` zeroes one slot of the inode table.** -/
theorem returns_inodeDelete {E : Env} {n ioBuf : ℕ} {s s' : Fs} {u : PUnit} :
    Returns (inodeDelete E n ioBuf) s u s' ↔
      SlotAccess E n ioBuf ∧
        s' = s.store (slotBase E n) 76 fun _ ↦ 0 := by
  simp only [inodeDelete, inodeLocate, bind_assoc, pure_bind, returns_check_bind,
    returns_writeSlot]
  constructor
  · rintro ⟨h1, -, h2, h3, h4, h5⟩
    exact ⟨⟨h1, h2, h3, h4⟩, h5⟩
  · rintro ⟨⟨h1, h2, h3, h4⟩, h5⟩
    exact ⟨h1, h1, h2, h3, h4, h5⟩

/-- On a formatted partition every slot can be reached with a buffer of two sectors. -/
theorem slotAccess_of_formatted {E : Env} (hp : E.part.Formatted) {n : ℕ} (hn : n < 4096) :
    SlotAccess E n 1024 := by
  have h1 := hp.dataStartLba_eq
  have h2 := hp.dataStartLba_lt
  have h3 := hp.dataStartLba_le_maxLba
  have hsec : (inodePosition E n).secLba < E.part.sb.dataStartLba := by
    simp only [inodePosition]
    omega
  have h4 := inodePosition_sectors_le E n
  exact ⟨hn, by omega, by omega, by omega⟩

/-- A buffer that is too small for the sectors of the slot is overrun. -/
theorem inodeSync_overrun {E : Env} (hp : E.part.Formatted) {ino : Inode} {ioBuf : ℕ} {s : Fs}
    (h : ioBuf < 512 * (inodePosition E (ino.iNo % 2 ^ 8)).sectors) :
    inodeSync E ino ioBuf s = .error .overrun := by
  have hn : ino.iNo % 2 ^ 8 < 4096 := by omega
  have haccess := slotAccess_of_formatted hp hn
  have hlocate : Returns (inodeLocate E (ino.iNo % 2 ^ 8)) s (inodePosition E (ino.iNo % 2 ^ 8)) s :=
    returns_check_bind.mpr ⟨hn, returns_pure.mpr ⟨rfl, rfl⟩⟩
  have hread : ideRead (inodePosition E (ino.iNo % 2 ^ 8)).secLba ioBuf
      (inodePosition E (ino.iNo % 2 ^ 8)).sectors s = .error .overrun := by
    rw [ideRead, check_run haccess.onDisk, check_run (inodePosition_sectors_pos E _),
      check_stop (by omega)]
  rw [inodeSync, hlocate.bind_run, check_run haccess.inPart]
  exact bind_stop hread

end GlowOS
