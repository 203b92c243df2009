import Mathlib
import GlowOS.Fs.Search

/-!
# Blocks and slots

An inode holds up to 141 blocks: the 140 blocks of its contents and, at index 140, its indirect
table. `Inode.Owns` says that they are different blocks of the data area which the bitmap counts as
used.

The contents of a directory are its slots, the pairs of a block index and an entry index. A slot is
live if its block exists and its entry has a type.
-/

namespace GlowOS

open Bytes

/-! ## Blocks -/

/-- The blocks an inode holds, zero for those it does not have. -/
def Inode.held (d : Image) (ino : Inode) (p : ℕ) : ℕ :=
  if p = 140 then ino.iSectors 12 else ino.blocks d p

/-- The blocks of an inode are used blocks of the data area, and all different. -/
structure Inode.Owns (E : Env) (d : Image) (bm : Bitmap) (ino : Inode) : Prop where
  inData : ∀ p ≤ 140, ino.held d p ≠ 0 → E.part.sb.dataStartLba ≤ ino.held d p
  used : ∀ p ≤ 140, ino.held d p ≠ 0 → bm.bit (ino.held d p - E.part.sb.dataStartLba) = true
  inj : ∀ p ≤ 140, ∀ q ≤ 140, ino.held d p ≠ 0 → ino.held d p = ino.held d q → p = q

/-- Two disks hold the same bytes in a sector. -/
abbrev SameSector (d d' : Image) (lba : ℕ) : Prop := Agree d d' (512 * lba) 512

theorem sameSector_splice {d g : Image} {lba lba' : ℕ} (h : lba ≠ lba') :
    SameSector d (splice d (512 * lba') 512 g) lba := agree_splice (by omega)

theorem sameSector_splice_part {d g : Image} {lba lba' o n : ℕ} (h : lba ≠ lba')
    (hn : o + n ≤ 512) : SameSector d (splice d (512 * lba' + o) n g) lba :=
  agree_splice (by omega)

section Blocks

variable {d d' : Image} {ino ino' : Inode}

theorem Inode.held_of_lt {p : ℕ} (hp : p < 140) : ino.held d p = ino.blocks d p :=
  if_neg (by omega)

theorem Inode.held_table : ino.held d 140 = ino.iSectors 12 := if_pos rfl

theorem Inode.blocks_of_lt {k : ℕ} (hk : k < 12) : ino.blocks d k = ino.iSectors k := if_pos hk

theorem Inode.blocks_of_no_table {k : ℕ} (hk : 12 ≤ k) (h0 : ino.iSectors 12 = 0) :
    ino.blocks d k = 0 := by
  rw [Inode.blocks, if_neg (by omega), if_neg (by simpa using h0)]

theorem Inode.blocks_of_table {k : ℕ} (hk : 12 ≤ k) (h0 : ino.iSectors 12 ≠ 0) :
    ino.blocks d k = tableAt d (ino.iSectors 12) (k - 12) := by
  rw [Inode.blocks, if_neg (by omega), if_pos h0]

theorem tableAt_congr {lba k : ℕ} (h : SameSector d d' lba) (hk : k < 128) :
    tableAt d' lba k = tableAt d lba k := h.le32 (by omega) (by omega)

theorem Inode.blocks_congr (hsec : ∀ k < 13, ino'.iSectors k = ino.iSectors k)
    (htable : ino.iSectors 12 ≠ 0 → SameSector d d' (ino.iSectors 12)) {k : ℕ} (hk : k < 140) :
    ino'.blocks d' k = ino.blocks d k := by
  rw [Inode.blocks, Inode.blocks, hsec 12 (by decide)]
  split_ifs with h1 h2
  · exact hsec k (by omega)
  · exact tableAt_congr (htable h2) (by omega)
  · rfl

theorem entryAt_congr {lba j : ℕ} (h : SameSector d d' lba) (hj : j < 21) :
    entryAt d' lba j = entryAt d lba j := by
  refine DirEntry.decode_congr fun i hi ↦ ?_
  have := h (24 * j + i) (by omega)
  rwa [← Nat.add_assoc] at this

end Blocks

/-! ## Slots -/

/-- The entry in a slot. -/
def slotEntry (d : Image) (ino : Inode) (p : ℕ × ℕ) : DirEntry := entryAt d (ino.blocks d p.1) p.2

/-- The slots of blocks that exist. -/
def InSlots (d : Image) (ino : Inode) (p : ℕ × ℕ) : Prop :=
  p.1 < 140 ∧ p.2 < 21 ∧ ino.blocks d p.1 ≠ 0

/-- The slots in use. -/
def LiveSlot (d : Image) (ino : Inode) (p : ℕ × ℕ) : Prop :=
  InSlots d ino p ∧ (slotEntry d ino p).fType ≠ .unknown

instance (d : Image) (ino : Inode) (p : ℕ × ℕ) : Decidable (InSlots d ino p) :=
  inferInstanceAs (Decidable (_ ∧ _ ∧ _))

instance (d : Image) (ino : Inode) (p : ℕ × ℕ) : Decidable (LiveSlot d ino p) :=
  inferInstanceAs (Decidable (_ ∧ _))

/-- The set of the slots in use. -/
def liveSlots (d : Image) (ino : Inode) : Finset (ℕ × ℕ) :=
  (Finset.range 140 ×ˢ Finset.range 21).filter (LiveSlot d ino)

@[simp] theorem mem_liveSlots {d : Image} {ino : Inode} {p : ℕ × ℕ} :
    p ∈ liveSlots d ino ↔ LiveSlot d ino p := by
  rw [liveSlots, Finset.mem_filter, Finset.mem_product, Finset.mem_range, Finset.mem_range]
  exact ⟨fun h ↦ h.2, fun h ↦ ⟨⟨h.1.1, h.1.2.1⟩, h⟩⟩

/-- A match is a slot whose name compares equal. -/
theorem match_iff {d : Image} {ino : Inode} {name : List UInt8} {k j : ℕ} (hk : k < 140) :
    Match d (ino.blocks d) name k j ↔
      InSlots d ino (k, j) ∧ strEq d (512 * ino.blocks d k + 24 * j) name = true := by
  constructor
  · rintro ⟨hj, hb, hs⟩
    exact ⟨⟨hk, hj, hb⟩, hs⟩
  · rintro ⟨⟨-, hj, hb⟩, hs⟩
    exact ⟨hj, hb, hs⟩

/-- The blocks of a directory are its own and lie on the disk, and the slots that are not in use hold
the empty name. -/
structure DirBlocks (E : Env) (d : Image) (bm : Bitmap) (ino : Inode) : Prop where
  owns : ino.Owns E d bm
  onDisk : ∀ p ≤ 140, ino.held d p ≤ maxLba
  dead : ∀ p, InSlots d ino p → ¬LiveSlot d ino p → (slotEntry d ino p).name = []

/-- A directory as the functions of `fs/dir.c` maintain it: its size counts the live entries, which
have different names that can be searched for, and the other slots hold the empty name. -/
structure WellFormedDir (E : Env) (d : Image) (bm : Bitmap) (ino : Inode) : Prop where
  size : ino.iSize = 24 * (liveSlots d ino).card
  owns : ino.Owns E d bm
  onDisk : ∀ p ≤ 140, ino.held d p ≤ maxLba
  named : ∀ p, LiveSlot d ino p → (slotEntry d ino p).name ≠ []
  terminated : ∀ p, LiveSlot d ino p → (slotEntry d ino p).Terminated
  inj : ∀ p q, LiveSlot d ino p → LiveSlot d ino q →
    (slotEntry d ino p).name = (slotEntry d ino q).name → p = q
  dead : ∀ p, InSlots d ino p → ¬LiveSlot d ino p → (slotEntry d ino p).name = []

theorem WellFormedDir.dirBlocks {E : Env} {d : Image} {bm : Bitmap} {ino : Inode}
    (h : WellFormedDir E d bm ino) : DirBlocks E d bm ino := ⟨h.owns, h.onDisk, h.dead⟩

end GlowOS
