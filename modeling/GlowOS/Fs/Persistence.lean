import Mathlib
import GlowOS.Fs.Cache

/-!
# The inode table keeps what is written to it

`inode_sync` writes an inode to its slot and `inode_open` reads it back after a cache miss. Both
compute the slot from the inode number; `inode_sync` keeps the number in a `uint8_t` on the way.
So the round trip works for the numbers below 256, and for a larger number only if there was nothing
to write and the slot that is hit instead held the same bytes already.
-/

namespace GlowOS

open Bytes Program

/-- The slots of all inodes but `n` hold the same bytes. -/
def SlotsKept (E : Env) (n : ℕ) (d d' : Image) : Prop :=
  ∀ m < 4096, m ≠ n → ∀ i < 76, d' (slotBase E m + i) = d (slotBase E m + i)

/-- The heap answers the two requests of an `inode_open` that misses the cache. -/
def Fs.Supplied (E : Env) (s : Fs) (n : ℕ) : Prop :=
  ∃ a b, E.malloc s.tick s.heap s.stale true 76 = some a ∧
    (s.alloc a Blk.inode).answer E (512 * (inodePosition E n).sectors) = some b

/-- What is expected of `inode_sync`, `inode_open` and `inode_delete` for one inode. -/
structure Persists (E : Env) (s : Fs) (ino : Inode) : Prop where
  sync : ∃ s₁, Returns (inodeSync E ino 1024) s PUnit.unit s₁ ∧
    SlotsKept E ino.iNo s.disk s₁.disk ∧
    ∃ a s₂, Returns (inodeOpen E ino.iNo) s₁ a s₂ ∧ (s₂.inode a).Same ino
  delete : ∃ s₁, Returns (inodeDelete E ino.iNo 1024) s PUnit.unit s₁ ∧
    (∀ i < 76, s₁.disk (slotBase E ino.iNo + i) = 0) ∧ SlotsKept E ino.iNo s.disk s₁.disk

variable {E : Env} {s : Fs} {ino : Inode} {n : ℕ}

theorem slotsKept_splice (d g : Image) (n : ℕ) :
    SlotsKept E n d (splice d (slotBase E n) 76 g) := by
  intro m _ hmn i hi
  have hapart := slotBase_apart E hmn
  exact splice_of_disjoint (by omega)

theorem slot_splice_self (d : Image) {g : Image} (n : ℕ) :
    slot E (splice d (slotBase E n) 76 g) n = Inode.decode g 0 :=
  Inode.decode_congr fun i hi ↦ by rw [splice_add, if_pos hi, Nat.zero_add]

theorem slot_splice_ne (d : Image) {g : Image} {m n : ℕ} (h : m ≠ n) :
    slot E (splice d (slotBase E n) 76 g) m = slot E d m :=
  Inode.decode_splice_of_disjoint (slotBase_apart E h)

/-- A cache miss delivers the contents of the slot. -/
theorem exists_returns_inodeOpen (hp : E.part.Formatted) (hn : n < 4096)
    (hmiss : s.findOpen n = some none) (hheap : s.Supplied E n) :
    ∃ a s', Returns (inodeOpen E n) s a s' ∧ (s'.inode a).Same (slot E s.disk n) := by
  obtain ⟨a, b, ha, hb⟩ := hheap
  have hab : a ≠ b := by
    rintro rfl
    have hfresh : (s.alloc a Blk.inode).heap a = none := E.malloc_fresh hb
    simp [Fs.alloc] at hfresh
  refine ⟨a, s.loaded E n a b, returns_inodeOpen.mpr (Or.inr ⟨hmiss, ?_⟩), ?_⟩
  · exact returns_inodeLoad.mpr ⟨hn, (slotAccess_of_formatted hp hn).onDisk, ha, b, hb, rfl⟩
  · rw [Fs.loaded_inode s hab]
    exact ⟨rfl, rfl, fun _ _ ↦ rfl⟩

/-- Whatever `inode_open` returns after a miss is the contents of the slot. -/
theorem same_slot_of_inodeOpen {a : ℕ} {s' : Fs} (hmiss : s.findOpen n = some none)
    (h : Returns (inodeOpen E n) s a s') : (s'.inode a).Same (slot E s.disk n) := by
  rcases returns_inodeOpen.mp h with ⟨hhit, -⟩ | ⟨-, h⟩
  · rw [hmiss] at hhit
    cases hhit
  · obtain ⟨-, -, ha, b, hb, rfl⟩ := returns_inodeLoad.mp h
    have hab : a ≠ b := by
      rintro rfl
      have hfresh : (s.alloc a Blk.inode).heap a = none := E.malloc_fresh hb
      simp [Fs.alloc] at hfresh
    rw [Fs.loaded_inode s hab]
    exact ⟨rfl, rfl, fun _ _ ↦ rfl⟩

theorem Inode.Same.symm {i j : Inode} (h : i.Same j) : j.Same i :=
  ⟨h.1.symm, h.2.1.symm, fun k hk ↦ (h.2.2 k hk).symm⟩

theorem Inode.Same.trans {i j k : Inode} (h : i.Same j) (h' : j.Same k) : i.Same k :=
  ⟨h.1.trans h'.1, h.2.1.trans h'.2.1, fun m hm ↦ (h.2.2 m hm).trans (h'.2.2 m hm)⟩

/-- **Persistence of inodes.** For a cache miss on a formatted partition, an inode survives the way
to the disk and back, without touching any other, exactly if its number fits a byte, or it was there
before and so was what is written over the slot with the truncated number. -/
theorem persists_iff (hp : E.part.Formatted) (hn : ino.iNo < 4096) (hf : ino.Fits)
    (hmiss : s.findOpen ino.iNo = some none) (hheap : s.Supplied E ino.iNo) :
    Persists E s ino ↔
      ino.iNo < 256 ∨
        (slot E s.disk ino.iNo).Same ino ∧
          ∀ i < 76, s.disk (slotBase E (ino.iNo % 256) + i) = ino.pureInode.encode i := by
  have hmod : ino.iNo % 2 ^ 8 < 4096 := by omega
  constructor
  · rintro ⟨⟨s₁, hsync, hkept, a, s₂, hopen, hsame⟩, -⟩
    obtain ⟨-, rfl⟩ := returns_inodeSync.mp hsync
    by_cases hlt : ino.iNo < 256
    · exact Or.inl hlt
    · have hne : ino.iNo ≠ ino.iNo % 2 ^ 8 := by omega
      refine Or.inr ⟨?_, fun i hi ↦ ?_⟩
      · have hslot := same_slot_of_inodeOpen (s := s.store _ _ _) hmiss hopen
        rw [Fs.store_disk, slot_splice_ne s.disk hne] at hslot
        exact hslot.symm.trans hsame
      · have h := hkept _ hmod hne.symm i hi
        rw [Fs.store_disk, splice_add, if_pos hi] at h
        exact h.symm
  · intro hcond
    refine ⟨⟨_, returns_inodeSync.mpr ⟨slotAccess_of_formatted hp hmod, rfl⟩, ?_, ?_⟩,
      ⟨_, returns_inodeDelete.mpr ⟨slotAccess_of_formatted hp hn, rfl⟩, fun i hi ↦ ?_,
        slotsKept_splice s.disk (fun _ ↦ 0) ino.iNo⟩⟩
    · rcases hcond with hlt | ⟨-, hbytes⟩
      · rw [show ino.iNo % 2 ^ 8 = ino.iNo by omega]
        exact slotsKept_splice s.disk _ _
      · -- the slot that is hit keeps its bytes, and no other slot is hit
        intro m hm hmn i hi
        by_cases hmm : m = ino.iNo % 2 ^ 8
        · subst hmm
          rw [Fs.store_disk, splice_add, if_pos hi]
          exact (hbytes i hi).symm
        · exact slotsKept_splice s.disk _ (ino.iNo % 2 ^ 8) m hm hmm i hi
    · obtain ⟨a, s₂, hopen, hslot⟩ := exists_returns_inodeOpen
        (s := s.store (slotBase E (ino.iNo % 2 ^ 8)) 76 ino.pureInode.encode) hp hn hmiss hheap
      refine ⟨a, s₂, hopen, hslot.trans ?_⟩
      by_cases heq : ino.iNo = ino.iNo % 2 ^ 8
      · rw [Fs.store_disk, ← heq, slot_splice_self]
        exact Inode.decode_encode hf
      · rcases hcond with hlt | ⟨hsame, -⟩
        · omega
        · rw [Fs.store_disk, slot_splice_ne s.disk heq]
          exact hsame
    · rw [Fs.store_disk, splice_add, if_pos hi]

theorem init_fits {n : ℕ} (hn : n < 2 ^ 32) : (Inode.init n).Fits :=
  ⟨hn, show 0 < 2 ^ 32 by decide, fun _ _ ↦ show 0 < 2 ^ 32 by decide⟩

theorem blank_findOpen (n : ℕ) : Fs.blank.findOpen n = some none := by
  have hlist : Links.IsList Fs.blank.tags openHead openTail [] :=
    Links.isList_nil (by decide) rfl rfl
  exact hlist.find (by decide)

theorem blank_supplied (n : ℕ) : Fs.blank.Supplied (Env.bump smallPartition) n :=
  ⟨kHeapStart, kHeapStart + 4096, rfl, rfl⟩

/-- An inode with number 5 on an empty disk. -/
theorem persists_iff_five : Persists (Env.bump smallPartition) Fs.blank (Inode.init 5) :=
  (persists_iff smallPartition_formatted (by decide) (init_fits (by decide)) (blank_findOpen 5)
    (blank_supplied 5)).mpr (Or.inl (by decide))

/-- Inode 256 lands on the slot of the root directory. -/
theorem not_persists_256 :
    (Env.bump smallPartition).part.Formatted ∧ (Inode.init 256).iNo < 4096 ∧
      (Inode.init 256).Fits ∧ Fs.blank.findOpen 256 = some none ∧
      Fs.blank.Supplied (Env.bump smallPartition) 256 ∧
      ¬Persists (Env.bump smallPartition) Fs.blank (Inode.init 256) := by
  refine ⟨smallPartition_formatted, by decide, init_fits (by decide), blank_findOpen 256,
    blank_supplied 256, ?_⟩
  rintro ⟨⟨s₁, hsync, hkept, -⟩, -⟩
  obtain ⟨-, rfl⟩ := returns_inodeSync.mp hsync
  have h := hkept 0 (by decide) (by decide) 1 (by decide)
  have hno : (Inode.init 256).iNo % 2 ^ 8 = 0 := by decide
  rw [hno, Fs.store_disk, splice_add, if_pos (by decide)] at h
  exact absurd h (by decide)

end GlowOS
