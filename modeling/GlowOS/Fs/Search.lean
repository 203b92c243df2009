import Mathlib
import GlowOS.Fs.Dir

/-!
# Searching a directory

`lookup` is the search as a function of the disk and the inode: block by block, entry by entry, the
first entry whose name compares equal. `search_dir_entry` returns its result whenever the heap
supplies the two buffers.
-/

namespace GlowOS

open Bytes Program Scan

/-! ## The search as a function -/

/-- The first entry with a name in the blocks from index `k` on. -/
def lookupFrom (d : Image) (blocks : ℕ → ℕ) (name : List UInt8) : ℕ → ℕ → Option DirEntry
  | 0, _ => none
  | left + 1, k =>
    if blocks k = 0 then lookupFrom d blocks name left (k + 1)
    else
      match firstFrom (fun j ↦ strEq d (512 * blocks k + 24 * j) name) 21 0 with
      | some j => some (entryAt d (blocks k) j)
      | none => lookupFrom d blocks name left (k + 1)

/-- The first entry with a name in a directory. -/
def lookup (d : Image) (ino : Inode) (name : List UInt8) : Option DirEntry :=
  lookupFrom d (ino.blocks d) name 140 0

/-- A string compares equal with the name in slot `(k, j)`. -/
def Match (d : Image) (blocks : ℕ → ℕ) (name : List UInt8) (k j : ℕ) : Prop :=
  j < 21 ∧ blocks k ≠ 0 ∧ strEq d (512 * blocks k + 24 * j) name = true

section Lookup

variable {d : Image} {blocks : ℕ → ℕ} {name : List UInt8} {left k : ℕ}

/-- A search stops at the first match. -/
theorem exists_firstMatch_of_lookupFrom {e : DirEntry}
    (h : lookupFrom d blocks name left k = some e) :
    ∃ k' j, k ≤ k' ∧ k' < k + left ∧ Match d blocks name k' j ∧ e = entryAt d (blocks k') j ∧
      (∀ i, k ≤ i → i < k' → ∀ j', ¬Match d blocks name i j') ∧
      ∀ j' < j, ¬Match d blocks name k' j' := by
  induction left generalizing k with
  | zero => cases h
  | succ left ih =>
    have later : (∀ j', ¬Match d blocks name k j') →
        lookupFrom d blocks name left (k + 1) = some e →
        ∃ k' j, k ≤ k' ∧ k' < k + (left + 1) ∧ Match d blocks name k' j ∧
          e = entryAt d (blocks k') j ∧
          (∀ i, k ≤ i → i < k' → ∀ j', ¬Match d blocks name i j') ∧
          ∀ j' < j, ¬Match d blocks name k' j' := by
      intro hk h
      obtain ⟨k', j, h1, h2, h3, h4, h5, h6⟩ := ih h
      refine ⟨k', j, by omega, by omega, h3, h4, fun i hi hik ↦ ?_, h6⟩
      rcases Nat.eq_or_lt_of_le hi with rfl | hlt
      · exact hk
      · exact h5 i hlt hik
    rw [lookupFrom] at h
    by_cases h0 : blocks k = 0
    · rw [if_pos h0] at h
      exact later (fun j' hm ↦ hm.2.1 h0) h
    · rw [if_neg h0] at h
      cases hf : firstFrom (fun j ↦ strEq d (512 * blocks k + 24 * j) name) 21 0 with
      | none =>
        rw [hf] at h
        refine later (fun j' hm ↦ ?_) h
        exact Bool.false_ne_true ((firstFrom_eq_none.mp hf j' (by omega)
          (by rw [Nat.zero_add]; exact hm.1)).symm.trans hm.2.2)
      | some j =>
        rw [hf] at h
        obtain ⟨-, h2, h3, h4⟩ := firstFrom_eq_some.mp hf
        refine ⟨k, j, le_refl k, by omega, ⟨by omega, h0, h3⟩, (Option.some.inj h).symm,
          fun i h1 h2 ↦ by omega, fun j' hj' hm ↦ ?_⟩
        exact Bool.false_ne_true ((h4 j' (by omega) hj').symm.trans hm.2.2)

theorem exists_match_of_lookupFrom {e : DirEntry}
    (h : lookupFrom d blocks name left k = some e) :
    ∃ k' j, k ≤ k' ∧ k' < k + left ∧ Match d blocks name k' j ∧ e = entryAt d (blocks k') j := by
  obtain ⟨k', j, h1, h2, h3, h4, -, -⟩ := exists_firstMatch_of_lookupFrom h
  exact ⟨k', j, h1, h2, h3, h4⟩

theorem not_match_of_lookupFrom (h : lookupFrom d blocks name left k = none) {k' j : ℕ}
    (h1 : k ≤ k') (h2 : k' < k + left) : ¬Match d blocks name k' j := by
  induction left generalizing k with
  | zero => omega
  | succ left ih =>
    rintro ⟨hj, hb, hs⟩
    rw [lookupFrom] at h
    by_cases hk : k' = k
    · subst hk
      rw [if_neg hb] at h
      cases hf : firstFrom (fun j ↦ strEq d (512 * blocks k' + 24 * j) name) 21 0 with
      | none =>
        have hno := firstFrom_eq_none.mp hf j (by omega) (by omega)
        rw [hs] at hno
        cases hno
      | some i =>
        rw [hf] at h
        cases h
    · have htail : lookupFrom d blocks name left (k + 1) = none := by
        split_ifs at h with h0
        · exact h
        · cases hf : firstFrom (fun j ↦ strEq d (512 * blocks k + 24 * j) name) 21 0 with
          | none =>
            rw [hf] at h
            exact h
          | some i =>
            rw [hf] at h
            cases h
      exact ih htail (by omega) (by omega) ⟨hj, hb, hs⟩

end Lookup

variable {d : Image} {ino : Inode} {name : List UInt8}

/-- What a search finds is an entry whose name compares equal. -/
theorem exists_match_of_lookup {e : DirEntry} (h : lookup d ino name = some e) :
    ∃ k j, k < 140 ∧ Match d (ino.blocks d) name k j ∧ e = entryAt d (ino.blocks d k) j := by
  obtain ⟨k, j, -, hk, hm, he⟩ := exists_match_of_lookupFrom h
  exact ⟨k, j, by omega, hm, he⟩

theorem not_match_of_lookup (h : lookup d ino name = none) {k j : ℕ} (hk : k < 140) :
    ¬Match d (ino.blocks d) name k j := not_match_of_lookupFrom h (Nat.zero_le k) (by omega)

/-- A search finds the only entry whose name compares equal. -/
theorem lookup_eq_some {k j : ℕ} (hk : k < 140) (hm : Match d (ino.blocks d) name k j)
    (huniq : ∀ k' j', k' < 140 → Match d (ino.blocks d) name k' j' → k' = k ∧ j' = j) :
    lookup d ino name = some (entryAt d (ino.blocks d k) j) := by
  cases h : lookup d ino name with
  | none => exact absurd hm (not_match_of_lookup h hk)
  | some e =>
    obtain ⟨k', j', hk', hm', rfl⟩ := exists_match_of_lookup h
    obtain ⟨rfl, rfl⟩ := huniq k' j' hk' hm'
    rfl

/-! ## The code -/

theorem strEq_shift (d : Image) (p o : ℕ) (name : List UInt8) :
    strEq (fun i ↦ d (p + i)) o name = strEq d (p + o) name := by
  induction name generalizing o with
  | nil => rfl
  | cons c cs ih => rw [strEq, strEq, ih, Nat.add_assoc]

theorem decode_shift (d : Image) (p o : ℕ) :
    DirEntry.decode (fun i ↦ d (p + i)) o = DirEntry.decode d (p + o) :=
  DirEntry.decode_congr fun i _ ↦ by rw [Nat.add_assoc]

theorem dirEntrysPerSec_eq {E : Env} (hp : E.part.Formatted) : dirEntrysPerSec E = 21 := by
  rw [dirEntrysPerSec, hp.dirEntrySize_eq]

section Code

variable {E : Env} {s s' : Fs} {blocks : ℕ → ℕ} {left k : ℕ}

/-- One step of the search over the blocks. -/
private theorem returns_searchBlocks_succ (hp : E.part.Formatted) (h0 : blocks k ≠ 0)
    {r : Option DirEntry} :
    Returns (searchBlocks E name blocks (left + 1) k) s r s' ↔
      blocks k ≤ maxLba ∧
        match firstFrom (fun j ↦ strEq s.disk (512 * blocks k + 24 * j) name) 21 0 with
        | some j => r = some (entryAt s.disk (blocks k) j) ∧ s' = s
        | none => Returns (searchBlocks E name blocks left (k + 1)) s r s' := by
  rw [searchBlocks, if_neg h0, returns_bind, dirEntrysPerSec_eq hp]
  simp only [returns_ideRead (show 1 ≤ 256 by decide)]
  constructor
  · rintro ⟨b, t, ⟨hlba, -, -, rfl, rfl⟩, h⟩
    simp only [strEq_shift, decode_shift] at h
    refine ⟨hlba, ?_⟩
    cases hf : firstFrom (fun j ↦ strEq t.disk (512 * blocks k + 24 * j) name) 21 0 with
    | none =>
      rw [hf] at h
      exact h
    | some j =>
      rw [hf] at h
      exact returns_pure.mp h
  · rintro ⟨hlba, h⟩
    refine ⟨_, s, ⟨hlba, by decide, by decide, rfl, rfl⟩, ?_⟩
    simp only [strEq_shift, decode_shift]
    cases hf : firstFrom (fun j ↦ strEq s.disk (512 * blocks k + 24 * j) name) 21 0 with
    | none =>
      rw [hf] at h
      exact h
    | some j =>
      rw [hf] at h
      exact returns_pure.mpr h

theorem searchBlocks_sound (hp : E.part.Formatted) {r : Option DirEntry}
    (h : Returns (searchBlocks E name blocks left k) s r s') :
    r = lookupFrom s.disk blocks name left k ∧ s' = s := by
  induction left generalizing k with
  | zero => exact returns_pure.mp h
  | succ left ih =>
    rw [lookupFrom]
    by_cases h0 : blocks k = 0
    · rw [searchBlocks, if_pos h0] at h
      rw [if_pos h0]
      exact ih h
    · rw [if_neg h0]
      obtain ⟨-, h⟩ := (returns_searchBlocks_succ hp h0).mp h
      cases hf : firstFrom (fun j ↦ strEq s.disk (512 * blocks k + 24 * j) name) 21 0 with
      | none =>
        rw [hf] at h
        exact ih h
      | some j =>
        rw [hf] at h
        exact h

theorem searchBlocks_complete (hp : E.part.Formatted)
    (hdisk : ∀ i, k ≤ i → i < k + left → blocks i ≤ maxLba) :
    Returns (searchBlocks E name blocks left k) s (lookupFrom s.disk blocks name left k) s := by
  induction left generalizing k with
  | zero => exact returns_pure.mpr ⟨rfl, rfl⟩
  | succ left ih =>
    have htail := ih (k := k + 1) fun i h1 h2 ↦ hdisk i (by omega) (by omega)
    rw [lookupFrom]
    by_cases h0 : blocks k = 0
    · rw [searchBlocks, if_pos h0, if_pos h0]
      exact htail
    · rw [if_neg h0]
      refine (returns_searchBlocks_succ hp h0).mpr ⟨hdisk k (le_refl k) (by omega), ?_⟩
      cases hf : firstFrom (fun j ↦ strEq s.disk (512 * blocks k + 24 * j) name) 21 0 with
      | none => exact htail
      | some j => exact ⟨rfl, rfl⟩

/-- The heap answers the two requests of `search_dir_entry`. -/
def Fs.SearchSupplied (E : Env) (s : Fs) : Prop :=
  ∃ a b, s.answer E 560 = some a ∧ (s.alloc a Blk.buffer).answer E 512 = some b

/-- The state after a search with the buffers `a` and `b`. -/
def Fs.searched (E : Env) (s : Fs) (a b : ℕ) : Fs :=
  (((s.alloc a Blk.buffer).alloc b Blk.buffer).free E b).free E a

/-- **What `search_dir_entry` returns** is the result of the search, unless the heap refused the
first buffer. -/
theorem searchDirEntry_sound (hp : E.part.Formatted) {pdir : Dir} {r : Option DirEntry}
    (h : Returns (searchDirEntry E pdir name) s r s') :
    (s.answer E 560 = none ∧ r = none ∧ s' = s.answered Blk.buffer none) ∨
      ∃ a b, s.answer E 560 = some a ∧ (s.alloc a Blk.buffer).answer E 512 = some b ∧
        s.heap pdir.inode = some Blk.inode ∧ r = lookup s.disk (s.inode pdir.inode) name ∧
        s' = s.searched E a b := by
  obtain ⟨ans, t, h1, h⟩ := returns_bind.mp h
  obtain ⟨rfl, rfl⟩ := returns_sysMalloc.mp h1
  cases ha : s.answer E 560 with
  | none =>
    rw [ha] at h
    obtain ⟨rfl, rfl⟩ := returns_pure.mp h
    exact Or.inl ⟨rfl, rfl, rfl⟩
  | some a =>
    rw [ha] at h
    obtain ⟨ino, t, h2, h⟩ := returns_bind.mp h
    obtain ⟨hlive, rfl, rfl⟩ := returns_inodeAt.mp h2
    obtain ⟨blocks, t, h3, h⟩ := returns_bind.mp h
    obtain ⟨-, rfl, rfl⟩ := returns_collectBlocks.mp h3
    obtain ⟨b, t, h4, h⟩ := returns_bind.mp h
    obtain ⟨hb, rfl⟩ := returns_sysMallocUnchecked.mp h4
    obtain ⟨r', t, h5, h⟩ := returns_bind.mp h
    obtain ⟨rfl, rfl⟩ := searchBlocks_sound hp h5
    obtain ⟨u, t, h6, h⟩ := returns_bind.mp h
    obtain ⟨-, rfl⟩ := returns_sysFree.mp h6
    obtain ⟨u, t, h7, h⟩ := returns_bind.mp h
    obtain ⟨-, rfl⟩ := returns_sysFree.mp h7
    obtain ⟨rfl, rfl⟩ := returns_pure.mp h
    have hne : pdir.inode ≠ a := by
      -- the buffer `a` is not an inode
      rintro rfl
      simp [Fs.answered, Fs.alloc] at hlive
    have hheap : s.heap pdir.inode = some Blk.inode := by
      simpa [Fs.answered, Fs.alloc, hne] using hlive
    refine Or.inr ⟨a, b, rfl, hb, hheap, ?_, rfl⟩
    have hino : (s.answered Blk.buffer (some a)).inode pdir.inode = s.inode pdir.inode := by
      simp [Fs.answered, Fs.alloc, hne]
    rw [hino]
    rfl

/-- `search_dir_entry` returns on a directory whose blocks lie on the disk. -/
theorem searchDirEntry_complete (hp : E.part.Formatted) {pdir : Dir}
    (hlive : s.heap pdir.inode = some Blk.inode)
    (htable : (s.inode pdir.inode).iSectors 12 ≤ maxLba)
    (hdisk : ∀ k < 140, (s.inode pdir.inode).blocks s.disk k ≤ maxLba)
    (hheap : s.SearchSupplied E) :
    ∃ s', Returns (searchDirEntry E pdir name) s
      (lookup s.disk (s.inode pdir.inode) name) s' := by
  obtain ⟨a, b, ha, hb⟩ := hheap
  have hne : pdir.inode ≠ a := by
    rintro rfl
    have hnone := E.malloc_fresh ha
    rw [hlive] at hnone
    cases hnone
  have hino : (s.alloc a Blk.buffer).inode pdir.inode = s.inode pdir.inode := by
    simp [Fs.alloc, hne]
  have hheap' : (s.alloc a Blk.buffer).heap pdir.inode = some Blk.inode := by
    simpa [Fs.alloc, hne] using hlive
  refine ⟨s.searched E a b, ?_⟩
  refine returns_bind.mpr ⟨_, _, returns_sysMalloc.mpr ⟨ha.symm, rfl⟩, ?_⟩
  refine returns_bind.mpr ⟨_, _, returns_inodeAt.mpr ⟨hheap', rfl, rfl⟩, ?_⟩
  refine returns_bind.mpr ⟨_, _, returns_collectBlocks.mpr ⟨fun _ ↦ ?_, rfl, rfl⟩, ?_⟩
  · change ((s.alloc a Blk.buffer).inode pdir.inode).iSectors 12 ≤ maxLba
    rw [hino]
    exact htable
  refine returns_bind.mpr ⟨_, _, returns_sysMallocUnchecked.mpr ⟨hb, rfl⟩, ?_⟩
  refine returns_bind.mpr ⟨_, _, searchBlocks_complete hp fun k _ hk ↦ ?_, ?_⟩
  · change ((s.alloc a Blk.buffer).inode pdir.inode).blocks s.disk k ≤ maxLba
    rw [hino]
    exact hdisk k (by omega)
  refine returns_bind.mpr ⟨PUnit.unit, _, returns_sysFree.mpr ⟨fun hk ↦ ?_, rfl⟩, ?_⟩
  · exact (E.malloc_kernel hb).mp (Option.isNone_iff_eq_none.mpr hk)
  refine returns_bind.mpr ⟨PUnit.unit, _, returns_sysFree.mpr ⟨fun hk ↦ ?_, rfl⟩, ?_⟩
  · exact (E.malloc_kernel ha).mp (Option.isNone_iff_eq_none.mpr hk)
  refine returns_pure.mpr ⟨?_, rfl⟩
  change _ = lookup s.disk ((s.alloc a Blk.buffer).inode pdir.inode) name
  rw [hino]

end Code

end GlowOS
