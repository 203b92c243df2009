import Mathlib
import GlowOS.Fs.File
import GlowOS.Fs.Insertion

/-!
# The contents of a file

`FileHolds` ties the inode of a regular file, its indirect table and its blocks to the bytes the
file is meant to hold. The number `u` of blocks is a parameter of its own: `file_write` allocates
before it writes, and between the two the file has more blocks than its size calls for.

Each step of `file_write` is one lemma here: new direct blocks, a new table with the blocks behind
it, and the bytes of one sector.
-/

namespace GlowOS

open Bytes

/-- The file with the inode `ino` has the blocks `0, …, u - 1`, and they hold `content`. -/
structure FileHolds (E : Env) (d : Image) (bm : Bitmap) (ino : Inode) (u : ℕ)
    (content : Image) : Prop where
  le : u ≤ 140
  owns : ino.Owns E d bm
  onDisk : ∀ p ≤ 140, ino.held d p ≤ maxLba
  blocks : ∀ k < 140, ino.blocks d k ≠ 0 ↔ k < u
  table : ino.iSectors 12 ≠ 0 ↔ 12 < u
  room : ino.iSize ≤ 512 * u
  data : ∀ i < ino.iSize, d (512 * ino.blocks d (i / 512) + i % 512) = content i

/-- A file without blocks is empty. -/
theorem fileHolds_empty {E : Env} {d : Image} {bm : Bitmap} {ino : Inode} (content : Image)
    (hsize : ino.iSize = 0) (hsec : ∀ k < 13, ino.iSectors k = 0) :
    FileHolds E d bm ino 0 content := by
  have hblocks : ∀ k < 140, ino.blocks d k = 0 := by
    intro k hk
    by_cases h12 : k < 12
    · rw [Inode.blocks_of_lt h12]
      exact hsec k (by omega)
    · exact Inode.blocks_of_no_table (by omega) (hsec 12 (by decide))
  have hheld : ∀ p ≤ 140, ino.held d p = 0 := by
    intro p hp
    by_cases h140 : p = 140
    · rw [h140, Inode.held_table]
      exact hsec 12 (by decide)
    · rw [Inode.held_of_lt (by omega)]
      exact hblocks p (by omega)
  refine ⟨by omega, ⟨?_, ?_, ?_⟩, ?_, ?_, ?_, by omega, ?_⟩
  · exact fun p hp h0 ↦ absurd (hheld p hp) h0
  · exact fun p hp h0 ↦ absurd (hheld p hp) h0
  · exact fun p hp _ _ h0 _ ↦ absurd (hheld p hp) h0
  · intro p hp
    rw [hheld p hp]
    exact Nat.zero_le _
  · intro k hk
    rw [hblocks k hk]
    omega
  · rw [hsec 12 (by decide)]
    omega
  · intro i hi
    omega

/-- The blocks of an inode with a new table, which has just been written. -/
theorem Inode.blocks_newTable {d : Image} {ino : Inode} {lba k : ℕ} {w : ℕ → ℕ} (h0 : lba ≠ 0)
    (hk : k < 140) (hw : 12 ≤ k → w (k - 12) < 2 ^ 32) :
    (ino.setSector 12 lba).blocks (splice d (512 * lba) 512 (ofWords w)) k
      = if k < 12 then ino.iSectors k else w (k - 12) := by
  have h12 : (ino.setSector 12 lba).iSectors 12 = lba := Inode.setSector_self ino 12 lba
  by_cases hk12 : k < 12
  · rw [if_pos hk12, Inode.blocks_of_lt hk12]
    exact Inode.setSector_of_ne ino (by omega) lba
  · rw [if_neg hk12, Inode.blocks_of_table (by omega) (ne_of_eq_of_ne h12 h0), h12, tableAt,
      le32_splice_of_mem (by omega) (by omega), Nat.add_sub_cancel_left,
      le32_ofWords (hw (by omega))]

namespace FileHolds

variable {E : Env} {d d' : Image} {bm bm' : Bitmap} {ino ino' : Inode} {u : ℕ} {content : Image}

theorem held_ne_zero (h : FileHolds E d bm ino u content) {k : ℕ} (hk : k < u) :
    ino.held d k ≠ 0 := by
  have hu := h.le
  rw [Inode.held_of_lt (by omega)]
  exact (h.blocks k (by omega)).mpr hk

/-- The table is not one of the blocks. -/
theorem table_ne_block (h : FileHolds E d bm ino u content) (h0 : ino.iSectors 12 ≠ 0) {k : ℕ}
    (hk : k < u) : ino.iSectors 12 ≠ ino.blocks d k := by
  have hu := h.le
  intro heq
  have := h.owns.inj 140 (le_refl _) k (by omega) (by rwa [Inode.held_table])
    (by rw [Inode.held_table, heq, Inode.held_of_lt (by omega)])
  omega

theorem block_inj (h : FileHolds E d bm ino u content) {k m : ℕ} (hk : k < u) (hm : m < u)
    (heq : ino.blocks d k = ino.blocks d m) : k = m := by
  have hu := h.le
  refine h.owns.inj k (by omega) m (by omega) (h.held_ne_zero hk) ?_
  rw [Inode.held_of_lt (by omega), Inode.held_of_lt (by omega), heq]

theorem block_le (h : FileHolds E d bm ino u content) {k : ℕ} (hk : k < u) :
    ino.blocks d k ≤ maxLba := by
  have hu := h.le
  rw [← Inode.held_of_lt (by omega)]
  exact h.onDisk k (by omega)

/-- The blocks of another inode with the same pointers, on a disk with the same table. -/
theorem held_congr (hsec : ∀ k < 13, ino'.iSectors k = ino.iSectors k)
    (htable : ino.iSectors 12 ≠ 0 → SameSector d d' (ino.iSectors 12)) {p : ℕ} (hp : p ≤ 140) :
    ino'.held d' p = ino.held d p := by
  by_cases h140 : p = 140
  · rw [h140, Inode.held_table, Inode.held_table]
    exact hsec 12 (by decide)
  · rw [Inode.held_of_lt (by omega), Inode.held_of_lt (by omega)]
    exact Inode.blocks_congr hsec htable (by omega)

/-- **Frame.** What does not touch the blocks of the file leaves its contents alone. -/
theorem congr (h : FileHolds E d bm ino u content)
    (hsec : ∀ k < 13, ino'.iSectors k = ino.iSectors k) (hsize : ino'.iSize = ino.iSize)
    (hbits : ∀ i, bm.bit i = true → bm'.bit i = true)
    (hdisk : ∀ p ≤ 140, ino.held d p ≠ 0 → SameSector d d' (ino.held d p)) :
    FileHolds E d' bm' ino' u content := by
  have htable : ino.iSectors 12 ≠ 0 → SameSector d d' (ino.iSectors 12) := fun h0 ↦
    Inode.held_table (d := d) ▸ hdisk 140 (le_refl _) (by rwa [Inode.held_table])
  have hheld : ∀ p ≤ 140, ino'.held d' p = ino.held d p := fun p hp ↦ held_congr hsec htable hp
  have hblocks : ∀ k < 140, ino'.blocks d' k = ino.blocks d k := fun k hk ↦
    Inode.blocks_congr hsec htable hk
  have hu := h.le
  have hroom := h.room
  refine ⟨h.le, ⟨?_, ?_, ?_⟩, ?_, ?_, ?_, hsize ▸ h.room, ?_⟩
  · intro p hp h0
    rw [hheld p hp] at h0 ⊢
    exact h.owns.inData p hp h0
  · intro p hp h0
    rw [hheld p hp] at h0 ⊢
    exact hbits _ (h.owns.used p hp h0)
  · intro p hp q hq h0 heq
    rw [hheld p hp] at h0 heq
    rw [hheld q hq] at heq
    exact h.owns.inj p hp q hq h0 heq
  · intro p hp
    rw [hheld p hp]
    exact h.onDisk p hp
  · intro k hk
    rw [hblocks k hk]
    exact h.blocks k hk
  · rw [hsec 12 (by decide)]
    exact h.table
  · intro i hi
    rw [hsize] at hi
    have hku : i / 512 < u := by omega
    rw [hblocks _ (by omega), ← h.data i hi, ← Inode.held_of_lt (by omega)]
    exact hdisk (i / 512) (by omega) (h.held_ne_zero hku) (i % 512) (Nat.mod_lt _ (by decide))

/-- More blocks. What is held afterwards was held before, or was free. -/
theorem extend {u' : ℕ} (h : FileHolds E d bm ino u content) (huu : u ≤ u') (hu' : u' ≤ 140)
    (hsize : ino'.iSize = ino.iSize)
    (hbits : ∀ i, bm.bit i = true → bm'.bit i = true)
    (hdisk : ∀ p ≤ 140, ino.held d p ≠ 0 → SameSector d d' (ino.held d p))
    (hold : ∀ k < u, ino'.blocks d' k = ino.blocks d k)
    (hsplit : ∀ p ≤ 140, ino'.held d' p ≠ 0 → ino'.held d' p = ino.held d p ∨
      (E.part.sb.dataStartLba ≤ ino'.held d' p ∧ ino'.held d' p ≤ maxLba ∧
        bm.bit (ino'.held d' p - E.part.sb.dataStartLba) = false ∧
        bm'.bit (ino'.held d' p - E.part.sb.dataStartLba) = true))
    (hinj : ∀ p ≤ 140, ∀ q ≤ 140, ino'.held d' p ≠ 0 → ino'.held d' p = ino'.held d' q →
      bm.bit (ino'.held d' p - E.part.sb.dataStartLba) = false → p = q)
    (hblocks : ∀ k < 140, ino'.blocks d' k ≠ 0 ↔ k < u')
    (htable : ino'.iSectors 12 ≠ 0 ↔ 12 < u') :
    FileHolds E d' bm' ino' u' content := by
  have hroom := h.room
  refine ⟨hu', ⟨?_, ?_, ?_⟩, ?_, hblocks, htable, by omega, ?_⟩
  · intro p hp h0
    rcases hsplit p hp h0 with heq | ⟨h1, -⟩
    · rw [heq] at h0 ⊢
      exact h.owns.inData p hp h0
    · exact h1
  · intro p hp h0
    rcases hsplit p hp h0 with heq | ⟨-, -, -, h1⟩
    · rw [heq] at h0 ⊢
      exact hbits _ (h.owns.used p hp h0)
    · exact h1
  · intro p hp q hq h0 heq
    by_cases hfree : bm.bit (ino'.held d' p - E.part.sb.dataStartLba) = false
    · exact hinj p hp q hq h0 heq hfree
    · -- neither is new, so both were held before
      rcases hsplit p hp h0 with hp' | ⟨-, -, h1, -⟩
      · rcases hsplit q hq (heq ▸ h0) with hq' | ⟨-, -, h1, -⟩
        · rw [hp'] at h0
          exact h.owns.inj p hp q hq h0 (by rw [← hp', ← hq', heq])
        · rw [← heq] at h1
          exact absurd h1 hfree
      · exact absurd h1 hfree
  · intro p hp
    by_cases h0 : ino'.held d' p = 0
    · rw [h0]
      exact Nat.zero_le _
    · rcases hsplit p hp h0 with heq | ⟨-, h1, -⟩
      · rw [heq]
        exact h.onDisk p hp
      · exact h1
  · intro i hi
    rw [hsize] at hi
    have hku : i / 512 < u := by omega
    rw [hold _ hku, ← h.data i hi, ← Inode.held_of_lt (by omega)]
    exact hdisk (i / 512) (by omega) (h.held_ne_zero hku) (i % 512) (Nat.mod_lt _ (by decide))

/-- Situation 1: one more direct block. -/
theorem addDirect {i : ℕ} (h : FileHolds E d bm ino u content) (hu : u < 12)
    (hstart : 0 < E.part.sb.dataStartLba) (hlba : E.part.sb.dataStartLba + i ≤ maxLba)
    (hfree : bm.bit i = false) (hdata : ∀ l, E.part.sb.dataStartLba ≤ l → SameSector d d' l) :
    FileHolds E d' (bm.set i true) (ino.setSector u (E.part.sb.dataStartLba + i)) (u + 1)
      content := by
  have hdisk : ∀ p ≤ 140, ino.held d p ≠ 0 → SameSector d d' (ino.held d p) := fun p hp h0 ↦
    hdata _ (h.owns.inData p hp h0)
  have h12 : (ino.setSector u (E.part.sb.dataStartLba + i)).iSectors 12 = ino.iSectors 12 :=
    Inode.setSector_of_ne ino (by omega) _
  have htab0 : ino.iSectors 12 = 0 := by
    by_contra h0
    have := h.table.mp h0
    omega
  have hblk : ∀ k < 140, (ino.setSector u (E.part.sb.dataStartLba + i)).blocks d' k
      = if k = u then E.part.sb.dataStartLba + i else ino.blocks d k := by
    intro k hk
    by_cases hk12 : k < 12
    · rw [Inode.blocks_of_lt hk12, Inode.blocks_of_lt hk12]
      by_cases hku : k = u
      · rw [if_pos hku, hku]
        exact Inode.setSector_self ino u _
      · rw [if_neg hku]
        exact Inode.setSector_of_ne ino hku _
    · rw [Inode.blocks_of_no_table (by omega) (h12.trans htab0),
        Inode.blocks_of_no_table (by omega) htab0, if_neg (by omega)]
  have hheld : ∀ p ≤ 140, (ino.setSector u (E.part.sb.dataStartLba + i)).held d' p
      = if p = u then E.part.sb.dataStartLba + i else ino.held d p := by
    intro p hp
    by_cases h140 : p = 140
    · rw [h140, Inode.held_table, Inode.held_table, h12, if_neg (by omega)]
    · rw [Inode.held_of_lt (by omega), hblk p (by omega), Inode.held_of_lt (by omega)]
  have hcancel : E.part.sb.dataStartLba + i - E.part.sb.dataStartLba = i :=
    Nat.add_sub_cancel_left ..
  refine h.extend (by omega) (by omega) rfl ?_ hdisk ?_ ?_ ?_ ?_ ?_
  · intro j hj
    rw [Bitmap.bit_set]
    split_ifs
    · rfl
    · exact hj
  · intro k hk
    rw [hblk k (by omega), if_neg (by omega)]
  · intro p hp h0
    rw [hheld p hp]
    by_cases hpu : p = u
    · rw [if_pos hpu, hcancel]
      exact Or.inr ⟨by omega, hlba, hfree, by rw [Bitmap.bit_set, if_pos rfl]⟩
    · rw [if_neg hpu]
      exact Or.inl rfl
  · intro p hp q hq h0 heq hbit
    rw [hheld p hp] at h0 heq hbit
    rw [hheld q hq] at heq
    by_cases hpu : p = u
    · by_cases hqu : q = u
      · rw [hpu, hqu]
      · rw [if_pos hpu, if_neg hqu] at heq
        have hq0 : ino.held d q ≠ 0 := by omega
        exact absurd heq.symm (h.owns.ne_free hq hq0 hfree)
    · rw [if_neg hpu] at h0 hbit
      have := h.owns.used p hp h0
      rw [hbit] at this
      cases this
  · intro k hk
    rw [hblk k hk]
    by_cases hku : k = u
    · rw [if_pos hku]
      omega
    · rw [if_neg hku, h.blocks k hk]
      omega
  · rw [h12, h.table]
    omega

/-- Situation 2: an indirect table and the blocks behind it, for a file with twelve blocks. -/
theorem addTable {u' i : ℕ} {idx : ℕ → ℕ} {w : ℕ → ℕ} (h : FileHolds E d bm ino 12 content)
    (hu : 12 < u') (hu' : u' ≤ 140) (hstart : 0 < E.part.sb.dataStartLba)
    (hlba : E.part.sb.dataStartLba + i ≤ maxLba) (hfree : bm.bit i = false)
    (hlbas : ∀ k, 12 ≤ k → k < u' → E.part.sb.dataStartLba + idx k ≤ maxLba)
    (hfrees : ∀ k, 12 ≤ k → k < u' → bm.bit (idx k) = false ∧ idx k ≠ i)
    (hinj : ∀ k m, 12 ≤ k → k < u' → 12 ≤ m → m < u' → idx k = idx m → k = m)
    (hbits : ∀ j, bm'.bit j = true ↔ bm.bit j = true ∨ j = i ∨ ∃ k, 12 ≤ k ∧ k < u' ∧ idx k = j)
    (hdata : ∀ l, E.part.sb.dataStartLba ≤ l → SameSector d d' l)
    (hw : ∀ k, 12 ≤ k → k < 140 → w (k - 12)
      = if k < u' then E.part.sb.dataStartLba + idx k else 0) :
    FileHolds E (splice d' (512 * (E.part.sb.dataStartLba + i)) 512 (ofWords w)) bm'
      (ino.setSector 12 (E.part.sb.dataStartLba + i)) u' content := by
  set lba := E.part.sb.dataStartLba + i with hlba'
  have hmax : maxLba = 163839 := by decide
  have hdisk : ∀ p ≤ 140, ino.held d p ≠ 0 →
      SameSector d (splice d' (512 * lba) 512 (ofWords w)) (ino.held d p) := fun p hp h0 ↦
    (hdata _ (h.owns.inData p hp h0)).trans (sameSector_splice (h.owns.ne_free hp h0 hfree))
  have h12 : (ino.setSector 12 lba).iSectors 12 = lba := Inode.setSector_self ino 12 lba
  have htab0 : ino.iSectors 12 = 0 := by
    by_contra h0
    have := h.table.mp h0
    omega
  have hdir : ∀ k < 12, (ino.setSector 12 lba).blocks
      (splice d' (512 * lba) 512 (ofWords w)) k = ino.blocks d k := by
    intro k hk
    rw [Inode.blocks_newTable (by omega) (by omega) (by omega), if_pos hk, Inode.blocks_of_lt hk]
  have hind : ∀ k, 12 ≤ k → k < 140 → (ino.setSector 12 lba).blocks
      (splice d' (512 * lba) 512 (ofWords w)) k
        = if k < u' then E.part.sb.dataStartLba + idx k else 0 := by
    intro k h1 h2
    have hlt : w (k - 12) < 2 ^ 32 := by
      rw [hw k h1 h2]
      split_ifs with hk
      · have := hlbas k h1 hk
        omega
      · omega
    rw [Inode.blocks_newTable (by omega) h2 fun _ ↦ hlt, if_neg (by omega), hw k h1 h2]
  have hcancel : ∀ j, E.part.sb.dataStartLba + j - E.part.sb.dataStartLba = j := fun j ↦
    Nat.add_sub_cancel_left ..
  -- the blocks held afterwards, by position
  have hheld : ∀ p ≤ 140, (ino.setSector 12 lba).held (splice d' (512 * lba) 512 (ofWords w)) p
      = if p < 12 then ino.held d p
        else if p < u' then E.part.sb.dataStartLba + idx p
        else if p = 140 then lba else 0 := by
    intro p hp
    by_cases h140 : p = 140
    · rw [h140, Inode.held_table, h12, if_neg (by omega), if_neg (by omega), if_pos rfl]
    · rw [Inode.held_of_lt (by omega)]
      by_cases hp12 : p < 12
      · rw [if_pos hp12, hdir p hp12, Inode.held_of_lt (by omega)]
      · rw [if_neg hp12, hind p (by omega) (by omega), if_neg h140]
  refine h.extend (by omega) hu' rfl ?_ hdisk hdir ?_ ?_ ?_ ?_
  · exact fun j hj ↦ (hbits j).mpr (Or.inl hj)
  · intro p hp h0
    rw [hheld p hp] at h0 ⊢
    by_cases hp12 : p < 12
    · rw [if_pos hp12]
      exact Or.inl rfl
    · rw [if_neg hp12] at h0 ⊢
      by_cases hpu : p < u'
      · rw [if_pos hpu, hcancel]
        refine Or.inr ⟨by omega, hlbas p (by omega) hpu, (hfrees p (by omega) hpu).1, ?_⟩
        exact (hbits _).mpr (Or.inr (Or.inr ⟨p, by omega, hpu, rfl⟩))
      · rw [if_neg hpu] at h0 ⊢
        by_cases h140 : p = 140
        · rw [if_pos h140, hlba', hcancel]
          exact Or.inr ⟨by omega, hlba, hfree, (hbits i).mpr (Or.inr (Or.inl rfl))⟩
        · rw [if_neg h140] at h0
          exact absurd rfl h0
  · intro p hp q hq h0 heq hbit
    rw [hheld p hp] at h0 heq hbit
    rw [hheld q hq] at heq
    by_cases hp12 : p < 12
    · rw [if_pos hp12] at h0 hbit
      have := h.owns.used p hp h0
      rw [hbit] at this
      cases this
    · rw [if_neg hp12] at h0 heq hbit
      by_cases hq12 : q < 12
      · -- a new block is not an old one
        rw [if_pos hq12] at heq
        have hq0 : ino.held d q ≠ 0 := heq ▸ h0
        by_cases hpu : p < u'
        · rw [if_pos hpu] at heq
          exact absurd heq.symm (h.owns.ne_free hq hq0 (hfrees p (by omega) hpu).1)
        · rw [if_neg hpu] at heq h0
          by_cases h140 : p = 140
          · rw [if_pos h140] at heq
            exact absurd heq.symm (h.owns.ne_free hq hq0 hfree)
          · rw [if_neg h140] at h0
            exact absurd rfl h0
      · rw [if_neg hq12] at heq
        by_cases hpu : p < u'
        · rw [if_pos hpu] at heq
          by_cases hqu : q < u'
          · rw [if_pos hqu] at heq
            exact hinj p q (by omega) hpu (by omega) hqu (by omega)
          · rw [if_neg hqu] at heq
            by_cases h140 : q = 140
            · rw [if_pos h140] at heq
              have := (hfrees p (by omega) hpu).2
              omega
            · rw [if_neg h140] at heq
              omega
        · rw [if_neg hpu] at heq h0
          by_cases h140 : p = 140
          · rw [if_pos h140] at heq
            by_cases hqu : q < u'
            · rw [if_pos hqu] at heq
              have := (hfrees q (by omega) hqu).2
              omega
            · rw [if_neg hqu] at heq
              by_cases hq140 : q = 140
              · rw [h140, hq140]
              · rw [if_neg hq140] at heq
                omega
          · rw [if_neg h140] at h0
            exact absurd rfl h0
  · intro k hk
    by_cases hk12 : k < 12
    · rw [hdir k hk12, h.blocks k hk]
      omega
    · rw [hind k (by omega) hk]
      split_ifs <;> omega
  · rw [h12]
    omega

/-- Writing to a block leaves the pointers alone. -/
theorem blocks_write {n k m : ℕ} {g : Image} (h : FileHolds E d bm ino u content) (hk : k < u)
    (hm : m < 140) :
    (ino.grow n).blocks (splice d (512 * ino.blocks d k) 512 g) m = ino.blocks d m :=
  Inode.blocks_congr (fun _ _ ↦ rfl) (fun h0 ↦ sameSector_splice (h.table_ne_block h0 hk)) hm

/-- Writing to the sector behind the end of the file. -/
theorem write {n : ℕ} {g src : Image} (h : FileHolds E d bm ino u content)
    (hk : ino.iSize / 512 < u) (hn : n ≤ 512 - ino.iSize % 512)
    (hold : ∀ i < ino.iSize % 512, g i = d (512 * ino.blocks d (ino.iSize / 512) + i))
    (hnew : ∀ i < n, g (ino.iSize % 512 + i) = src i) :
    FileHolds E (splice d (512 * ino.blocks d (ino.iSize / 512)) 512 g) bm (ino.grow n) u
      (splice content ino.iSize n src) := by
  have hu := h.le
  set b := ino.blocks d (ino.iSize / 512) with hb
  have hne : ∀ p ≤ 140, ino.held d p ≠ 0 → p ≠ ino.iSize / 512 → ino.held d p ≠ b := by
    intro p hp h0 hpk heq
    refine hpk (h.owns.inj p hp _ (by omega) h0 ?_)
    rw [heq, Inode.held_of_lt (by omega)]
  have htable : ino.iSectors 12 ≠ 0 → SameSector d (splice d (512 * b) 512 g) (ino.iSectors 12) := by
    intro h0
    exact sameSector_splice (h.table_ne_block h0 hk)
  have hsec : ∀ k < 13, (ino.grow n).iSectors k = ino.iSectors k := fun _ _ ↦ rfl
  have hheld : ∀ p ≤ 140, (ino.grow n).held (splice d (512 * b) 512 g) p = ino.held d p :=
    fun p hp ↦ held_congr hsec htable hp
  have hblocks : ∀ m < 140, (ino.grow n).blocks (splice d (512 * b) 512 g) m = ino.blocks d m :=
    fun m hm ↦ h.blocks_write hk hm
  refine ⟨h.le, ⟨?_, ?_, ?_⟩, ?_, ?_, h.table, ?_, ?_⟩
  · intro p hp h0
    rw [hheld p hp] at h0 ⊢
    exact h.owns.inData p hp h0
  · intro p hp h0
    rw [hheld p hp] at h0 ⊢
    exact h.owns.used p hp h0
  · intro p hp q hq h0 heq
    rw [hheld p hp] at h0 heq
    rw [hheld q hq] at heq
    exact h.owns.inj p hp q hq h0 heq
  · intro p hp
    rw [hheld p hp]
    exact h.onDisk p hp
  · intro k hk
    rw [hblocks k hk]
    exact h.blocks k hk
  · change ino.iSize + n ≤ 512 * u
    omega
  · intro i hi
    change i < ino.iSize + n at hi
    rw [hblocks _ (by omega)]
    have hmod := Nat.mod_lt i (show 0 < 512 by decide)
    by_cases hik : i / 512 = ino.iSize / 512
    · rw [hik, ← hb, splice_of_mem (by omega) (by omega), Nat.add_sub_cancel_left]
      by_cases his : i < ino.iSize
      · rw [splice_of_lt his, hold _ (by omega), ← h.data i his, hik]
      · rw [splice_of_mem (by omega) (by omega), ← hnew _ (by omega)]
        congr 1
        omega
    · have his : i < ino.iSize := by omega
      have hlt : ino.blocks d (i / 512) ≠ b := fun heq ↦
        hik (h.block_inj (by omega) hk heq)
      rw [splice_of_lt his, splice_of_disjoint (by omega), h.data i his]

end FileHolds

end GlowOS
