import Mathlib
import GlowOS.Fs.Frames
import GlowOS.Fs.Insertion
import GlowOS.Fs.RoundTrip
import GlowOS.Fs.Syscalls

/-!
# Empty directories

`dir_is_empty` looks at `i_size` alone, and `dir_remove` asserts that an empty directory has no block
but the first. What connects the two is that every other block has an entry in it: `delete_dir_entry`
gives a block back with its last entry.

For the blocks of the indirect table this is not so, as the loop that counts them never ends. But
`sync_dir_entry` puts one entry into each of them at most, so a call that deletes such an entry does
not return, and the entry counts for ever.
-/

namespace GlowOS

open Bytes Program

/-! ## Scanning a block -/

/-- The name is neither "." nor "..". -/
def DirEntry.Ordinary (e : DirEntry) : Prop := e.name ≠ dot ∧ e.name ≠ dotDot

/-- `delete_dir_entry` counts the entry `i` of the block. -/
def Counted (buf : Image) (i : ℕ) : Prop :=
  (DirEntry.decode buf (24 * i)).fType ≠ .unknown ∧ (DirEntry.decode buf (24 * i)).Ordinary

/-- A short name compares equal to the name that is stored. -/
theorem strEq_iff_of_short {b : Image} {o : ℕ} {name : List UInt8} (hlen : name.length < 16)
    (hz : (0 : UInt8) ∉ name) : strEq b o name = true ↔ (DirEntry.decode b o).name = name := by
  by_cases ht : (DirEntry.decode b o).Terminated
  · exact DirEntry.strEq_iff_name ht hz
  · rw [DirEntry.strEq_of_not_terminated ht (by omega)]
    refine iff_of_false (by simp) fun hname ↦ ht (Or.inl ?_)
    rw [← DirEntry.length_name, hname]
    exact hlen

theorem strEq_dot {b : Image} {o : ℕ} :
    strEq b o dot = true ↔ (DirEntry.decode b o).name = dot :=
  strEq_iff_of_short (by decide) (by decide)

theorem strEq_dotDot {b : Image} {o : ℕ} :
    strEq b o dotDot = true ↔ (DirEntry.decode b o).name = dotDot :=
  strEq_iff_of_short (by decide) (by decide)

/-- What the scan of the entries from `j` to `j + left` adds to `r`. -/
structure Scanned (buf : Image) (j left : ℕ) (r r' : BlockScan) : Prop where
  one : r.dirEntryCnt + 1 ≤ r'.dirEntryCnt → ∃ i, j ≤ i ∧ i < j + left ∧ Counted buf i
  two : r.dirEntryCnt + 2 ≤ r'.dirEntryCnt →
    ∃ i i', j ≤ i ∧ i < i' ∧ i' < j + left ∧ Counted buf i ∧ Counted buf i'
  found : ∀ i, r'.dirEntryFound = some i →
    r.dirEntryFound = some i ∨ j ≤ i ∧ i < j + left ∧ Counted buf i
  first : r'.isDirFirstBlock = true ↔ r.isDirFirstBlock = true ∨ ∃ i, j ≤ i ∧ i < j + left ∧
    (DirEntry.decode buf (24 * i)).fType ≠ .unknown ∧ (DirEntry.decode buf (24 * i)).name = dot

section Scanning

variable {buf : Image} {j left n : ℕ} {r r' r₁ : BlockScan}

/-- An entry that is not counted. -/
theorem Scanned.skip (h : Scanned buf (j + 1) left r₁ r') (hcnt : r₁.dirEntryCnt = r.dirEntryCnt)
    (hfound : r₁.dirEntryFound = r.dirEntryFound)
    (hfirst : r₁.isDirFirstBlock = true ↔ r.isDirFirstBlock = true ∨
      (DirEntry.decode buf (24 * j)).fType ≠ .unknown ∧ (DirEntry.decode buf (24 * j)).name = dot) :
    Scanned buf j (left + 1) r r' where
  one hle := by
    obtain ⟨i, h1, h2, hi⟩ := h.one (by omega)
    exact ⟨i, by omega, by omega, hi⟩
  two hle := by
    obtain ⟨i, i', h1, h2, h3, hi⟩ := h.two (by omega)
    exact ⟨i, i', by omega, h2, by omega, hi⟩
  found i hi := by
    rcases h.found i hi with hold | ⟨h1, h2, hi⟩
    · exact Or.inl (hfound ▸ hold)
    · exact Or.inr ⟨by omega, by omega, hi⟩
  first := by
    rw [h.first, hfirst]
    constructor
    · rintro ((hold | hj) | ⟨i, h1, h2, hi⟩)
      · exact Or.inl hold
      · exact Or.inr ⟨j, le_rfl, by omega, hj⟩
      · exact Or.inr ⟨i, by omega, by omega, hi⟩
    · rintro (hold | ⟨i, h1, h2, hi⟩)
      · exact Or.inl (Or.inl hold)
      · by_cases hij : i = j
        · exact Or.inl (Or.inr (hij ▸ hi))
        · exact Or.inr ⟨i, by omega, by omega, hi⟩

/-- An entry that is counted. -/
theorem Scanned.count (h : Scanned buf (j + 1) left r₁ r') (hj : Counted buf j)
    (hcnt : r₁.dirEntryCnt = r.dirEntryCnt + 1)
    (hfound : ∀ i, r₁.dirEntryFound = some i → r.dirEntryFound = some i ∨ i = j)
    (hfirst : r₁.isDirFirstBlock = r.isDirFirstBlock) : Scanned buf j (left + 1) r r' where
  one _ := ⟨j, le_rfl, by omega, hj⟩
  two hle := by
    obtain ⟨i, h1, h2, hi⟩ := h.one (by omega)
    exact ⟨j, i, le_rfl, by omega, by omega, hj, hi⟩
  found i hi := by
    rcases h.found i hi with hold | ⟨h1, h2, hi⟩
    · rcases hfound i hold with hold | rfl
      · exact Or.inl hold
      · exact Or.inr ⟨le_rfl, by omega, hj⟩
    · exact Or.inr ⟨by omega, by omega, hi⟩
  first := by
    rw [h.first, hfirst]
    constructor
    · rintro (hold | ⟨i, h1, h2, hi⟩)
      · exact Or.inl hold
      · exact Or.inr ⟨i, by omega, by omega, hi⟩
    · rintro (hold | ⟨i, h1, h2, hi⟩)
      · exact Or.inl hold
      · have hij : i ≠ j := by
          rintro rfl
          exact hj.2.1 hi.2
        exact Or.inr ⟨i, by omega, by omega, hi⟩

/-- The loop over the entries of a block. -/
theorem scanBlock_scanned {s s' : Fs} (hret : Returns (scanBlock buf n left j r) s r' s') :
    s' = s ∧ Scanned buf j left r r' := by
  induction left generalizing j r with
  | zero =>
    obtain ⟨rfl, rfl⟩ := returns_pure.mp hret
    refine ⟨rfl, fun h ↦ by omega, fun h ↦ by omega, fun i hi ↦ Or.inl hi, ?_⟩
    refine ⟨Or.inl, ?_⟩
    rintro (h | ⟨i, h1, h2, -⟩)
    · exact h
    · omega
  | succ left ih =>
    rw [scanBlock] at hret
    rcases returns_ite.mp hret with ⟨hlive, hret⟩ | ⟨hdead, hret⟩
    · rcases returns_ite.mp hret with ⟨hdot, hret⟩ | ⟨hdot, hret⟩
      · obtain ⟨hs, h⟩ := ih hret
        refine ⟨hs, h.skip rfl rfl ?_⟩
        exact iff_of_true rfl (Or.inr ⟨hlive, strEq_dot.mp hdot⟩)
      · have hname : (DirEntry.decode buf (24 * j)).name ≠ dot := fun h ↦ hdot (strEq_dot.mpr h)
        rcases returns_ite.mp hret with ⟨hdots, hret⟩ | ⟨hdots, hret⟩
        · obtain ⟨hs, h⟩ := ih hret
          refine ⟨hs, h.skip rfl rfl ?_⟩
          exact ⟨Or.inl, fun h ↦ h.resolve_right fun hd ↦ hname hd.2⟩
        · have hj : Counted buf j := ⟨hlive, hname, fun h ↦ hdots (strEq_dotDot.mpr h)⟩
          rcases returns_ite.mp hret with ⟨-, hret⟩ | ⟨-, hret⟩
          · obtain ⟨-, hret⟩ := returns_check_bind.mp hret
            obtain ⟨hs, h⟩ := ih hret
            exact ⟨hs, h.count hj rfl (fun i hi ↦ Or.inr (Option.some.inj hi).symm) rfl⟩
          · obtain ⟨hs, h⟩ := ih hret
            exact ⟨hs, h.count hj rfl (fun i hi ↦ Or.inl hi) rfl⟩
    · obtain ⟨hs, h⟩ := ih hret
      refine ⟨hs, h.skip rfl rfl ?_⟩
      exact ⟨Or.inl, fun h ↦ h.resolve_right fun hd ↦ hdead hd.1⟩

/-- The scan misses nothing: what the count says about the entries from `j` to `j + left`, and which of
them is found. -/
structure ScannedAll (buf : Image) (n j left : ℕ) (r r' : BlockScan) : Prop where
  le : r.dirEntryCnt ≤ r'.dirEntryCnt
  none : r'.dirEntryCnt = r.dirEntryCnt → ∀ i, j ≤ i → i < j + left → ¬Counted buf i
  one : r'.dirEntryCnt = r.dirEntryCnt + 1 → ∀ i i', j ≤ i → i < j + left → j ≤ i' →
    i' < j + left → Counted buf i → Counted buf i' → i = i'
  found : ∀ i, r'.dirEntryFound = some i →
    r.dirEntryFound = some i ∨ (DirEntry.decode buf (24 * i)).iNo = n
  missed : r'.dirEntryFound = Option.none → r.dirEntryFound = Option.none ∧
    ∀ i, j ≤ i → i < j + left → Counted buf i → (DirEntry.decode buf (24 * i)).iNo ≠ n

/-- An entry that is not counted. -/
theorem ScannedAll.skip (h : ScannedAll buf n (j + 1) left r₁ r') (hj : ¬Counted buf j)
    (hcnt : r₁.dirEntryCnt = r.dirEntryCnt) (hfound : r₁.dirEntryFound = r.dirEntryFound) :
    ScannedAll buf n j (left + 1) r r' := by
  have hne : ∀ i, j ≤ i → Counted buf i → j + 1 ≤ i := by
    intro i hi hc
    refine Nat.lt_of_le_of_ne hi ?_
    rintro rfl
    exact hj hc
  refine ⟨hcnt ▸ h.le, fun heq i h1 h2 hc ↦ ?_, fun heq i i' h1 h2 h3 h4 hc hc' ↦ ?_, fun i hi ↦ ?_,
    fun hno ↦ ?_⟩
  · exact h.none (heq.trans hcnt.symm) i (hne i h1 hc) (by omega) hc
  · exact h.one (by omega) i i' (hne i h1 hc) (by omega) (hne i' h3 hc') (by omega) hc hc'
  · exact hfound ▸ h.found i hi
  · obtain ⟨hr, hmiss⟩ := h.missed hno
    exact ⟨hfound ▸ hr, fun i h1 h2 hc ↦ hmiss i (hne i h1 hc) (by omega) hc⟩

/-- An entry that is counted, and that is found if it has the number. -/
theorem ScannedAll.count (h : ScannedAll buf n (j + 1) left r₁ r')
    (hcnt : r₁.dirEntryCnt = r.dirEntryCnt + 1)
    (hfound : (DirEntry.decode buf (24 * j)).iNo = n ∧ r₁.dirEntryFound = some j ∨
      (DirEntry.decode buf (24 * j)).iNo ≠ n ∧ r₁.dirEntryFound = r.dirEntryFound) :
    ScannedAll buf n j (left + 1) r r' := by
  have hle := h.le
  refine ⟨by omega, fun heq ↦ absurd heq (by omega), fun heq i i' h1 h2 h3 h4 hc hc' ↦ ?_,
    fun i hi ↦ ?_, fun hno ↦ ?_⟩
  · have hrest := h.none (by omega)
    have hij : ∀ i, j ≤ i → i < j + (left + 1) → Counted buf i → i = j := by
      intro i h1 h2 hc
      by_contra hne
      exact hrest i (by omega) (by omega) hc
    rw [hij i h1 h2 hc, hij i' h3 h4 hc']
  · rcases h.found i hi with hold | hnew
    · rcases hfound with ⟨hn, hr⟩ | ⟨-, hr⟩
      · obtain rfl : j = i := Option.some.inj (hr.symm.trans hold)
        exact Or.inr hn
      · exact Or.inl (hr.symm.trans hold)
    · exact Or.inr hnew
  · obtain ⟨hr, hmiss⟩ := h.missed hno
    rcases hfound with ⟨-, hr'⟩ | ⟨hn, hr'⟩
    · cases hr'.symm.trans hr
    · refine ⟨hr'.symm.trans hr, fun i h1 h2 hc ↦ ?_⟩
      rcases Nat.eq_or_lt_of_le h1 with rfl | h1
      · exact hn
      · exact hmiss i h1 (by omega) hc

/-- The loop over the entries of a block misses nothing. -/
theorem scanBlock_scannedAll {s s' : Fs} (hret : Returns (scanBlock buf n left j r) s r' s') :
    ScannedAll buf n j left r r' := by
  induction left generalizing j r with
  | zero =>
    obtain ⟨rfl, rfl⟩ := returns_pure.mp hret
    exact ⟨le_rfl, fun _ i h1 h2 ↦ by omega, fun _ i _ h1 h2 ↦ by omega, fun i hi ↦ Or.inl hi,
      fun hno ↦ ⟨hno, fun i h1 h2 ↦ by omega⟩⟩
  | succ left ih =>
    rw [scanBlock] at hret
    rcases returns_ite.mp hret with ⟨hlive, hret⟩ | ⟨hdead, hret⟩
    · rcases returns_ite.mp hret with ⟨hdot, hret⟩ | ⟨hdot, hret⟩
      · exact (ih hret).skip (fun hc ↦ hc.2.1 (strEq_dot.mp hdot)) rfl rfl
      · rcases returns_ite.mp hret with ⟨hdots, hret⟩ | ⟨hdots, hret⟩
        · exact (ih hret).skip (fun hc ↦ hc.2.2 (strEq_dotDot.mp hdots)) rfl rfl
        · rcases returns_ite.mp hret with ⟨hn, hret⟩ | ⟨hn, hret⟩
          · obtain ⟨-, hret⟩ := returns_check_bind.mp hret
            exact (ih hret).count rfl (Or.inl ⟨hn, rfl⟩)
          · exact (ih hret).count rfl (Or.inr ⟨hn, rfl⟩)
    · exact (ih hret).skip (fun hc ↦ hdead hc.1) rfl rfl

end Scanning

/-! ## Deleting an entry -/

/-- The two directories have the same data sectors on the disk. -/
def SameData (E : Env) (d d' : Image) : Prop :=
  ∀ lba, E.part.sb.dataStartLba ≤ lba → SameSector d d' lba

/-- How `delete_dir_entry` ends when it deletes the entry in a slot. -/
inductive Deleted (E : Env) (s : Fs) (a : ℕ) : ℕ × ℕ → Fs → Prop
  | clear {s' : Fs} {k j : ℕ} (hlba : (s.inode a).blocks s.disk k ≠ 0)
      (hother : (∃ i < 21, (entryAt s.disk ((s.inode a).blocks s.disk k) i).fType ≠ .unknown ∧
          (entryAt s.disk ((s.inode a).blocks s.disk k) i).name = dot) ∨
        ∃ i < 21, i ≠ j ∧ (entryAt s.disk ((s.inode a).blocks s.disk k) i).fType ≠ .unknown)
      (hdisk : SameData E (splice s.disk (512 * (s.inode a).blocks s.disk k + 24 * j) 24 fun _ ↦ 0)
        s'.disk)
      (hbitmap : s'.blockBitmap = s.blockBitmap) (hinode : s'.inode a = (s.inode a).shrink 24) :
      Deleted E s a (k, j) s'
  | drop {s' : Fs} {k j : ℕ} (hk : k < 12) (hlba : (s.inode a).blocks s.disk k ≠ 0)
      (hfirst : ¬∃ i < 21, (entryAt s.disk ((s.inode a).blocks s.disk k) i).fType ≠ .unknown ∧
        (entryAt s.disk ((s.inode a).blocks s.disk k) i).name = dot)
      (hdisk : SameData E s.disk s'.disk)
      (hbitmap : s'.blockBitmap =
        s.blockBitmap.set (blockBitmapIdx E ((s.inode a).blocks s.disk k)) false)
      (hinode : s'.inode a = ((s.inode a).setSector k 0).shrink 24) : Deleted E s a (k, j) s'

section Deleting

variable {E : Env} {s s' : Fs} {a n ioBuf : ℕ}

theorem sameData_inodeSync (hp : E.part.Formatted) {ino : Inode} {u : PUnit}
    (h : Returns (inodeSync E ino ioBuf) s u s') :
    SameData E s.disk s'.disk ∧ s'.blockBitmap = s.blockBitmap ∧ s'.inode = s.inode := by
  obtain ⟨-, rfl⟩ := returns_inodeSync.mp h
  refine ⟨fun lba hlba ↦ ?_, rfl, rfl⟩
  have hle := slotBase_le_dataStart hp (n := ino.iNo % 2 ^ 8) (by omega)
  exact agree_splice (by omega)

/-- The end of a deletion, behind the block. -/
theorem deleteEnd_sound (hp : E.part.Formatted) {r : Bool} (h : Returns (do
      let ino ← inodeAt a
      ASSERT (E.part.sb.dirEntrySize ≤ ino.iSize)
      modifyInode a fun ino ↦ ino.shrink E.part.sb.dirEntrySize
      inBounds (1024 ≤ ioBuf)
      let ino ← inodeAt a
      inodeSync E ino ioBuf
      pure true : FsM Bool) s r s') :
    r = true ∧ 24 ≤ (s.inode a).iSize ∧ SameData E s.disk s'.disk ∧
      s'.blockBitmap = s.blockBitmap ∧ s'.inode a = (s.inode a).shrink 24 := by
  rw [hp.dirEntrySize_eq] at h
  obtain ⟨ino, t, h1, h⟩ := returns_bind.mp h
  obtain ⟨-, rfl, rfl⟩ := returns_inodeAt.mp h1
  obtain ⟨hsize, h⟩ := returns_check_bind.mp h
  obtain ⟨u, t₁, h2, h⟩ := returns_bind.mp h
  obtain ⟨-, rfl⟩ := returns_modifyInode.mp h2
  obtain ⟨-, h⟩ := returns_check_bind.mp h
  obtain ⟨ino, t₂, h3, hsync⟩ := returns_bind.mp h
  obtain ⟨-, -, rfl⟩ := returns_inodeAt.mp h3
  obtain ⟨u', t₃, h4, hpure⟩ := returns_bind.mp hsync
  obtain ⟨rfl, rfl⟩ := returns_pure.mp hpure
  obtain ⟨hdata, hbitmap, hinode⟩ := sameData_inodeSync hp h4
  refine ⟨rfl, hsize, hdata, hbitmap, ?_⟩
  rw [hinode]
  exact Function.update_self ..

/-- No entry of the blocks from `k` on that `delete_dir_entry` counts has the number. -/
def NoEntry (s : Fs) (a n k : ℕ) : Prop :=
  ∀ i, k ≤ i → i < 140 → (s.inode a).blocks s.disk i ≠ 0 → ∀ j < 21,
    Counted (fun b ↦ s.disk (512 * (s.inode a).blocks s.disk i + b)) j →
      (entryAt s.disk ((s.inode a).blocks s.disk i) j).iNo ≠ n

/-- An entry with the number was deleted. A block that was given back had no other entry. -/
def DeletedOne (E : Env) (s : Fs) (a n : ℕ) (s' : Fs) : Prop :=
  24 ≤ (s.inode a).iSize ∧ ∃ i j, i < 140 ∧ j < 21 ∧
    Counted (fun b ↦ s.disk (512 * (s.inode a).blocks s.disk i + b)) j ∧
    (entryAt s.disk ((s.inode a).blocks s.disk i) j).iNo = n ∧ Deleted E s a (i, j) s' ∧
    (i < 12 → (s'.inode a).iSectors i = 0 → ∀ j' < 21,
      Counted (fun b ↦ s.disk (512 * (s.inode a).blocks s.disk i + b)) j' → j' = j)

/-- The loop over the blocks. -/
theorem deleteBlocks_exact (hm : s.Mounted E) {left k : ℕ} {r : Bool} (hleft : k + left = 140)
    (h : Returns (deleteBlocks E a n ioBuf ((s.inode a).blocks s.disk) left k) s r s') :
    r = false ∧ s' = s ∧ NoEntry s a n k ∨ r = true ∧ DeletedOne E s a n s' := by
  induction left generalizing k with
  | zero =>
    obtain ⟨rfl, rfl⟩ := returns_pure.mp h
    exact Or.inl ⟨rfl, rfl, fun i h1 h2 ↦ by omega⟩
  | succ left ih =>
    -- nothing is found in this block
    have hnext : (∀ j < 21, (s.inode a).blocks s.disk k ≠ 0 →
        Counted (fun b ↦ s.disk (512 * (s.inode a).blocks s.disk k + b)) j →
          (entryAt s.disk ((s.inode a).blocks s.disk k) j).iNo ≠ n) →
        Returns (deleteBlocks E a n ioBuf ((s.inode a).blocks s.disk) left (k + 1)) s r s' →
        r = false ∧ s' = s ∧ NoEntry s a n k ∨ r = true ∧ DeletedOne E s a n s' := by
      intro hmiss hret
      rcases ih (by omega) hret with ⟨hr, hs, hrest⟩ | hfound
      · refine Or.inl ⟨hr, hs, fun i h1 h2 h0 j hj hc ↦ ?_⟩
        rcases Nat.eq_or_lt_of_le h1 with rfl | h1
        · exact hmiss j hj h0 hc
        · exact hrest i h1 h2 h0 j hj hc
      · exact Or.inr hfound
    rw [deleteBlocks] at h
    rcases returns_ite.mp h with ⟨hzero, h⟩ | ⟨hblock, h⟩
    · exact hnext (fun j _ h0 ↦ absurd hzero h0) h
    · obtain ⟨buf, t, h1, h⟩ := returns_bind.mp h
      obtain ⟨-, -, -, rfl, rfl⟩ := (returns_ideRead (by decide)).mp h1
      obtain ⟨scan, t₁, h2, h⟩ := returns_bind.mp h
      have hall := scanBlock_scannedAll h2
      obtain ⟨rfl, hscan⟩ := scanBlock_scanned h2
      rw [dirEntrysPerSec_eq hm.part] at hscan hall
      set lba := (t₁.inode a).blocks t₁.disk k with hlba
      have hentry : ∀ i, DirEntry.decode (fun b ↦ t₁.disk (512 * lba + b)) (24 * i) =
          entryAt t₁.disk lba i := fun i ↦ decode_shift _ _ _
      cases hfound : scan.dirEntryFound with
      | none =>
        rw [hfound] at h
        obtain ⟨-, hmiss⟩ := hall.missed hfound
        exact hnext (fun j hj _ hc ↦ hentry j ▸ hmiss j (Nat.zero_le j) (by omega) hc) h
      | some j =>
        rw [hfound] at h
        obtain ⟨hone, h⟩ := returns_check_bind.mp h
        have hcounted : j < 21 ∧ Counted (fun b ↦ t₁.disk (512 * lba + b)) j := by
          rcases hscan.found j hfound with hno | ⟨-, hj, hc⟩
          · cases hno
          · exact ⟨by omega, hc⟩
        have hnumber : (entryAt t₁.disk lba j).iNo = n := by
          rcases hall.found j hfound with hno | hn
          · cases hno
          · exact hentry j ▸ hn
        have hdot : scan.isDirFirstBlock = true ↔ ∃ i < 21,
            (entryAt t₁.disk lba i).fType ≠ .unknown ∧ (entryAt t₁.disk lba i).name = dot := by
          rw [hscan.first]
          simp only [hentry, Bool.false_eq_true, false_or, Nat.zero_le, true_and, Nat.zero_add]
        rcases returns_ite.mp h with ⟨hdrop, h⟩ | ⟨hclear, h⟩
        · -- the block goes back with its last entry
          obtain ⟨u, t₂, h3, h⟩ := returns_bind.mp h
          obtain ⟨u', t₃, h4, h5⟩ := returns_bind.mp h3
          obtain ⟨u'', t₄, h6, h7⟩ := returns_bind.mp h4
          obtain ⟨hlen, rfl⟩ := returns_bitmapSet.mp h6
          obtain ⟨-, -, rfl⟩ := returns_bitmapSync.mp h7
          rcases returns_ite.mp h5 with ⟨hk, h5⟩ | ⟨-, h5⟩
          · obtain ⟨-, rfl⟩ := returns_modifyInode.mp h5
            obtain ⟨hr, hsize, hdisk, hbitmap, hinode⟩ := deleteEnd_sound hm.part h
            rw [Fs.setInode_inode, Function.update_self] at hsize hinode
            refine Or.inr ⟨hr, hsize, k, j, by omega, hcounted.1, hcounted.2, hnumber,
              .drop hk hblock ?_ ?_ hbitmap hinode, fun _ _ j' hj' hc' ↦ ?_⟩
            · rw [← hdot, hdrop.2]
              exact Bool.false_ne_true
            · intro l hl
              have hlt := hm.bitmapSector_lt (i := blockBitmapIdx E lba) (by
                have : blockBitmapIdx E lba / 8 < t₁.blockBitmap.btmpBytesLen := hlen
                omega)
              have hsec : SameSector t₁.disk (Fs.syncedBitmap E (t₁.setBitmap
                  ((t₁.bitmap .blockBitmap).set (blockBitmapIdx E lba) false) .blockBitmap)
                  (blockBitmapIdx E lba) .blockBitmap).disk l := by
                have hd : (Fs.syncedBitmap E (t₁.setBitmap
                    ((t₁.bitmap .blockBitmap).set (blockBitmapIdx E lba) false) .blockBitmap)
                    (blockBitmapIdx E lba) .blockBitmap).disk = splice t₁.disk
                      (512 * (bitmapLba E .blockBitmap + blockBitmapIdx E lba / 4096)) 512 fun b ↦
                        (t₁.blockBitmap.set (blockBitmapIdx E lba) false).bits
                          (blockBitmapIdx E lba / 4096 * 512 + b) := rfl
                rw [hd]
                exact sameSector_splice (hlt.trans_le hl).ne'
              exact hsec.trans (hdisk l hl)
            · exact hall.one (by rw [hdrop.1]) j' j (Nat.zero_le j') (by omega) (Nat.zero_le j)
                (by omega) hc' hcounted.2
          · exact absurd h5 returns_throw
        · obtain ⟨u, t₂, h3, h⟩ := returns_bind.mp h
          obtain ⟨-, -, -, rfl⟩ := (returns_ideWrite (by decide)).mp h3
          obtain ⟨hr, hsize, hdisk, hbitmap, hinode⟩ := deleteEnd_sound hm.part h
          refine Or.inr ⟨hr, hsize, k, j, by omega, hcounted.1, hcounted.2, hnumber,
            .clear hblock ?_ ?_ hbitmap hinode, fun hk hzero ↦ absurd ?_ hblock⟩
          · by_cases hfirst : scan.isDirFirstBlock = true
            · exact Or.inl (hdot.mp hfirst)
            · right
              have htwo : 2 ≤ scan.dirEntryCnt := by
                rw [Bool.not_eq_true] at hfirst
                have : scan.dirEntryCnt ≠ 1 := fun heq ↦ hclear ⟨heq, hfirst⟩
                have hone : 1 ≤ scan.dirEntryCnt := hone
                omega
              obtain ⟨i, i', -, hii, hi', hci, hci'⟩ := hscan.two htwo
              by_cases hij : i = j
              · exact ⟨i', by omega, by omega, by rw [← hentry]; exact hci'.1⟩
              · exact ⟨i, by omega, hij, by rw [← hentry]; exact hci.1⟩
          · rw [hm.part.dirEntrySize_eq] at hdisk
            intro l hl
            have hstore := hdisk l hl
            rwa [Fs.store, splice_read _ _ (by have := hcounted.1; omega)] at hstore
          · rw [hinode] at hzero
            rw [hlba, Inode.blocks_of_lt hk]
            exact hzero

/-- The loop over the blocks. A block behind the indirect table is not given back: the call does not
return. -/
theorem deleteBlocks_cases (hm : s.Mounted E) {left k : ℕ} {r : Bool}
    (hdata : ∀ k < 140, (s.inode a).blocks s.disk k ≠ 0 →
      E.part.sb.dataStartLba ≤ (s.inode a).blocks s.disk k)
    (hleft : k + left = 140)
    (h : Returns (deleteBlocks E a n ioBuf ((s.inode a).blocks s.disk) left k) s r s') :
    r = false ∧ s' = s ∨ r = true ∧ 24 ≤ (s.inode a).iSize ∧ ∃ i j, i < 140 ∧ j < 21 ∧
      Counted (fun b ↦ s.disk (512 * (s.inode a).blocks s.disk i + b)) j ∧
        Deleted E s a (i, j) s' := by
  rcases deleteBlocks_exact hm hleft h with ⟨hr, hs, -⟩ | ⟨hr, hsize, i, j, hi, hj, hc, -, hd, -⟩
  · exact Or.inl ⟨hr, hs⟩
  · exact Or.inr ⟨hr, hsize, i, j, hi, hj, hc, hd⟩

end Deleting

/-! ## The invariant -/

/-- A directory with "." and ".." in front, in which every other block has an entry. The size counts
the entries at least; a block behind the table has one entry, in front. -/
structure TidyDir (E : Env) (d : Image) (bm : Bitmap) (ino : Inode) : Prop where
  blocks : DirBlocks E d bm ino
  size : 24 * (liveSlots d ino).card ≤ ino.iSize
  used : ∀ k < 140, ino.blocks d k ≠ 0 → ∃ j, LiveSlot d ino (k, j)
  table : ino.iSectors 12 ≠ 0 → ∃ k, 12 ≤ k ∧ k < 140 ∧ ino.blocks d k ≠ 0
  indirect : ∀ k j, 12 ≤ k → LiveSlot d ino (k, j) → j = 0
  dot : LiveSlot d ino (0, 0) ∧ (slotEntry d ino (0, 0)).name = dot
  dotDot : LiveSlot d ino (0, 1) ∧ (slotEntry d ino (0, 1)).name = dotDot
  ordinary : ∀ p, LiveSlot d ino p → p ≠ (0, 0) → p ≠ (0, 1) → (slotEntry d ino p).Ordinary

section Tidy

variable {E : Env} {d d' : Image} {bm bm' : Bitmap} {ino ino' : Inode}

/-- **What `dir_remove` relies on.** -/
theorem TidyDir.sectors_eq_zero (h : TidyDir E d bm ino) (hsize : ino.iSize = 48) {k : ℕ} (h1 : 1 ≤ k)
    (h12 : k ≤ 12) : ino.iSectors k = 0 := by
  -- three live slots are too many
  have hno : ∀ p, LiveSlot d ino p → p.1 = 0 := by
    intro p hp
    by_contra hne
    have hsub : ({(0, 0), (0, 1), p} : Finset (ℕ × ℕ)) ⊆ liveSlots d ino := by
      intro q hq
      rw [mem_liveSlots]
      simp only [Finset.mem_insert, Finset.mem_singleton] at hq
      rcases hq with rfl | rfl | rfl
      · exact h.dot.1
      · exact h.dotDot.1
      · exact hp
    have hcard : ({(0, 0), (0, 1), p} : Finset (ℕ × ℕ)).card = 3 := by
      have h0 : ((0, 0) : ℕ × ℕ) ≠ p := fun heq ↦ hne (heq ▸ rfl)
      have h0' : ((0, 1) : ℕ × ℕ) ≠ p := fun heq ↦ hne (heq ▸ rfl)
      rw [Finset.card_insert_of_notMem (by simp [h0]), Finset.card_pair h0']
    have hle := Finset.card_le_card hsub
    have hsize' := h.size
    omega
  have hblock : ∀ m < 140, 1 ≤ m → ino.blocks d m = 0 := by
    intro m hm hpos
    by_contra hne
    obtain ⟨j, hj⟩ := h.used m hm hne
    have := hno _ hj
    omega
  by_cases hk : k < 12
  · rw [← Inode.blocks_of_lt (d := d) hk]
    exact hblock k (by omega) h1
  · obtain rfl : k = 12 := by omega
    by_contra hne
    obtain ⟨m, hm, hm', hblk⟩ := h.table hne
    exact hblk (hblock m hm' (by omega))

/-- The blocks of a directory after a step: each is one that it had, or a free one. -/
theorem Inode.Owns.step (h : ino.Owns E d bm)
    (hheld : ∀ p ≤ 140, ino'.held d' p ≠ 0 → ino'.held d' p = ino.held d p ∧
        (bm.bit (ino.held d p - E.part.sb.dataStartLba) = true →
          bm'.bit (ino.held d p - E.part.sb.dataStartLba) = true) ∨
      ∃ i, ino'.held d' p = E.part.sb.dataStartLba + i ∧ bm.bit i = false ∧ bm'.bit i = true)
    (hnew : ∀ p ≤ 140, ∀ q ≤ 140, ino'.held d' p ≠ 0 → ino'.held d' p = ino'.held d' q →
      ino'.held d' p ≠ ino.held d p → ino'.held d' q ≠ ino.held d q → p = q) : ino'.Owns E d' bm' where
  inData p hp h0 := by
    rcases hheld p hp h0 with ⟨heq, -⟩ | ⟨i, heq, -⟩
    · rw [heq]
      exact h.inData p hp (heq ▸ h0)
    · rw [heq]
      exact Nat.le_add_right _ _
  used p hp h0 := by
    rcases hheld p hp h0 with ⟨heq, hbit⟩ | ⟨i, heq, -, hbit⟩
    · rw [heq]
      exact hbit (h.used p hp (heq ▸ h0))
    · rw [heq, Nat.add_sub_cancel_left]
      exact hbit
  inj p hp q hq h0 heq := by
    -- an old block is in use, a new one is free
    have hmix : ∀ p ≤ 140, ∀ q ≤ 140, ino'.held d' p ≠ 0 → ino'.held d' p = ino'.held d' q →
        ino'.held d' p = ino.held d p → ino'.held d' q = ino.held d q := by
      intro p hp q hq h0 heq hold
      rcases hheld q hq (heq ▸ h0) with ⟨heq', -⟩ | ⟨i, hi, hfree, -⟩
      · exact heq'
      · have hbit := h.used p hp (hold ▸ h0)
        rw [← hold, heq, hi, Nat.add_sub_cancel_left, hfree] at hbit
        cases hbit
    by_cases hold : ino'.held d' p = ino.held d p
    · have hold' := hmix p hp q hq h0 heq hold
      exact h.inj p hp q hq (hold ▸ h0) (by rw [← hold, heq, hold'])
    · refine hnew p hp q hq h0 heq hold fun hold' ↦ hold ?_
      exact hmix q hq p hp (heq ▸ h0) heq.symm hold'

theorem card_insert_live {q : ℕ × ℕ}
    (h : ∀ p, LiveSlot d' ino' p → p = q ∨ LiveSlot d ino p) :
    (liveSlots d' ino').card ≤ (liveSlots d ino).card + 1 := by
  refine le_trans (Finset.card_le_card ?_) (Finset.card_insert_le q (liveSlots d ino))
  rw [Finset.subset_iff]
  simpa only [mem_liveSlots, Finset.mem_insert] using h

theorem card_erase_live {q : ℕ × ℕ} (hq : LiveSlot d ino q)
    (h : ∀ p, LiveSlot d' ino' p → p ≠ q ∧ LiveSlot d ino p) :
    (liveSlots d' ino').card + 1 ≤ (liveSlots d ino).card := by
  rw [← Finset.card_erase_add_one (s := liveSlots d ino) (a := q) (by rwa [mem_liveSlots])]
  refine Nat.succ_le_succ (Finset.card_le_card ?_)
  rw [Finset.subset_iff]
  simpa only [mem_liveSlots, Finset.mem_erase] using h

/-- An entry is added. -/
theorem TidyDir.add {e : DirEntry} {q : ℕ × ℕ} (h : TidyDir E d bm ino)
    (hadd : AddsSlot d ino d' ino' e q) (hty : e.fType ≠ .unknown) (he : e.Ordinary)
    (howns : ino'.Owns E d' bm') (hq : 12 ≤ q.1 → q.2 = 0)
    (hblocks : ∀ k < 140, k ≠ q.1 → ino'.blocks d' k ≠ 0 →
      ino.blocks d k ≠ 0 ∧ (DirectFull d ino → k < 12))
    (htable : ino'.iSectors 12 ≠ 0 → 12 ≤ q.1 ∨ ino.iSectors 12 ≠ 0 ∧ ¬DirectFull d ino) :
    TidyDir E d' bm' ino' := by
  have hlive : LiveSlot d' ino' q := ⟨hadd.inSlots, by rw [hadd.entry]; exact hty⟩
  have hkeep : ∀ p, LiveSlot d ino p → p.1 < 12 → p ≠ q ∧ LiveSlot d' ino' p ∧
      slotEntry d' ino' p = slotEntry d ino p := by
    intro p hp hlt
    have hpq : p ≠ q := by
      rintro rfl
      exact hadd.fresh ⟨hp, fun _ ↦ hlt⟩
    have hp' := (hadd.live_iff p hpq).mpr ⟨hp, fun _ ↦ hlt⟩
    exact ⟨hpq, hp', hadd.same p hpq hp'⟩
  obtain ⟨hne0, h0, hs0⟩ := hkeep _ h.dot.1 (by decide)
  obtain ⟨hne1, h1, hs1⟩ := hkeep _ h.dotDot.1 (by decide)
  refine ⟨⟨howns, hadd.onDisk, fun p hp hdead ↦ ?_⟩, ?_, fun k hk hblk ↦ ?_, fun h12 ↦ ?_,
    fun k j hk hj ↦ ?_, ⟨h0, hs0 ▸ h.dot.2⟩, ⟨h1, hs1 ▸ h.dotDot.2⟩, fun p hp hp0 hp1 ↦ ?_⟩
  · by_cases hpq : p = q
    · exact absurd (hpq ▸ hlive) hdead
    · exact hadd.dead p hpq hp hdead
  · have hcard : (liveSlots d' ino').card ≤ (liveSlots d ino).card + 1 := by
      refine card_insert_live (q := q) fun p hp ↦ ?_
      by_cases hpq : p = q
      · exact Or.inl hpq
      · exact Or.inr ((hadd.live_iff p hpq).mp hp).1
    have hsize := hadd.size
    have hold := h.size
    omega
  · by_cases hkq : k = q.1
    · exact ⟨q.2, hkq ▸ hlive⟩
    · obtain ⟨hblk', hfull⟩ := hblocks k hk hkq hblk
      obtain ⟨j, hj⟩ := h.used k hk hblk'
      have hne : (k, j) ≠ q := fun heq ↦ hkq (heq ▸ rfl)
      exact ⟨j, (hadd.live_iff _ hne).mpr ⟨hj, hfull⟩⟩
  · rcases htable h12 with hq12 | ⟨hold, hfull⟩
    · exact ⟨q.1, hq12, hadd.inSlots.1, hadd.inSlots.2.2⟩
    · obtain ⟨k, hk, hk', hblk⟩ := h.table hold
      obtain ⟨j, hj⟩ := h.used k hk' hblk
      by_cases hkq : (k, j) = q
      · exact ⟨k, hk, hk', by rw [show k = q.1 from congrArg Prod.fst hkq]; exact hadd.inSlots.2.2⟩
      · have hj' := (hadd.live_iff _ hkq).mpr ⟨hj, fun hf ↦ absurd hf hfull⟩
        exact ⟨k, hk, hk', hj'.1.2.2⟩
  · by_cases hkq : (k, j) = q
    · rw [← hkq] at hq
      exact hq hk
    · exact h.indirect k j hk ((hadd.live_iff _ hkq).mp hj).1
  · by_cases hpq : p = q
    · rw [hpq, hadd.entry]
      exact he
    · rw [hadd.same p hpq hp]
      exact h.ordinary p ((hadd.live_iff p hpq).mp hp).1 hp0 hp1

/-- An entry is taken away, perhaps with its block. -/
theorem TidyDir.remove {q : ℕ × ℕ} (h : TidyDir E d bm ino) (hq : LiveSlot d ino q)
    (hord : (slotEntry d ino q).Ordinary) (howns : ino'.Owns E d' bm')
    (hblocks : ∀ k < 140, ino'.blocks d' k = ino.blocks d k ∨ k = q.1 ∧ ino'.blocks d' k = 0)
    (h12 : ino'.iSectors 12 = ino.iSectors 12) (hq12 : q.1 < 12)
    (hentry : ∀ p, InSlots d' ino' p → p ≠ q → slotEntry d' ino' p = slotEntry d ino p)
    (hfirst : q.1 = 0 → ino'.blocks d' 0 ≠ 0)
    (hgone : InSlots d' ino' q → (slotEntry d' ino' q).fType = .unknown ∧
      (slotEntry d' ino' q).name = [])
    (hother : ino'.blocks d' q.1 ≠ 0 → q.1 = 0 ∨ ∃ i, i ≠ q.2 ∧ LiveSlot d ino (q.1, i))
    (hsize : ino'.iSize = ino.iSize - 24) (hge : 24 ≤ ino.iSize) : TidyDir E d' bm' ino' := by
  have hin : ∀ p, InSlots d' ino' p → InSlots d ino p := by
    intro p hp
    rcases hblocks p.1 hp.1 with heq | ⟨-, hzero⟩
    · exact ⟨hp.1, hp.2.1, heq ▸ hp.2.2⟩
    · exact absurd hzero hp.2.2
  have hnq : ¬LiveSlot d' ino' q := fun hl ↦ hl.2 (hgone hl.1).1
  have hne : ∀ p, LiveSlot d' ino' p → p ≠ q := fun p hp heq ↦ hnq (heq ▸ hp)
  have hold : ∀ p, LiveSlot d' ino' p → LiveSlot d ino p := fun p hp ↦
    ⟨hin p hp.1, by rw [← hentry p hp.1 (hne p hp)]; exact hp.2⟩
  have hkeep : ∀ p, LiveSlot d ino p → p ≠ q → ino'.blocks d' p.1 ≠ 0 →
      LiveSlot d' ino' p := by
    intro p hp hpq hblk
    have hp' : InSlots d' ino' p := ⟨hp.1.1, hp.1.2.1, hblk⟩
    exact ⟨hp', by rw [hentry p hp' hpq]; exact hp.2⟩
  -- the slots in front stay
  have hblk0 : ino'.blocks d' 0 ≠ 0 := by
    by_cases hq0 : q.1 = 0
    · exact hfirst hq0
    · rcases hblocks 0 (by decide) with heq | ⟨hzero, -⟩
      · rw [heq]
        exact h.dot.1.1.2.2
      · exact absurd hzero.symm hq0
  have hne0 : ((0, 0) : ℕ × ℕ) ≠ q := by
    rintro rfl
    exact hord.1 h.dot.2
  have hne1 : ((0, 1) : ℕ × ℕ) ≠ q := by
    rintro rfl
    exact hord.2 h.dotDot.2
  have h0 := hkeep _ h.dot.1 hne0 hblk0
  have h1 := hkeep _ h.dotDot.1 hne1 hblk0
  have hheld : ∀ p ≤ 140, ino'.held d' p ≠ 0 → ino'.held d' p = ino.held d p := by
    intro p hp hp0
    by_cases hp140 : p = 140
    · rw [hp140, Inode.held_table, Inode.held_table, h12]
    · rw [Inode.held_of_lt (by omega)] at hp0 ⊢
      rw [Inode.held_of_lt (by omega)]
      exact (hblocks p (by omega)).resolve_right fun hz ↦ hp0 hz.2
  refine ⟨⟨howns, fun p hp ↦ ?_, fun p hp hdead ↦ ?_⟩, ?_, fun k hk hblk ↦ ?_, fun hsec ↦ ?_,
    fun k j hk hj ↦ h.indirect k j hk (hold _ hj), ⟨h0, ?_⟩, ⟨h1, ?_⟩, fun p hp hp0 hp1 ↦ ?_⟩
  · by_cases hp0 : ino'.held d' p = 0
    · rw [hp0]
      exact Nat.zero_le _
    · rw [hheld p hp hp0]
      exact h.blocks.onDisk p hp
  · by_cases hpq : p = q
    · rw [hpq] at hp ⊢
      exact (hgone hp).2
    · rw [hentry p hp hpq]
      exact h.blocks.dead p (hin p hp) fun hl ↦ hdead (hkeep p hl hpq hp.2.2)
  · have hcard := card_erase_live hq fun p hp ↦ ⟨hne p hp, hold p hp⟩
    have hle := h.size
    omega
  · by_cases hkq : k = q.1
    · rcases hother (hkq ▸ hblk) with hzero | ⟨i, hi, hlive⟩
      · exact ⟨0, hkq.trans hzero ▸ h0⟩
      · have hi' : (q.1, i) ≠ q := fun heq ↦ hi (congrArg Prod.snd heq)
        exact ⟨i, hkq ▸ hkeep _ hlive hi' (hkq ▸ hblk)⟩
    · have heq := (hblocks k hk).resolve_right fun hz ↦ hkq hz.1
      obtain ⟨j, hj⟩ := h.used k hk (heq ▸ hblk)
      exact ⟨j, hkeep _ hj (fun heq ↦ hkq (heq ▸ rfl)) hblk⟩
  · obtain ⟨k, hk, hk', hblk⟩ := h.table (h12 ▸ hsec)
    refine ⟨k, hk, hk', ?_⟩
    have heq := (hblocks k hk').resolve_right fun hz ↦ absurd hz.1 (by omega)
    rwa [heq]
  · rw [hentry _ h0.1 hne0]
    exact h.dot.2
  · rw [hentry _ h1.1 hne1]
    exact h.dotDot.2
  · rw [hentry p hp.1 (hne p hp)]
    exact h.ordinary p (hold p hp) hp0 hp1

end Tidy

/-! ## Inserting -/

section Inserting

variable {E : Env} {s s' : Fs} {a : ℕ} {e : DirEntry} {d d' : Image} {bm bm' : Bitmap}
  {ino ino' : Inode}

/-- The indirect table is given up. -/
theorem TidyDir.lose (h : TidyDir E d bm ino) (hdata : SameData E d d')
    (hbits : ∀ i, bm.bit i = true → bm'.bit i = true)
    (hdirect : ∀ k < 12, ino'.iSectors k = ino.iSectors k) (h12 : ino'.iSectors 12 = 0)
    (hsize : ino'.iSize = ino.iSize) : TidyDir E d' bm' ino' := by
  have hlt : ∀ {k}, ino'.blocks d' k ≠ 0 → k < 12 := by
    intro k hk
    by_contra hge
    exact hk (Inode.blocks_of_no_table (by omega) h12)
  have hblk : ∀ k < 12, ino'.blocks d' k = ino.blocks d k := fun k hk ↦ by
    rw [Inode.blocks_of_lt hk, Inode.blocks_of_lt hk, hdirect k hk]
  have hin : ∀ p, InSlots d' ino' p → InSlots d ino p := fun p hp ↦
    ⟨hp.1, hp.2.1, hblk p.1 (hlt hp.2.2) ▸ hp.2.2⟩
  have hentry : ∀ p, InSlots d' ino' p → slotEntry d' ino' p = slotEntry d ino p := by
    intro p hp
    rw [slotEntry, slotEntry, hblk p.1 (hlt hp.2.2)]
    refine entryAt_congr (hdata _ ?_) hp.2.1
    rw [← Inode.held_of_lt hp.1]
    exact h.blocks.owns.inData p.1 hp.1.le (by rw [Inode.held_of_lt hp.1]; exact (hin p hp).2.2)
  have hold : ∀ p, LiveSlot d' ino' p → LiveSlot d ino p := fun p hp ↦
    ⟨hin p hp.1, by rw [← hentry p hp.1]; exact hp.2⟩
  have hkeep : ∀ p, LiveSlot d ino p → p.1 < 12 → LiveSlot d' ino' p := by
    intro p hp hp12
    have hp' : InSlots d' ino' p := ⟨hp.1.1, hp.1.2.1, by rw [hblk p.1 hp12]; exact hp.1.2.2⟩
    exact ⟨hp', by rw [hentry p hp']; exact hp.2⟩
  have hheld : ∀ p ≤ 140, ino'.held d' p ≠ 0 → ino'.held d' p = ino.held d p := by
    intro p hp hp0
    by_cases hp140 : p = 140
    · rw [hp140, Inode.held_table, h12] at hp0
      exact absurd rfl hp0
    · rw [Inode.held_of_lt (by omega)] at hp0 ⊢
      rw [Inode.held_of_lt (by omega)]
      exact hblk p (hlt hp0)
  have h0 := hkeep _ h.dot.1 (by decide)
  have h1 := hkeep _ h.dotDot.1 (by decide)
  refine ⟨⟨?_, fun p hp ↦ ?_, fun p hp hdead ↦ ?_⟩, ?_, fun k hk hk0 ↦ ?_, fun hsec ↦ absurd h12 hsec,
    fun k j hk hj ↦ h.indirect k j hk (hold _ hj), ⟨h0, ?_⟩, ⟨h1, ?_⟩, fun p hp hp0 hp1 ↦ ?_⟩
  · refine h.blocks.owns.step (fun p hp hp0 ↦ Or.inl ⟨hheld p hp hp0, hbits _⟩) ?_
    exact fun p hp q _ hp0 _ hne ↦ absurd (hheld p hp hp0) hne
  · by_cases hp0 : ino'.held d' p = 0
    · rw [hp0]
      exact Nat.zero_le _
    · rw [hheld p hp hp0]
      exact h.blocks.onDisk p hp
  · rw [hentry p hp]
    exact h.blocks.dead p (hin p hp) fun hl ↦ hdead (hkeep p hl (hlt hp.2.2))
  · have hcard : (liveSlots d' ino').card ≤ (liveSlots d ino).card := by
      refine Finset.card_le_card ?_
      rw [Finset.subset_iff]
      simpa only [mem_liveSlots] using hold
    have hle := h.size
    omega
  · obtain ⟨j, hj⟩ := h.used k hk (hblk k (hlt hk0) ▸ hk0)
    exact ⟨j, hkeep _ hj (hlt hk0)⟩
  · rw [hentry _ h0.1]
    exact h.dot.2
  · rw [hentry _ h1.1]
    exact h.dotDot.2
  · rw [hentry p hp.1]
    exact h.ordinary p (hold p hp) hp0 hp1

/-- An inode holds its blocks and its table. -/
theorem held_eq {d' : Image} {ino' : Inode} {p : ℕ} (hp : p ≤ 140) :
    ino'.held d' p = if p = 140 then ino'.iSectors 12 else ino'.blocks d' p := rfl

theorem TidyDir.reuse {k j : ℕ} (h : TidyDir E d bm ino) (he : e.Fits) (hty : e.fType ≠ .unknown)
    (hord : e.Ordinary) (hk : k < 12) (hj : j < 21) (hb : ino.iSectors k ≠ 0)
    (hfree : (entryAt d (ino.iSectors k) j).fType = .unknown) :
    TidyDir E (splice d (512 * ino.iSectors k + 24 * j) 24 e.encode) bm (ino.grow 24) := by
  have hblocks := fun m hm ↦ blocks_reuse (m := m) h.blocks hk hj hm e.encode
  have hheld : ∀ p ≤ 140, (ino.grow 24).held (splice d (512 * ino.iSectors k + 24 * j) 24 e.encode) p =
      ino.held d p := by
    intro p hp
    by_cases hp140 : p = 140
    · rw [hp140, Inode.held_table, Inode.held_table]
      rfl
    · rw [Inode.held_of_lt (by omega), Inode.held_of_lt (by omega), hblocks p (by omega)]
  have hnot : ¬DirectFull d ino := fun hfull ↦ (hfull k hk).2 j hj hfree
  refine h.add (addsSlot_reuse he h.blocks hk hj hb hfree) hty hord ?_ (fun h12 ↦ ?_)
    (fun m hm _ hm0 ↦ ⟨by rwa [← hblocks m hm], fun hfull ↦ absurd hfull hnot⟩)
    (fun h12 ↦ Or.inr ⟨h12, hnot⟩)
  · refine h.blocks.owns.step (fun p hp _ ↦ Or.inl ⟨hheld p hp, id⟩) ?_
    exact fun p hp q _ _ _ hne ↦ absurd (hheld p hp) hne
  · have h12 : 12 ≤ k := h12
    omega

theorem TidyDir.direct {d₀ : Image} {k i : ℕ} (h : TidyDir E d bm ino) (he : e.Fits)
    (hty : e.fType ≠ .unknown) (hord : e.Ordinary) (hdata : SameData E d d₀) (hk : k < 12)
    (hb : ino.iSectors k = 0) (hfree : bm.bit i = false) (hlba : E.part.sb.dataStartLba + i ≤ maxLba)
    (hlba0 : E.part.sb.dataStartLba + i ≠ 0) :
    TidyDir E (splice d₀ (512 * (E.part.sb.dataStartLba + i)) 512 (newBlock e)) (bm.set i true)
      ((ino.setSector k (E.part.sb.dataStartLba + i)).grow 24) := by
  set lba := E.part.sb.dataStartLba + i with hlbai
  have hnew : ∀ p ≤ 140, ino.held d p ≠ 0 → ino.held d p ≠ lba := fun p hp h0 ↦
    h.blocks.owns.ne_free hp h0 hfree
  have hblocks := fun m hm ↦ blocks_direct (m := m) h.blocks hdata hk hnew hm (newBlock e)
  have hheld : ∀ p ≤ 140, ((ino.setSector k lba).grow 24).held
      (splice d₀ (512 * lba) 512 (newBlock e)) p = if p = k then lba else ino.held d p := by
    intro p hp
    by_cases hp140 : p = 140
    · rw [hp140, Inode.held_table, Inode.held_table, if_neg (by omega)]
      exact Inode.setSector_of_ne ino (by omega) lba
    · rw [Inode.held_of_lt (by omega), Inode.held_of_lt (by omega), hblocks p (by omega)]
  have hnot : ¬DirectFull d ino := fun hfull ↦ (hfull k hk).1 hb
  refine h.add (addsSlot_direct he h.blocks hdata hk hb hlba0 hlba hnew) hty hord ?_ (fun _ ↦ rfl)
    (fun m hm hmk hm0 ↦ ?_) (fun h12 ↦ Or.inr ⟨?_, hnot⟩)
  · refine h.blocks.owns.step (fun p hp _ ↦ ?_) fun p hp q hq _ _ hne hne' ↦ ?_
    · rw [hheld p hp]
      split_ifs with hpk
      · exact Or.inr ⟨i, rfl, hfree, by rw [Bitmap.bit_set, if_pos rfl]⟩
      · refine Or.inl ⟨rfl, fun hbit ↦ ?_⟩
        rw [Bitmap.bit_set, hbit, ite_self]
    · rw [hheld p hp] at hne
      rw [hheld q hq] at hne'
      split_ifs at hne hne' with hpk hqk
      · rw [hpk, hqk]
      · exact absurd rfl hne'
      · exact absurd rfl hne
      · exact absurd rfl hne
  · rw [hblocks m hm, if_neg hmk] at hm0
    exact ⟨hm0, fun hfull ↦ absurd hfull hnot⟩
  · have hsec : ((ino.setSector k lba).grow 24).iSectors 12 = ino.iSectors 12 :=
      Inode.setSector_of_ne ino (by omega) lba
    rwa [hsec] at h12

theorem TidyDir.newTable {d₀ : Image} {i i' : ℕ} (h : TidyDir E d bm ino) (he : e.Fits)
    (hty : e.fType ≠ .unknown) (hord : e.Ordinary) (hdata : SameData E d d₀) (hfull : DirectFull d ino)
    (hne : i ≠ i') (hfree : bm.bit i = false) (hfree' : bm.bit i' = false)
    (hlba : E.part.sb.dataStartLba + i ≤ maxLba) (hlba' : E.part.sb.dataStartLba + i' ≤ maxLba)
    (hstart : 0 < E.part.sb.dataStartLba) :
    TidyDir E (splice (splice d₀ (512 * (E.part.sb.dataStartLba + i)) 512
        (ofWords fun k ↦ Function.update ino.direct 12 (E.part.sb.dataStartLba + i') (12 + k)))
        (512 * (E.part.sb.dataStartLba + i')) 512 (newBlock e)) ((bm.set i true).set i' true)
      ((ino.setSector 12 (E.part.sb.dataStartLba + i)).grow 24) := by
  set lba := E.part.sb.dataStartLba + i with hlbai
  set lba' := E.part.sb.dataStartLba + i' with hlbai'
  have hnew : ∀ p ≤ 140, ino.held d p ≠ 0 → ino.held d p ≠ lba := fun p hp h0 ↦
    h.blocks.owns.ne_free hp h0 hfree
  have hnew' : ∀ p ≤ 140, ino.held d p ≠ 0 → ino.held d p ≠ lba' := fun p hp h0 ↦
    h.blocks.owns.ne_free hp h0 hfree'
  set d' := splice (splice d₀ (512 * lba) 512
    (ofWords fun k ↦ Function.update ino.direct 12 lba' (12 + k))) (512 * lba') 512 (newBlock e)
    with hd'
  have hblocks : ∀ m < 140, ((ino.setSector 12 lba).grow 24).blocks d' m =
      if m < 12 then ino.blocks d m else if m = 12 then lba' else 0 := fun m hm ↦
    blocks_table (d := d) (by omega) hlba' (by omega) hm (newBlock e)
  have hheld : ∀ p ≤ 140, ((ino.setSector 12 lba).grow 24).held d' p = if p = 140 then lba else
      if p < 12 then ino.held d p else if p = 12 then lba' else 0 := by
    intro p hp
    by_cases hp140 : p = 140
    · rw [hp140, Inode.held_table, if_pos rfl]
      exact Inode.setSector_self ino 12 lba
    · rw [Inode.held_of_lt (by omega), Inode.held_of_lt (by omega), hblocks p (by omega), if_neg hp140]
  have hbits : ∀ x, ((bm.set i true).set i' true).bit x =
      if x = i' then true else if x = i then true else bm.bit x := fun x ↦ by
    rw [Bitmap.bit_set, Bitmap.bit_set]
  refine h.add (addsSlot_table he h.blocks hdata hfull (by omega) (by omega) hlba hlba' (by omega)
    hnew hnew') hty hord ?_ (fun _ ↦ rfl) (fun m hm hmk hm0 ↦ ?_) (fun _ ↦ Or.inl le_rfl)
  · refine h.blocks.owns.step (fun p hp hp0 ↦ ?_) fun p hp q hq hp0 heq hne' hne'' ↦ ?_
    · rw [hheld p hp] at hp0 ⊢
      split_ifs at hp0 ⊢ with h140 h12 h12'
      · exact Or.inr ⟨i, rfl, hfree, by rw [hbits]; simp⟩
      · refine Or.inl ⟨rfl, fun hbit ↦ ?_⟩
        rw [hbits, hbit]
        simp
      · exact Or.inr ⟨i', rfl, hfree', by rw [hbits]; simp⟩
      · exact absurd rfl hp0
    · rw [hheld p hp, hheld q hq] at heq
      rw [hheld p hp] at hne' hp0
      rw [hheld q hq] at hne''
      have hp12 : ¬p < 12 := fun hlt ↦ hne' (by rw [if_neg (by omega), if_pos hlt])
      have hq12 : ¬q < 12 := fun hlt ↦ hne'' (by rw [if_neg (by omega), if_pos hlt])
      rw [if_neg hp12] at heq hp0
      rw [if_neg hq12] at heq
      split_ifs at hp0 heq <;> omega
  · rw [hblocks m hm] at hm0
    split_ifs at hm0 with hlt
    · exact ⟨hm0, fun _ ↦ hlt⟩
    · exact absurd rfl hm0

end Inserting

/-! ## One call -/

section Calls

variable {E : Env} {s s' : Fs} {a : ℕ} {e : DirEntry} {r : Bool}

/-- The directory with the inode at `a`. -/
def Fs.Tidy (E : Env) (s : Fs) (a : ℕ) : Prop :=
  s.Mounted E ∧ TidyDir E s.disk s.blockBitmap (s.inode a)

theorem sameData_takeBlock (hm : s.Mounted E) {i : ℕ} (hi : i < 8 * s.blockBitmap.btmpBytesLen) :
    SameData E s.disk (s.takeBlock E i).disk := fun _ hlba ↦ sameSector_takeBlock hm hi hlba

/-- **`sync_dir_entry`.** -/
theorem SyncOutcome.tidy (h : SyncOutcome E s a e r s') (ht : s.Tidy E a) (he : e.Fits)
    (hty : e.fType ≠ .unknown) (hord : e.Ordinary) : s'.Tidy E a := by
  obtain ⟨hm, ht⟩ := ht
  have hstart : 0 < E.part.sb.dataStartLba := by
    have := hm.part.dataStartLba_eq
    omega
  cases h with
  | @reuse k j hk hj hb hfree =>
    refine ⟨⟨hm.part, hm.blockLen, hm.inodeLen⟩, ?_⟩
    rw [Fs.reusedSlot, Fs.setInode_inode, Function.update_self]
    exact ht.reuse he hty hord hk hj hb hfree
  | @direct k i hk hb hi hlba =>
    obtain ⟨hlen, hfree, -⟩ := Bitmap.scan_one_eq_some.mp hi
    refine ⟨⟨hm.part, hm.blockLen, hm.inodeLen⟩, ?_⟩
    rw [Fs.addedDirect, Fs.setInode_inode, Function.update_self]
    exact ht.direct he hty hord (sameData_takeBlock hm hlen) hk hb hfree hlba (by omega)
  | @table i i' hfull hi hi' hlba hlba' =>
    obtain ⟨hlen, hfree, -⟩ := Bitmap.scan_one_eq_some.mp hi
    obtain ⟨hlen', hfree', -⟩ := Bitmap.scan_one_eq_some.mp hi'
    rw [Bitmap.bit_set] at hfree'
    have hne : i' ≠ i := by
      rintro rfl
      rw [if_pos rfl] at hfree'
      cases hfree'
    rw [if_neg hne] at hfree'
    have hm' : (s.takeBlock E i).Mounted E := ⟨hm.part, hm.blockLen, hm.inodeLen⟩
    refine ⟨⟨hm.part, hm.blockLen, hm.inodeLen⟩, ?_⟩
    rw [Fs.addedTable, Fs.setInode_inode, Function.update_self]
    exact ht.newTable he hty hord (fun l hl ↦ (sameData_takeBlock hm hlen l hl).trans
      (sameData_takeBlock hm' hlen' l hl)) hfull hne.symm hfree hfree' hlba hlba' hstart
  | noBlock hi => exact ⟨hm, ht⟩
  | @noSecond i hfull hi hi' =>
    obtain ⟨hlen, -, -⟩ := Bitmap.scan_one_eq_some.mp hi
    refine ⟨⟨hm.part, hm.blockLen, hm.inodeLen⟩, ?_⟩
    rw [Fs.givenUp, Fs.setInode_inode, Function.update_self]
    refine ht.lose (sameData_takeBlock hm hlen) (fun x hx ↦ ?_) (fun k hk ↦ ?_) ?_ rfl
    · have hbit : ((s.blockBitmap.set i true).set i false).bit x = true := by
        obtain ⟨-, hfree, -⟩ := Bitmap.scan_one_eq_some.mp hi
        have hxi : x ≠ i := by
          rintro rfl
          cases hfree.symm.trans hx
        rw [Bitmap.bit_set, if_neg hxi, Bitmap.bit_set, if_neg hxi, hx]
      exact hbit
    · exact Inode.setSector_of_ne _ (by omega) 0
    · exact Inode.setSector_self _ 12 0

/-- An entry of a block on the disk. -/
theorem counted_iff {d : Bytes.Image} {lba j : ℕ} : Counted (fun b ↦ d (512 * lba + b)) j ↔
    (entryAt d lba j).fType ≠ .unknown ∧ (entryAt d lba j).Ordinary := by
  rw [Counted, decode_shift]
  rfl

/-- **`delete_dir_entry`**, of an entry that it finds. -/
theorem Deleted.tidy {k j : ℕ} (h : Deleted E s a (k, j) s') (ht : s.Tidy E a) (hk : k < 140)
    (hj : j < 21) (hge : 24 ≤ (s.inode a).iSize)
    (hcounted : Counted (fun b ↦ s.disk (512 * (s.inode a).blocks s.disk k + b)) j) :
    TidyDir E s'.disk s'.blockBitmap (s'.inode a) := by
  obtain ⟨hm, ht⟩ := ht
  rw [counted_iff] at hcounted
  set ino := s.inode a with hino
  have hdata : ∀ m < 140, ino.blocks s.disk m ≠ 0 →
      E.part.sb.dataStartLba ≤ ino.blocks s.disk m := by
    intro m hm' hm0
    rw [← Inode.held_of_lt hm'] at hm0 ⊢
    exact ht.blocks.owns.inData m hm'.le hm0
  have hinj : ∀ m < 140, ino.blocks s.disk m ≠ 0 → ino.blocks s.disk m = ino.blocks s.disk k →
      m = k := by
    intro m hm' hm0 heq
    rw [← Inode.held_of_lt hm'] at hm0
    rw [← Inode.held_of_lt hm', ← Inode.held_of_lt hk] at heq
    exact ht.blocks.owns.inj m hm'.le k hk.le hm0 heq
  have hlive : ∀ i < 21, ino.blocks s.disk k ≠ 0 →
      (entryAt s.disk (ino.blocks s.disk k) i).fType ≠ .unknown → LiveSlot s.disk ino (k, i) :=
    fun i hi h0 hty ↦ ⟨⟨hk, hi, h0⟩, hty⟩
  have hdotBlock : (∃ i < 21, (entryAt s.disk (ino.blocks s.disk k) i).fType ≠ .unknown ∧
      (entryAt s.disk (ino.blocks s.disk k) i).name = dot) → ino.blocks s.disk k ≠ 0 → k = 0 := by
    rintro ⟨i, hi, hty, hname⟩ h0
    by_contra hne
    have hord := ht.ordinary (k, i) (hlive i hi h0 hty)
      (fun heq ↦ hne (congrArg Prod.fst heq)) fun heq ↦ hne (congrArg Prod.fst heq)
    exact hord.1 hname
  cases h with
  | clear hlba hother hdisk hbitmap hinode =>
    have hq := hlive j hj hlba hcounted.1
    have hk12 : k < 12 := by
      by_contra hge12
      rcases hother with hdot | ⟨i, hi, hij, hty⟩
      · have := hdotBlock hdot hlba
        omega
      · have h1 := ht.indirect k i (by omega) (hlive i hi hlba hty)
        have h2 := ht.indirect k j (by omega) hq
        omega
    have hsec : ino.blocks s.disk k = ino.iSectors k := Inode.blocks_of_lt hk12
    rw [hinode, hbitmap]
    have htab : (ino.shrink 24).iSectors 12 ≠ 0 → SameSector s.disk s'.disk (ino.iSectors 12) := by
      intro h12
      have h12 : ino.iSectors 12 ≠ 0 := h12
      have hne : ino.iSectors 12 ≠ ino.blocks s.disk k := by
        intro heq
        have h140 : 140 = k := by
          refine ht.blocks.owns.inj 140 le_rfl k hk.le (Inode.held_table ▸ h12) ?_
          rw [Inode.held_table, heq, Inode.held_of_lt hk]
        omega
      refine (sameSector_splice_part hne (by omega)).trans (hdisk _ ?_)
      have hin := ht.blocks.owns.inData 140 le_rfl (Inode.held_table ▸ h12)
      rwa [Inode.held_table] at hin
    have hblocks : ∀ m < 140, (ino.shrink 24).blocks s'.disk m = ino.blocks s.disk m :=
      fun m hm' ↦ Inode.blocks_congr (fun _ _ ↦ rfl) htab hm'
    have hentry : ∀ p, InSlots s'.disk (ino.shrink 24) p → p ≠ (k, j) →
        slotEntry s'.disk (ino.shrink 24) p = slotEntry s.disk ino p := by
      intro p hp hne
      have hp0 : ino.blocks s.disk p.1 ≠ 0 := hblocks p.1 hp.1 ▸ hp.2.2
      rw [slotEntry, slotEntry, hblocks p.1 hp.1, entryAt_congr (hdisk _ (hdata p.1 hp.1 hp0)) hp.2.1]
      by_cases hpk : p.1 = k
      · have hpj : p.2 ≠ j := fun heq ↦ hne (Prod.ext hpk heq)
        rw [hpk]
        exact DirEntry.decode_splice_of_disjoint (by rw [← hino]; omega)
      · refine entryAt_congr (sameSector_splice_part (fun heq ↦ hpk ?_) (by omega)) hp.2.1
        exact hinj p.1 hp.1 hp0 heq
    have hslot : slotEntry s'.disk (ino.shrink 24) (k, j) = DirEntry.decode (fun _ ↦ 0) 0 := by
      rw [slotEntry, hblocks k hk, entryAt_congr (hdisk _ (hdata k hk hlba)) hj, entryAt,
        DirEntry.decode_splice_self]
    refine ht.remove (q := (k, j)) hq hcounted.2 ?_ (fun m hm' ↦ Or.inl (hblocks m hm')) rfl hk12
      hentry (fun _ ↦ ?_) (fun _ ↦ ?_) (fun _ ↦ ?_) rfl hge
    · refine ht.blocks.owns.step (fun p hp _ ↦ Or.inl ⟨?_, id⟩) fun p hp q _ _ _ hne ↦ absurd ?_ hne
      all_goals
        by_cases hp140 : p = 140
        · rw [hp140, Inode.held_table, Inode.held_table]
          rfl
        · rw [Inode.held_of_lt (by omega), Inode.held_of_lt (by omega), hblocks p (by omega)]
    · rw [hblocks 0 (by decide)]
      exact ht.dot.1.1.2.2
    · rw [hslot]
      exact ⟨by decide, by decide⟩
    · rcases hother with hdot | ⟨i, hi, hij, hty⟩
      · exact Or.inl (hdotBlock hdot hlba)
      · exact Or.inr ⟨i, hij, hlive i hi hlba hty⟩
  | drop hk12 hlba hfirst hdisk hbitmap hinode =>
    have hq := hlive j hj hlba hcounted.1
    have hk0 : k ≠ 0 := by
      rintro rfl
      exact hfirst ⟨0, by decide, ht.dot.1.2, ht.dot.2⟩
    rw [hinode, hbitmap]
    have h12 : ((ino.setSector k 0).shrink 24).iSectors 12 = ino.iSectors 12 :=
      Inode.setSector_of_ne ino (by omega) 0
    have hblocks : ∀ m < 140, ((ino.setSector k 0).shrink 24).blocks s'.disk m =
        if m = k then 0 else ino.blocks s.disk m := by
      intro m hm'
      split_ifs with hmk
      · rw [hmk, Inode.blocks_of_lt hk12]
        exact Inode.setSector_self ino k 0
      · by_cases hm12 : m < 12
        · rw [Inode.blocks_of_lt hm12, Inode.blocks_of_lt hm12]
          exact Inode.setSector_of_ne ino hmk 0
        · by_cases h0 : ino.iSectors 12 = 0
          · rw [Inode.blocks_of_no_table (by omega) (h12.trans h0),
              Inode.blocks_of_no_table (by omega) h0]
          · rw [Inode.blocks_of_table (by omega) (h12 ▸ h0), Inode.blocks_of_table (by omega) h0, h12]
            have hin := ht.blocks.owns.inData 140 le_rfl (Inode.held_table ▸ h0)
            rw [Inode.held_table] at hin
            exact tableAt_congr (hdisk _ hin) (by omega)
    have hheld : ∀ p ≤ 140, ((ino.setSector k 0).shrink 24).held s'.disk p =
        if p = k then 0 else ino.held s.disk p := by
      intro p hp
      by_cases hp140 : p = 140
      · rw [hp140, Inode.held_table, Inode.held_table, if_neg (by omega), h12]
      · rw [Inode.held_of_lt (by omega), Inode.held_of_lt (by omega), hblocks p (by omega)]
    refine ht.remove (q := (k, j)) hq hcounted.2 ?_ (fun m hm' ↦ ?_) h12 hk12 (fun p hp hne ↦ ?_)
      (fun hzero ↦ absurd hzero hk0) (fun hin ↦ ?_) (fun hne ↦ ?_) rfl hge
    · refine ht.blocks.owns.step (fun p hp hp0 ↦ ?_) fun p hp q hq' hp0 _ hne ↦ absurd ?_ hne
      · rw [hheld p hp] at hp0 ⊢
        split_ifs at hp0 ⊢ with hpk
        · exact absurd rfl hp0
        · refine Or.inl ⟨rfl, fun hbit ↦ ?_⟩
          rw [Bitmap.bit_set, if_neg, hbit]
          intro heq
          -- the bit of another block
          have hle := ht.blocks.owns.inData p hp hp0
          have hle' := hdata k hk hlba
          have hmax := ht.blocks.onDisk k hk.le
          rw [Inode.held_of_lt hk] at hmax
          have hmaxLba : maxLba = 163839 := by decide
          rw [blockBitmapIdx, ← hino] at heq
          refine hpk (ht.blocks.owns.inj p hp k hk.le hp0 ?_)
          rw [Inode.held_of_lt hk]
          omega
      · rw [hheld p hp] at hp0 ⊢
        split_ifs at hp0 ⊢ with hpk
        · exact absurd rfl hp0
        · rfl
    · rw [hblocks m hm']
      split_ifs with hmk
      · exact Or.inr ⟨hmk, rfl⟩
      · exact Or.inl rfl
    · have hp0 := hp.2.2
      rw [hblocks p.1 hp.1] at hp0
      split_ifs at hp0 with hpk
      · exact absurd rfl hp0
      · rw [slotEntry, slotEntry, hblocks p.1 hp.1, if_neg hpk]
        exact entryAt_congr (hdisk _ (hdata p.1 hp.1 hp0)) hp.2.1
    · have hzero := hin.2.2
      rw [hblocks k hk, if_pos rfl] at hzero
      exact absurd rfl hzero
    · rw [hblocks k hk, if_pos rfl] at hne
      exact absurd rfl hne

end Calls

/-! ## Any run -/

section Runs

variable {E : Env} {s s' : Fs} {dir : Dir}

/-- The bitmaps have the same lengths. -/
def SameLens (s s' : Fs) : Prop := ∀ ty, (s'.bitmap ty).btmpBytesLen = (s.bitmap ty).btmpBytesLen

instance : Steady SameLens where
  refl _ _ := rfl
  trans _ _ _ h h' ty := (h' ty).trans (h ty)
  store _ _ _ _ ty := by cases ty <;> rfl
  setBitmap s ty i v ty' := by cases ty <;> cases ty' <;> rfl
  setInode s a i _ _ ty := by cases ty <;> rfl

theorem Fs.Mounted.sameLens (h : s.Mounted E) (hs : SameLens s s') : s'.Mounted E :=
  ⟨h.part, (hs .blockBitmap).trans h.blockLen, (hs .inodeBitmap).trans h.inodeLen⟩

/-- The calls on the entries of a directory. -/
inductive EntryCall
  | syncDirEntry (e : DirEntry) (ioBuf : ℕ)
  | deleteDirEntry (n ioBuf : ℕ)

/-- One call that returns. An entry that is inserted is in use, and is neither "." nor "..". -/
def EntryCall.Runs (E : Env) (dir : Dir) (s : Fs) : EntryCall → Fs → Prop
  | .syncDirEntry e ioBuf, s' => e.Fits ∧ e.fType ≠ .unknown ∧ e.Ordinary ∧
      ∃ r, Returns (GlowOS.syncDirEntry E dir e ioBuf) s r s'
  | .deleteDirEntry n ioBuf, s' => ∃ r, Returns (GlowOS.deleteDirEntry E dir n ioBuf) s r s'

/-- The directory with the inode at `a` is as `sys_mkdir` writes it: "." and ".." are in its only
block, which is used. -/
structure NewDir (E : Env) (s : Fs) (a n parentNo : ℕ) : Prop where
  mounted : s.Mounted E
  size : (s.inode a).iSize = 2 * 24
  sectors : ∀ k, 1 ≤ k → k ≤ 12 → (s.inode a).iSectors k = 0
  inData : E.part.sb.dataStartLba ≤ (s.inode a).iSectors 0
  onDisk : (s.inode a).iSectors 0 ≤ maxLba
  used : s.blockBitmap.bit ((s.inode a).iSectors 0 - E.part.sb.dataStartLba) = true
  entries : ∀ i < 512, s.disk (512 * (s.inode a).iSectors 0 + i) = dotEntries n parentNo i
  self : n < 2 ^ 32
  parent : parentNo < 2 ^ 32

theorem dotEntry_fits {name : List UInt8} {n : ℕ} (hlen : name.length ≤ 16) (hn : n < 2 ^ 32) :
    DirEntry.Fits ⟨fun i ↦ name.getD i 0, n, .directory⟩ where
  filename i hi := List.getD_eq_default name 0 (by omega)
  iNo := hn
  fType := (by decide : FileType.directory.word < 2 ^ 32)
  other v h := by cases h

theorem entryAt_dotEntries {d : Bytes.Image} {lba n parentNo j : ℕ} (hn : n < 2 ^ 32)
    (hparent : parentNo < 2 ^ 32) (h : ∀ i < 512, d (512 * lba + i) = dotEntries n parentNo i)
    (hj : j < 21) : entryAt d lba j = if j = 0 then ⟨fun i ↦ dot.getD i 0, n, .directory⟩
      else if j = 1 then ⟨fun i ↦ dotDot.getD i 0, parentNo, .directory⟩
      else DirEntry.decode (fun _ ↦ 0) 0 := by
  have hentry : entryAt d lba j = DirEntry.decode (dotEntries n parentNo) (24 * j) :=
    DirEntry.decode_congr fun i hi ↦ by rw [Nat.add_assoc, h _ (by omega)]
  rw [hentry, dotEntries]
  split_ifs with h0 h1
  · rw [h0, DirEntry.decode_splice_of_disjoint (by omega), Nat.mul_zero, DirEntry.decode_splice_self,
      DirEntry.decode_encode (dotEntry_fits (by decide) hn)]
  · rw [h1, Nat.mul_one, DirEntry.decode_splice_self,
      DirEntry.decode_encode (dotEntry_fits (by decide) hparent)]
  · rw [DirEntry.decode_splice_of_disjoint (by omega), DirEntry.decode_splice_of_disjoint (by omega)]
    exact DirEntry.decode_congr fun _ _ ↦ rfl

theorem NewDir.tidy {a n parentNo : ℕ} (h : NewDir E s a n parentNo) : s.Tidy E a := by
  refine ⟨h.mounted, ?_⟩
  have hstart : 0 < E.part.sb.dataStartLba := by
    have := h.mounted.part.dataStartLba_eq
    omega
  have hlba := h.inData
  have h12 := h.sectors 12 (by decide) le_rfl
  have hblocks : ∀ k < 140, (s.inode a).blocks s.disk k =
      if k = 0 then (s.inode a).iSectors 0 else 0 := by
    intro k hk
    split_ifs with hk0
    · rw [hk0, Inode.blocks_of_lt (by decide)]
    · by_cases hk12 : k < 12
      · rw [Inode.blocks_of_lt hk12]
        exact h.sectors k (by omega) (by omega)
      · exact Inode.blocks_of_no_table (by omega) h12
  have hheld : ∀ p ≤ 140, (s.inode a).held s.disk p = if p = 0 then (s.inode a).iSectors 0 else 0 := by
    intro p hp
    by_cases hp140 : p = 140
    · rw [hp140, Inode.held_table, h12, if_neg (by decide)]
    · rw [Inode.held_of_lt (by omega), hblocks p (by omega)]
  have hin : ∀ p, InSlots s.disk (s.inode a) p → p.1 = 0 := by
    rintro p ⟨hp, -, h0⟩
    by_contra hne
    exact h0 (by rw [hblocks p.1 hp, if_neg hne])
  have hslot : ∀ j < 21, slotEntry s.disk (s.inode a) (0, j) =
      if j = 0 then ⟨fun i ↦ dot.getD i 0, n, .directory⟩
      else if j = 1 then ⟨fun i ↦ dotDot.getD i 0, parentNo, .directory⟩
      else DirEntry.decode (fun _ ↦ 0) 0 := by
    intro j hj
    rw [slotEntry, hblocks 0 (by decide), if_pos rfl]
    exact entryAt_dotEntries h.self h.parent h.entries hj
  have hslots : ∀ j < 21, InSlots s.disk (s.inode a) (0, j) := fun j hj ↦
    ⟨(by decide : 0 < 140), hj, by rw [hblocks 0 (by decide), if_pos rfl]; omega⟩
  have hlive : ∀ p, LiveSlot s.disk (s.inode a) p → p = (0, 0) ∨ p = (0, 1) := by
    rintro ⟨k, j⟩ ⟨hp, hty⟩
    obtain rfl : k = 0 := hin _ hp
    rw [hslot j hp.2.1] at hty
    split_ifs at hty with h0 h1
    · exact Or.inl (by rw [h0])
    · exact Or.inr (by rw [h1])
    · exact absurd rfl hty
  have h0 : LiveSlot s.disk (s.inode a) (0, 0) := ⟨hslots 0 (by decide), by
    rw [hslot 0 (by decide), if_pos rfl]
    change FileType.directory ≠ .unknown
    decide⟩
  have h1 : LiveSlot s.disk (s.inode a) (0, 1) := ⟨hslots 1 (by decide), by
    rw [hslot 1 (by decide), if_neg (by decide), if_pos rfl]
    change FileType.directory ≠ .unknown
    decide⟩
  refine ⟨⟨⟨fun p hp hp0 ↦ ?_, fun p hp hp0 ↦ ?_, fun p hp q hq hp0 heq ↦ ?_⟩, fun p hp ↦ ?_,
    fun p hp hdead ↦ ?_⟩, ?_, fun k hk hk0 ↦ ⟨0, ?_⟩, fun hne ↦ absurd h12 hne, fun k j hk hj ↦ ?_,
    ⟨h0, ?_⟩, ⟨h1, ?_⟩, fun p hp hp0 hp1 ↦ absurd (hlive p hp) (not_or.mpr ⟨hp0, hp1⟩)⟩
  · rw [hheld p hp] at hp0 ⊢
    split_ifs at hp0 ⊢
    · exact hlba
    · exact absurd rfl hp0
  · rw [hheld p hp] at hp0 ⊢
    split_ifs at hp0 ⊢
    · exact h.used
    · exact absurd rfl hp0
  · rw [hheld p hp] at hp0 heq
    rw [hheld q hq] at heq
    split_ifs at hp0 heq <;> omega
  · rw [hheld p hp]
    split_ifs
    · exact h.onDisk
    · exact Nat.zero_le _
  · obtain ⟨k, j⟩ := p
    obtain rfl : k = 0 := hin _ hp
    rw [hslot j hp.2.1]
    split_ifs with hj0 hj1
    · exact absurd (hj0 ▸ h0) hdead
    · exact absurd (hj1 ▸ h1) hdead
    · decide
  · have hcard : (liveSlots s.disk (s.inode a)).card ≤ ({(0, 0), (0, 1)} : Finset (ℕ × ℕ)).card := by
      refine Finset.card_le_card ?_
      rw [Finset.subset_iff]
      simpa only [mem_liveSlots, Finset.mem_insert, Finset.mem_singleton] using hlive
    have htwo : ({(0, 0), (0, 1)} : Finset (ℕ × ℕ)).card = 2 := by decide
    rw [h.size]
    omega
  · rw [hblocks k hk] at hk0
    split_ifs at hk0 with hzero
    · exact hzero ▸ h0
    · exact absurd rfl hk0
  · have := hin _ hj.1
    omega
  · rw [hslot 0 (by decide), if_pos rfl]
    exact (by decide : (⟨fun i ↦ dot.getD i 0, 0, .directory⟩ : DirEntry).name = dot)
  · rw [hslot 1 (by decide), if_neg (by decide), if_pos rfl]
    exact (by decide : (⟨fun i ↦ dotDot.getD i 0, 0, .directory⟩ : DirEntry).name = dotDot)

/-- **One call.** -/
theorem EntryCall.Runs.tidy {c : EntryCall} (h : c.Runs E dir s s') (ht : s.Tidy E dir.inode) :
    s'.Tidy E dir.inode := by
  cases c with
  | syncDirEntry e ioBuf =>
    obtain ⟨he, hty, hord, r, h⟩ := h
    exact (syncDirEntry_outcome ht.1 h).2.tidy ht he hty hord
  | deleteDirEntry n ioBuf =>
    obtain ⟨r, h⟩ := h
    have hm' : s'.Mounted E := ht.1.sameLens (within_deleteDirEntry E dir n ioBuf _ _ _ h)
    obtain ⟨ino, t, h1, htail⟩ := returns_bind.mp h
    obtain ⟨-, rfl, rfl⟩ := returns_inodeAt.mp h1
    obtain ⟨blocks, t₁, h2, hdel⟩ := returns_bind.mp htail
    obtain ⟨-, rfl, rfl⟩ := returns_collectBlocks.mp h2
    have hdata : ∀ k < 140, (t₁.inode dir.inode).blocks t₁.disk k ≠ 0 →
        E.part.sb.dataStartLba ≤ (t₁.inode dir.inode).blocks t₁.disk k := by
      intro k hk h0
      rw [← Inode.held_of_lt hk] at h0 ⊢
      exact ht.2.blocks.owns.inData k hk.le h0
    rcases deleteBlocks_cases ht.1 hdata (by decide) hdel with
      ⟨-, rfl⟩ | ⟨-, hge, i, j, hi, hj, hcounted, hdeleted⟩
    · exact ht
    · exact ⟨hm', hdeleted.tidy ht hi hj hge hcounted⟩

/-- **What an empty directory has.** Take any run of returning calls of `sync_dir_entry` and
`delete_dir_entry` on a directory that `sys_mkdir` has just written. If `dir_is_empty` holds in the
end, the directory has no block but the first and no indirect table, and the assertion of `dir_remove`
holds. -/
theorem sectors_eq_zero_of_dirIsEmpty {σ : ℕ → Fs} {c : ℕ → EntryCall} {m n parentNo : ℕ}
    (h0 : NewDir E (σ 0) dir.inode n parentNo)
    (hrun : ∀ i < m, (c i).Runs E dir (σ i) (σ (i + 1)))
    (hempty : Returns (dirIsEmpty E dir) (σ m) true s') :
    (∀ k, 1 ≤ k → k ≤ 12 → ((σ m).inode dir.inode).iSectors k = 0) ∧
      ((List.range 12).all fun k ↦ ((σ m).inode dir.inode).iSectors (k + 1) == 0) = true := by
  have htidy : ∀ i ≤ m, (σ i).Tidy E dir.inode := by
    intro i hi
    induction i with
    | zero => exact h0.tidy
    | succ i ih => exact (hrun i (by omega)).tidy (ih (by omega))
  obtain ⟨ino, t, h1, htail⟩ := returns_bind.mp hempty
  obtain ⟨-, rfl, rfl⟩ := returns_inodeAt.mp h1
  obtain ⟨hsize, -⟩ := returns_pure.mp htail
  rw [(htidy m le_rfl).1.part.dirEntrySize_eq] at hsize
  have hzero : ∀ k, 1 ≤ k → k ≤ 12 → ((σ m).inode dir.inode).iSectors k = 0 := fun k h1 h2 ↦
    (htidy m le_rfl).2.sectors_eq_zero (eq_of_beq hsize.symm) h1 h2
  refine ⟨hzero, List.all_eq_true.mpr fun k hk ↦ ?_⟩
  rw [List.mem_range] at hk
  rw [hzero (k + 1) (by omega) (by omega)]
  rfl

end Runs

/-! ## An entry that comes and goes -/

/-- Directory 1 with its first block, sector 675. -/
def newDirInode : Inode := ((Inode.init 1).setSector 0 675).grow (2 * 24)

/-- A partition with this directory. -/
def Fs.newDir : Fs :=
  { Fs.blank with
    disk := fun i ↦ if i / 512 = 675 then dotEntries 1 0 (i % 512) else 0
    blockBitmap := ⟨512, fun i ↦ if i = 0 then 1 else 0⟩
    inodeBitmap := ⟨512, fun i ↦ if i = 0 then 3 else 0⟩
    inode := fun _ ↦ newDirInode
    heap := fun a ↦ if a = kHeapStart then some Blk.inode else none }

theorem newDir_newDir : NewDir (Env.bump samplePartition) Fs.newDir kHeapStart 1 0 where
  mounted := ⟨samplePartition_formatted, by decide, by decide⟩
  size := by decide
  sectors k h1 h12 := by
    have hsec : ∀ k < 12, newDirInode.iSectors (k + 1) = 0 := by decide
    have hk := hsec (k - 1) (by omega)
    rwa [Nat.sub_add_cancel h1] at hk
  inData := by decide
  onDisk := by decide
  used := by decide
  entries i hi := by
    have hlba : newDirInode.iSectors 0 = 675 := by decide
    change (if (512 * newDirInode.iSectors 0 + i) / 512 = 675 then
      dotEntries 1 0 ((512 * newDirInode.iSectors 0 + i) % 512) else 0) = _
    rw [hlba, if_pos (by omega), show (512 * 675 + i) % 512 = i by omega]
  self := by decide
  parent := by decide

/-- A file is inserted and deleted again; then the directory is looked at. -/
def insertAndDelete (E : Env) (dir : Dir) (e : DirEntry) : FsM (Bool × Bool × Bool) := do
  let inserted ← syncDirEntry E dir e 1024
  let deleted ← deleteDirEntry E dir e.iNo 1024
  let empty ← dirIsEmpty E dir
  pure (inserted, deleted, empty)

/-- The two calls. -/
def insertAndDeleteCalls (i : ℕ) : EntryCall :=
  if i = 0 then .syncDirEntry oneMore 1024 else .deleteDirEntry 2 1024

theorem sectors_eq_zero_of_dirIsEmpty_oneMore : ∃ σ : ℕ → Fs, σ 0 = Fs.newDir ∧
    (∀ i < 2, (insertAndDeleteCalls i).Runs (Env.bump samplePartition) ⟨kHeapStart, none⟩ (σ i)
      (σ (i + 1))) ∧
    (∀ k, 1 ≤ k → k ≤ 12 → ((σ 2).inode kHeapStart).iSectors k = 0) ∧
      ((List.range 12).all fun k ↦ ((σ 2).inode kHeapStart).iSectors (k + 1) == 0) = true := by
  obtain ⟨s₃, h⟩ : ∃ s, Returns (insertAndDelete (Env.bump samplePartition) ⟨kHeapStart, none⟩ oneMore)
      Fs.newDir (true, true, true) s := exists_returns (by decide +kernel)
  obtain ⟨b, s₁, h1, h⟩ := returns_bind.mp h
  obtain ⟨b', s₂, h2, h⟩ := returns_bind.mp h
  obtain ⟨b'', s₃', h3, h⟩ := returns_bind.mp h
  obtain ⟨heq, -⟩ := returns_pure.mp h
  obtain rfl : b'' = true := (Prod.mk.inj (Prod.mk.inj heq).2).2.symm
  obtain ⟨σ, hσ₀, hσ₁, hσ₂⟩ : ∃ σ : ℕ → Fs, σ 0 = Fs.newDir ∧ σ 1 = s₁ ∧ σ 2 = s₂ :=
    ⟨fun i ↦ if i = 0 then Fs.newDir else if i = 1 then s₁ else s₂, rfl, rfl, rfl⟩
  have hrun : ∀ i < 2, (insertAndDeleteCalls i).Runs (Env.bump samplePartition) ⟨kHeapStart, none⟩
      (σ i) (σ (i + 1)) := by
    intro i hi
    rcases (by omega : i = 0 ∨ i = 1) with rfl | rfl
    · rw [hσ₀, hσ₁]
      exact ⟨oneMore_new.fits, oneMore_new.inUse, ⟨by decide, by decide⟩, b, h1⟩
    · rw [hσ₁, hσ₂]
      exact ⟨b', h2⟩
  rw [← hσ₂] at h3
  exact ⟨σ, hσ₀, hrun, sectors_eq_zero_of_dirIsEmpty (hσ₀ ▸ newDir_newDir) hrun h3⟩

end GlowOS
