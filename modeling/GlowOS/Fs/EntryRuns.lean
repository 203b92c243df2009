import Mathlib
import GlowOS.Fs.EmptyDir
import GlowOS.Fs.Listing

/-!
# The entries of a directory over a run

A directory is the multiset of its live entries. `sync_dir_entry` adds one and `delete_dir_entry` takes
one away; which slot they use, and whether a block comes or goes with it, does not show. What
`sys_readdir` returns after any run of such calls is then what was inserted and not deleted.

This holds as long as no entry is inserted while the slots of the direct blocks are all taken and
there is an entry behind the indirect table, which `sync_dir_entry` would replace.
-/

namespace GlowOS

open Bytes Program

/-! ## Entries -/

/-- The live entries of a directory. -/
def dirEntries (d : Image) (ino : Inode) : Multiset DirEntry :=
  (liveSlots d ino).val.map (slotEntry d ino)

section Entries

variable {E : Env} {d d' : Image} {ino ino' : Inode} {bm : Bitmap} {q : ℕ × ℕ}

theorem mem_liveSlots_val {p : ℕ × ℕ} : p ∈ (liveSlots d ino).val ↔ LiveSlot d ino p := by
  rw [Finset.mem_val, mem_liveSlots]

theorem map_liveSlots_congr {f g : ℕ × ℕ → DirEntry} (h : ∀ p, LiveSlot d ino p → f p = g p) :
    (liveSlots d ino).val.map f = (liveSlots d ino).val.map g :=
  Multiset.map_congr rfl (by simpa only [mem_liveSlots_val] using h)

/-- `sys_readdir` returns the live entries. -/
theorem coe_entryList : (entryList d ino : Multiset DirEntry) = dirEntries d ino := by
  have hslots : (slotList d ino : Multiset (ℕ × ℕ)) = (liveSlots d ino).val := by
    rw [Multiset.Nodup.ext (Multiset.coe_nodup.mpr nodup_slotList) (Finset.nodup _)]
    intro p
    rw [Multiset.mem_coe, mem_slotList, mem_liveSlots_val]
  rw [entryList, ← Multiset.map_coe, dirEntries, hslots]

theorem card_dirEntries : Multiset.card (dirEntries d ino) = (liveSlots d ino).card := by
  rw [dirEntries, Multiset.card_map, Finset.card_val]

theorem mem_dirEntries {e : DirEntry} :
    e ∈ dirEntries d ino ↔ ∃ p, LiveSlot d ino p ∧ slotEntry d ino p = e := by
  simp [dirEntries]

/-- One slot more. -/
theorem dirEntries_cons (hq : ¬LiveSlot d ino q) (hq' : LiveSlot d' ino' q)
    (hlive : ∀ p, p ≠ q → (LiveSlot d' ino' p ↔ LiveSlot d ino p))
    (hsame : ∀ p, p ≠ q → LiveSlot d' ino' p → slotEntry d' ino' p = slotEntry d ino p) :
    dirEntries d' ino' = slotEntry d' ino' q ::ₘ dirEntries d ino := by
  have hnot : q ∉ liveSlots d ino := by rwa [mem_liveSlots]
  have hslots : liveSlots d' ino' = insert q (liveSlots d ino) := by
    ext p
    rw [Finset.mem_insert, mem_liveSlots, mem_liveSlots]
    by_cases hpq : p = q
    · exact iff_of_true (hpq ▸ hq') (Or.inl hpq)
    · rw [hlive p hpq, or_iff_right hpq]
  have hrest : (liveSlots d ino).val.map (slotEntry d' ino') =
      (liveSlots d ino).val.map (slotEntry d ino) := by
    refine map_liveSlots_congr fun p hp ↦ ?_
    have hpq : p ≠ q := by
      rintro rfl
      exact hq hp
    exact hsame p hpq ((hlive p hpq).mpr hp)
  rw [dirEntries, hslots, Finset.insert_val_of_notMem hnot, Multiset.map_cons, dirEntries, hrest]

/-- The same slots with the same entries. -/
theorem dirEntries_congr (hlive : ∀ p, LiveSlot d' ino' p ↔ LiveSlot d ino p)
    (hsame : ∀ p, LiveSlot d ino p → slotEntry d' ino' p = slotEntry d ino p) :
    dirEntries d' ino' = dirEntries d ino := by
  have hslots : liveSlots d' ino' = liveSlots d ino := by
    ext p
    rw [mem_liveSlots, mem_liveSlots, hlive]
  rw [dirEntries, hslots, dirEntries]
  exact map_liveSlots_congr hsame

/-- The blocks are the same, and nothing changed in the data area. -/
theorem dirEntries_sameData (hdata : SameData E d d')
    (hin : ∀ k < 140, ino.blocks d k ≠ 0 → E.part.sb.dataStartLba ≤ ino.blocks d k)
    (hblocks : ∀ k < 140, ino'.blocks d' k = ino.blocks d k) :
    dirEntries d' ino' = dirEntries d ino := by
  have hentry : ∀ p, InSlots d ino p → slotEntry d' ino' p = slotEntry d ino p := by
    intro p hp
    rw [slotEntry, slotEntry, hblocks p.1 hp.1]
    exact entryAt_congr (hdata _ (hin p.1 hp.1 hp.2.2)) hp.2.1
  have hslots : ∀ p, InSlots d' ino' p ↔ InSlots d ino p := by
    intro p
    refine ⟨fun hp ↦ ⟨hp.1, hp.2.1, hblocks p.1 hp.1 ▸ hp.2.2⟩,
      fun hp ↦ ⟨hp.1, hp.2.1, (hblocks p.1 hp.1).symm ▸ hp.2.2⟩⟩
  refine dirEntries_congr (fun p ↦ ?_) fun p hp ↦ hentry p hp.1
  rw [LiveSlot, LiveSlot, hslots]
  refine and_congr_right fun hp ↦ ?_
  rw [hentry p hp]

end Entries

/-! ## Insertion -/

section Insertion

variable {E : Env} {s s' : Fs} {a n : ℕ} {e : DirEntry} {r : Bool}

/-- An insertion finds a slot among the direct blocks, or there is nothing behind the table yet. -/
def Fs.Roomy (s : Fs) (a : ℕ) : Prop :=
  ¬(DirectFull s.disk (s.inode a) ∧ ∃ p, LiveSlot s.disk (s.inode a) p ∧ 12 ≤ p.1)

/-- The live entries of the directory with the inode at `a`. -/
def Fs.entries (s : Fs) (a : ℕ) : Multiset DirEntry := dirEntries s.disk (s.inode a)

theorem TidyDir.inData {d : Image} {bm : Bitmap} {ino : Inode} (h : TidyDir E d bm ino) {k : ℕ}
    (hk : k < 140) (h0 : ino.blocks d k ≠ 0) : E.part.sb.dataStartLba ≤ ino.blocks d k := by
  rw [← Inode.held_of_lt hk] at h0 ⊢
  exact h.blocks.owns.inData k hk.le h0

theorem SyncOutcome.entries (h : SyncOutcome E s a e r s') (ht : s.Tidy E a) (hroom : s.Roomy a)
    (he : e.Fits) (hty : e.fType ≠ .unknown) :
    s'.entries a = (if r = true then {e} else 0) + s.entries a ∧
      (s'.inode a).iSize = (s.inode a).iSize + (if r = true then 24 else 0) := by
  cases r with
  | true =>
    obtain ⟨q, hplaced⟩ := h.placed
    have hadd := hplaced.addsSlot ht.1 he ht.2.blocks
    have hkept : ∀ p, LiveSlot s.disk (s.inode a) p → Kept s.disk (s.inode a) p := by
      intro p hp hfull
      by_contra hge
      exact hroom ⟨hfull, p, hp, by omega⟩
    rw [if_pos rfl, if_pos rfl, Multiset.singleton_add]
    refine ⟨?_, hadd.size⟩
    have hcons := dirEntries_cons (q := q) (fun hq ↦ hadd.fresh ⟨hq, hkept q hq⟩)
      ⟨hadd.inSlots, by rw [hadd.entry]; exact hty⟩
      (fun p hpq ↦ (hadd.live_iff p hpq).trans (and_iff_left_of_imp (hkept p)))
      (fun p hpq hp ↦ hadd.same p hpq hp)
    rwa [hadd.entry] at hcons
  | false =>
    rw [if_neg Bool.false_ne_true, if_neg Bool.false_ne_true, zero_add]
    cases h with
    | noBlock hi => exact ⟨rfl, rfl⟩
    | @noSecond i hfull hi hi' =>
      obtain ⟨hlen, -, -⟩ := Bitmap.scan_one_eq_some.mp hi
      -- nothing is behind the table, so there is none
      have h12 : (s.inode a).iSectors 12 = 0 := by
        by_contra h12
        obtain ⟨k, hk, hk', h0⟩ := ht.2.table h12
        obtain ⟨j, hj⟩ := ht.2.used k hk' h0
        exact hroom ⟨hfull, (k, j), hj, hk⟩
      have hinode : (s.givenUp E a i).inode a = (s.inode a).setSector 12 0 := by
        rw [Fs.givenUp, Fs.setInode_inode, Function.update_self]
      refine ⟨?_, by rw [hinode]; rfl⟩
      rw [Fs.entries, hinode]
      refine dirEntries_sameData (sameData_takeBlock ht.1 hlen) (fun k ↦ ht.2.inData)
        fun k hk ↦ ?_
      by_cases hk12 : k < 12
      · rw [Inode.blocks_of_lt hk12, Inode.blocks_of_lt hk12]
        exact Inode.setSector_of_ne _ (by omega) 0
      · rw [Inode.blocks_of_no_table (by omega) (Inode.setSector_self _ 12 0),
          Inode.blocks_of_no_table (by omega) h12]

end Insertion

/-! ## Deletion -/

section Deletion

variable {E : Env} {s s' : Fs} {a n k j : ℕ} {r : Bool}

theorem Fs.Tidy.block_inj (ht : s.Tidy E a) {m : ℕ} (hm : m < 140) (hk : k < 140)
    (h0 : (s.inode a).blocks s.disk m ≠ 0)
    (heq : (s.inode a).blocks s.disk m = (s.inode a).blocks s.disk k) : m = k := by
  rw [← Inode.held_of_lt hm] at h0
  rw [← Inode.held_of_lt hm, ← Inode.held_of_lt hk] at heq
  exact ht.2.blocks.owns.inj m hm.le k hk.le h0 heq

/-- The indirect table is not one of the blocks. -/
theorem Fs.Tidy.table_ne (ht : s.Tidy E a) (hk : k < 140) (h12 : (s.inode a).iSectors 12 ≠ 0) :
    (s.inode a).iSectors 12 ≠ (s.inode a).blocks s.disk k := by
  intro heq
  have h140 : 140 = k := by
    refine ht.2.blocks.owns.inj 140 le_rfl k hk.le (Inode.held_table ▸ h12) ?_
    rw [Inode.held_table, heq, Inode.held_of_lt hk]
  omega

/-- The blocks after a deletion: one of them may be gone. -/
theorem Deleted.blocks (h : Deleted E s a (k, j) s') (ht : s.Tidy E a) (hk : k < 140)
    (hj : j < 21) :
    (∀ m < 140, m ≠ k → (s'.inode a).blocks s'.disk m = (s.inode a).blocks s.disk m) ∧
      ((s'.inode a).blocks s'.disk k = (s.inode a).blocks s.disk k ∨
        k < 12 ∧ (s'.inode a).iSectors k = 0) := by
  have hin : (s.inode a).iSectors 12 ≠ 0 → E.part.sb.dataStartLba ≤ (s.inode a).iSectors 12 := by
    intro h12
    have hle := ht.2.blocks.owns.inData 140 le_rfl (Inode.held_table ▸ h12)
    rwa [Inode.held_table] at hle
  cases h with
  | clear hlba hother hdisk hbitmap hinode =>
    have hblocks : ∀ m < 140, ((s.inode a).shrink 24).blocks s'.disk m =
        (s.inode a).blocks s.disk m := by
      intro m hm
      refine Inode.blocks_congr (fun _ _ ↦ rfl) (fun h12 ↦ ?_) hm
      exact (sameSector_splice_part (ht.table_ne hk h12) (by omega)).trans (hdisk _ (hin h12))
    rw [hinode]
    exact ⟨fun m hm _ ↦ hblocks m hm, Or.inl (hblocks k hk)⟩
  | drop hk12 hlba hfirst hdisk hbitmap hinode =>
    rw [hinode]
    refine ⟨fun m hm hmk ↦ ?_, Or.inr ⟨hk12, Inode.setSector_self _ k 0⟩⟩
    have h12 : (((s.inode a).setSector k 0).shrink 24).iSectors 12 = (s.inode a).iSectors 12 :=
      Inode.setSector_of_ne _ (by omega) 0
    by_cases hm12 : m < 12
    · rw [Inode.blocks_of_lt hm12, Inode.blocks_of_lt hm12]
      exact Inode.setSector_of_ne _ hmk 0
    · by_cases h0 : (s.inode a).iSectors 12 = 0
      · rw [Inode.blocks_of_no_table (by omega) (h12.trans h0),
          Inode.blocks_of_no_table (by omega) h0]
      · rw [Inode.blocks_of_table (by omega) (h12 ▸ h0), Inode.blocks_of_table (by omega) h0, h12]
        exact tableAt_congr (hdisk _ (hin h0)) (by omega)

/-- The other entries after a deletion, and the slot of the deleted one. -/
theorem Deleted.slots (h : Deleted E s a (k, j) s') (ht : s.Tidy E a) (hk : k < 140) (hj : j < 21) :
    (∀ p, InSlots s'.disk (s'.inode a) p → InSlots s.disk (s.inode a) p) ∧
      (∀ p, InSlots s'.disk (s'.inode a) p → p ≠ (k, j) →
        slotEntry s'.disk (s'.inode a) p = slotEntry s.disk (s.inode a) p) ∧
      ¬LiveSlot s'.disk (s'.inode a) (k, j) := by
  obtain ⟨hsame, hblock⟩ := h.blocks ht hk hj
  have hgone : k < 12 → (s'.inode a).iSectors k = 0 → (s'.inode a).blocks s'.disk k = 0 := by
    intro hk12 h0
    rwa [Inode.blocks_of_lt hk12]
  have hold : ∀ p, InSlots s'.disk (s'.inode a) p →
      (s'.inode a).blocks s'.disk p.1 = (s.inode a).blocks s.disk p.1 := by
    intro p hp
    by_cases hpk : p.1 = k
    · rcases hblock with heq | ⟨hk12, h0⟩
      · rw [hpk, heq]
      · exact absurd (hpk ▸ hgone hk12 h0) hp.2.2
    · exact hsame p.1 hp.1 hpk
  refine ⟨fun p hp ↦ ⟨hp.1, hp.2.1, hold p hp ▸ hp.2.2⟩, fun p hp hne ↦ ?_, fun hlive ↦ ?_⟩
  · have h0 : (s.inode a).blocks s.disk p.1 ≠ 0 := hold p hp ▸ hp.2.2
    have hin := ht.2.inData hp.1 h0
    rw [slotEntry, slotEntry, hold p hp]
    cases h with
    | clear hlba hother hdisk hbitmap hinode =>
      rw [entryAt_congr (hdisk _ hin) hp.2.1]
      by_cases hpk : p.1 = k
      · have hpj : p.2 ≠ j := fun heq ↦ hne (Prod.ext hpk heq)
        rw [hpk]
        exact DirEntry.decode_splice_of_disjoint (by omega)
      · exact entryAt_congr (sameSector_splice_part
          (fun heq ↦ hpk (ht.block_inj hp.1 hk h0 heq)) (by omega)) hp.2.1
    | drop hk12 hlba hfirst hdisk hbitmap hinode => exact entryAt_congr (hdisk _ hin) hp.2.1
  · have heq := hold _ hlive.1
    cases h with
    | clear hlba hother hdisk hbitmap hinode =>
      refine hlive.2 ?_
      rw [slotEntry, heq, entryAt_congr (hdisk _ (ht.2.inData hk hlba)) hj, entryAt,
        DirEntry.decode_splice_self]
      decide
    | drop hk12 hlba hfirst hdisk hbitmap hinode =>
      refine hlive.1.2.2 (hgone hk12 ?_)
      rw [hinode]
      exact Inode.setSector_self _ k 0

/-- **`delete_dir_entry`**, when it finds an entry. -/
theorem DeletedOne.entries (h : DeletedOne E s a n s') (ht : s.Tidy E a) :
    ∃ e : DirEntry, e.Ordinary ∧ e.iNo = n ∧ s.entries a = e ::ₘ s'.entries a ∧
      (s.inode a).iSize = (s'.inode a).iSize + 24 := by
  obtain ⟨hsize, k, j, hk, hj, hcounted, hn, hdel, hsingle⟩ := h
  obtain ⟨hin, hentry, hgone⟩ := hdel.slots ht hk hj
  obtain ⟨hsame, hblock⟩ := hdel.blocks ht hk hj
  rw [counted_iff] at hcounted
  have hlba : (s.inode a).blocks s.disk k ≠ 0 := by
    cases hdel with
    | clear hlba => exact hlba
    | drop _ hlba => exact hlba
  have hlive : LiveSlot s.disk (s.inode a) (k, j) := ⟨⟨hk, hj, hlba⟩, hcounted.1⟩
  have hkeep : ∀ p, p ≠ (k, j) → LiveSlot s.disk (s.inode a) p →
      InSlots s'.disk (s'.inode a) p := by
    intro p hne hp
    refine ⟨hp.1.1, hp.1.2.1, ?_⟩
    by_cases hpk : p.1 = k
    · rcases hblock with heq | ⟨hk12, h0⟩
      · rw [hpk, heq]
        exact hlba
      · -- the block is gone, and it had no other entry
        have hk0 : k ≠ 0 := by
          cases hdel with
          | clear _ _ _ _ hinode =>
            rw [hinode] at h0
            exact absurd (h0 : (s.inode a).iSectors k = 0) (Inode.blocks_of_lt hk12 ▸ hlba)
          | drop _ _ hfirst =>
            rintro rfl
            exact hfirst ⟨0, by decide, ht.2.dot.1.2, ht.2.dot.2⟩
        have hord := ht.2.ordinary p hp (fun heq ↦ hk0 (hpk ▸ congrArg Prod.fst heq))
          fun heq ↦ hk0 (hpk ▸ congrArg Prod.fst heq)
        have hpc : Counted (fun b ↦ s.disk (512 * (s.inode a).blocks s.disk k + b)) p.2 :=
          counted_iff.mpr ⟨hpk ▸ hp.2, hpk ▸ hord⟩
        exact absurd (Prod.ext hpk (hsingle hk12 h0 p.2 hp.1.2.1 hpc)) hne
    · rw [hsame p.1 hp.1.1 hpk]
      exact hp.1.2.2
  refine ⟨slotEntry s.disk (s.inode a) (k, j), hcounted.2, hn, ?_, ?_⟩
  · refine dirEntries_cons hgone hlive (fun p hne ↦ ⟨fun hp ↦ ?_, fun hp ↦ ?_⟩) fun p hne hp ↦
      (hentry p (hkeep p hne hp) hne).symm
    · exact ⟨hkeep p hne hp, by rw [hentry p (hkeep p hne hp) hne]; exact hp.2⟩
    · exact ⟨hin p hp.1, by rw [← hentry p hp.1 hne]; exact hp.2⟩
  · have hshrink : (s'.inode a).iSize = (s.inode a).iSize - 24 := by
      cases hdel with
      | clear _ _ _ _ hinode =>
        rw [hinode]
        rfl
      | drop _ _ _ _ _ hinode =>
        rw [hinode]
        rfl
    omega

end Deletion

/-! ## Any run -/

section Runs

variable {E : Env} {s s' : Fs} {dir : Dir} {r : Bool}

/-- One call with what it returns. -/
def EntryCall.RunsTo (E : Env) (dir : Dir) (s : Fs) : EntryCall → Bool → Fs → Prop
  | .syncDirEntry e ioBuf, r, s' => e.Fits ∧ e.fType ≠ .unknown ∧ e.Ordinary ∧
      s.Roomy dir.inode ∧ Returns (GlowOS.syncDirEntry E dir e ioBuf) s r s'
  | .deleteDirEntry n ioBuf, r, s' => Returns (GlowOS.deleteDirEntry E dir n ioBuf) s r s'

/-- The entry that a call inserts if it succeeds. -/
def EntryCall.inserts : EntryCall → Multiset DirEntry
  | .syncDirEntry e _ => {e}
  | .deleteDirEntry _ _ => 0

/-- The number of the entry that a call deletes if it succeeds. -/
def EntryCall.deletes : EntryCall → Multiset ℕ
  | .syncDirEntry _ _ => 0
  | .deleteDirEntry n _ => {n}

/-- What the calls that succeed have inserted or deleted. -/
def total {α : Type} (f : EntryCall → Multiset α) (c : ℕ → EntryCall) (r : ℕ → Bool) (m : ℕ) :
    Multiset α :=
  ((List.range m).map fun i ↦ if r i = true then f (c i) else 0).sum

theorem total_succ {α : Type} (f : EntryCall → Multiset α) (c : ℕ → EntryCall) (r : ℕ → Bool)
    (m : ℕ) : total f c r (m + 1) = total f c r m + if r m = true then f (c m) else 0 := by
  rw [total, List.range_succ, List.map_append, List.sum_append, total]
  simp

theorem EntryCall.RunsTo.runs {c : EntryCall} (h : c.RunsTo E dir s r s') : c.Runs E dir s s' := by
  cases c with
  | syncDirEntry e ioBuf =>
    obtain ⟨he, hty, hord, -, hret⟩ := h
    exact ⟨he, hty, hord, r, hret⟩
  | deleteDirEntry n ioBuf => exact ⟨r, h⟩

theorem deleteDirEntry_exact {n ioBuf : ℕ} (ht : s.Tidy E dir.inode)
    (h : Returns (deleteDirEntry E dir n ioBuf) s r s') :
    r = false ∧ s' = s ∧ NoEntry s dir.inode n 0 ∨ r = true ∧ DeletedOne E s dir.inode n s' := by
  obtain ⟨ino, t, h1, htail⟩ := returns_bind.mp h
  obtain ⟨-, rfl, rfl⟩ := returns_inodeAt.mp h1
  obtain ⟨blocks, t₁, h2, hdel⟩ := returns_bind.mp htail
  obtain ⟨-, rfl, rfl⟩ := returns_collectBlocks.mp h2
  exact deleteBlocks_exact ht.1 (by decide) hdel

theorem NoEntry.iNo_ne {a n : ℕ} (h : NoEntry s a n 0) :
    ∀ e ∈ s.entries a, e.Ordinary → e.iNo ≠ n := by
  simp only [Fs.entries, mem_dirEntries]
  rintro e ⟨p, hp, rfl⟩ hord
  exact h p.1 (Nat.zero_le _) hp.1.1 hp.1.2.2 p.2 hp.1.2.1 (counted_iff.mpr ⟨hp.2, hord⟩)

/-- What a call does to the entries, and to the size, which counts them. -/
structure Effect (c : EntryCall) (r : Bool) (old new : Multiset DirEntry) (size size' : ℕ) :
    Prop where
  entries : ∃ del : Multiset DirEntry,
    new + del = old + (if r = true then c.inserts else 0) ∧
      del.map DirEntry.iNo = (if r = true then c.deletes else 0) ∧ ∀ e ∈ del, e.Ordinary
  size : size' + 24 * Multiset.card old = size + 24 * Multiset.card new
  missed : r = false → ∀ n ∈ c.deletes, ∀ e ∈ old, e.Ordinary → e.iNo ≠ n

theorem EntryCall.RunsTo.effect {c : EntryCall} (h : c.RunsTo E dir s r s')
    (ht : s.Tidy E dir.inode) :
    Effect c r (s.entries dir.inode) (s'.entries dir.inode) (s.inode dir.inode).iSize
      (s'.inode dir.inode).iSize := by
  cases c with
  | syncDirEntry e ioBuf =>
    obtain ⟨he, hty, hord, hroom, hret⟩ := h
    obtain ⟨hentries, hsize⟩ := (syncDirEntry_outcome ht.1 hret).2.entries ht hroom he hty
    refine ⟨⟨0, ?_, ?_, fun e he ↦ absurd he (Multiset.notMem_zero e)⟩, ?_,
      fun _ n hn ↦ absurd hn (Multiset.notMem_zero n)⟩
    · rw [hentries, add_zero, add_comm]
      rfl
    · rw [Multiset.map_zero, EntryCall.deletes, ite_self]
    · rw [hentries, hsize, Multiset.card_add]
      cases r with
      | true =>
        rw [if_pos rfl, if_pos rfl, Multiset.card_singleton]
        omega
      | false =>
        rw [if_neg Bool.false_ne_true, if_neg Bool.false_ne_true, Multiset.card_zero]
        omega
  | deleteDirEntry n ioBuf =>
    rcases deleteDirEntry_exact ht h with ⟨rfl, rfl, hno⟩ | ⟨rfl, hone⟩
    · refine ⟨⟨0, rfl, rfl, fun e he ↦ absurd he (Multiset.notMem_zero e)⟩, rfl, fun _ n' hn' ↦ ?_⟩
      rw [Multiset.mem_singleton.mp hn']
      exact hno.iNo_ne
    · obtain ⟨e, hord, hn, hentries, hsize⟩ := hone.entries ht
      refine ⟨⟨{e}, ?_, ?_, fun e' he' ↦ ?_⟩, ?_, fun hf ↦ absurd hf (by decide)⟩
      · rw [hentries, if_pos rfl, EntryCall.inserts, add_zero, add_comm, Multiset.singleton_add]
      · rw [Multiset.map_singleton, if_pos rfl, hn]
        rfl
      · rw [Multiset.mem_singleton.mp he']
        exact hord
      · rw [hentries, hsize, Multiset.card_cons]
        omega

/-- "." and "..". -/
theorem NewDir.entries_eq {a n parentNo : ℕ} (h : NewDir E s a n parentNo) :
    s.entries a = {⟨fun i ↦ dot.getD i 0, n, .directory⟩,
      ⟨fun i ↦ dotDot.getD i 0, parentNo, .directory⟩} := by
  obtain ⟨-, ht⟩ := h.tidy
  have hcard : (liveSlots s.disk (s.inode a)).card ≤ 2 := by
    have hle := ht.size
    rw [h.size] at hle
    omega
  have hpair : ({(0, 0), (0, 1)} : Finset (ℕ × ℕ)) = liveSlots s.disk (s.inode a) := by
    refine Finset.eq_of_subset_of_card_le (fun p hp ↦ ?_) hcard
    rw [mem_liveSlots]
    rcases Finset.mem_insert.mp hp with rfl | hp
    · exact ht.dot.1
    · rw [Finset.mem_singleton.mp hp]
      exact ht.dotDot.1
  have hentry : ∀ j, slotEntry s.disk (s.inode a) (0, j) =
      entryAt s.disk ((s.inode a).iSectors 0) j := by
    intro j
    rw [slotEntry, Inode.blocks_of_lt (Nat.succ_pos 11)]
  rw [Fs.entries, dirEntries, ← hpair]
  change ({slotEntry s.disk (s.inode a) (0, 0), slotEntry s.disk (s.inode a) (0, 1)} :
    Multiset DirEntry) = _
  rw [hentry, hentry, entryAt_dotEntries h.self h.parent h.entries (by decide),
    entryAt_dotEntries h.self h.parent h.entries (by decide)]
  rfl

theorem tidy_of_runsTo {σ : ℕ → Fs} {c : ℕ → EntryCall} {r : ℕ → Bool} {m n parentNo : ℕ}
    (h0 : NewDir E (σ 0) dir.inode n parentNo)
    (hrun : ∀ i < m, (c i).RunsTo E dir (σ i) (r i) (σ (i + 1))) :
    ∀ i ≤ m, (σ i).Tidy E dir.inode := by
  intro i hi
  induction i with
  | zero => exact h0.tidy
  | succ i ih => exact (hrun i (by omega)).runs.tidy (ih (by omega))

/-- **The entries after a run.** Take any run of `sync_dir_entry` and `delete_dir_entry` on a directory
that `sys_mkdir` has just written. Its entries are "." and ".." and what was inserted, without one
entry for each number that was deleted, and its size counts them. Where a deletion failed, no entry had
the number. -/
theorem entries_conserved {σ : ℕ → Fs} {c : ℕ → EntryCall} {r : ℕ → Bool} {m n parentNo : ℕ}
    (h0 : NewDir E (σ 0) dir.inode n parentNo)
    (hrun : ∀ i < m, (c i).RunsTo E dir (σ i) (r i) (σ (i + 1))) :
    ((σ m).inode dir.inode).iSize = 24 * Multiset.card ((σ m).entries dir.inode) ∧
      (∀ i < m, r i = false → ∀ k ∈ (c i).deletes, ∀ e ∈ (σ i).entries dir.inode,
        e.Ordinary → e.iNo ≠ k) ∧
      ∃ del : Multiset DirEntry, (σ m).entries dir.inode + del =
          {⟨fun i ↦ dot.getD i 0, n, .directory⟩,
            ⟨fun i ↦ dotDot.getD i 0, parentNo, .directory⟩} + total EntryCall.inserts c r m ∧
        del.map DirEntry.iNo = total EntryCall.deletes c r m ∧ ∀ e ∈ del, e.Ordinary := by
  have htidy := tidy_of_runsTo h0 hrun
  induction m with
  | zero =>
    refine ⟨?_, fun i hi ↦ absurd hi (Nat.not_lt_zero i), 0, ?_, rfl,
      fun e he ↦ absurd he (Multiset.notMem_zero e)⟩
    · rw [h0.entries_eq, h0.size]
      rfl
    · rw [h0.entries_eq]
      rfl
  | succ m ih =>
    obtain ⟨hsize, hmissed, del, hentries, hnumbers, hord⟩ :=
      ih (fun i hi ↦ hrun i (by omega)) fun i hi ↦ htidy i (by omega)
    obtain ⟨⟨del', hentries', hnumbers', hord'⟩, hsize', hmissed'⟩ :=
      (hrun m (by omega)).effect (htidy m (by omega))
    refine ⟨by omega, fun i hi ↦ ?_, del' + del, ?_, ?_, fun e he ↦ ?_⟩
    · rcases Nat.lt_succ_iff_lt_or_eq.mp hi with hi | rfl
      · exact hmissed i hi
      · exact hmissed'
    · rw [total_succ, ← add_assoc, hentries', ← add_assoc, ← hentries, add_right_comm]
    · rw [total_succ, Multiset.map_add, hnumbers, hnumbers', add_comm]
    · rcases Multiset.mem_add.mp he with he | he
      · exact hord' e he
      · exact hord e he

/-- **Reading the directory after a run.** What `sys_readdir` returns one after the other are these
entries. -/
theorem entries_listed {σ : ℕ → Fs} {c : ℕ → EntryCall} {r : ℕ → Bool} {m n parentNo : ℕ}
    (h0 : NewDir E (σ 0) dir.inode n parentNo)
    (hrun : ∀ i < m, (c i).RunsTo E dir (σ i) (r i) (σ (i + 1)))
    (hopen : (σ m).heap dir.inode = some Blk.inode) :
    ∃ (l : List DirEntry) (del : Multiset DirEntry),
      (∀ calls, ∃ d, Returns (runDirCalls E calls ⟨dir, 0⟩) (σ m) (listing l calls 0, d) (σ m)) ∧
      l + del = {⟨fun i ↦ dot.getD i 0, n, .directory⟩,
          ⟨fun i ↦ dotDot.getD i 0, parentNo, .directory⟩} + total EntryCall.inserts c r m ∧
        del.map DirEntry.iNo = total EntryCall.deletes c r m ∧ ∀ e ∈ del, e.Ordinary := by
  obtain ⟨hm, ht⟩ := tidy_of_runsTo h0 hrun m le_rfl
  obtain ⟨hsize, -, del, hentries, hrest⟩ := entries_conserved h0 hrun
  have hlist : (σ m).Listable E dir := by
    refine ⟨hm.part, hopen, ht.blocks.onDisk, ?_⟩
    rw [hm.part.dirEntrySize_eq, hsize, Fs.entries, card_dirEntries]
  refine ⟨entryList (σ m).disk ((σ m).inode dir.inode), del, runDirCalls_listing hlist, ?_, hrest⟩
  rw [coe_entryList]
  exact hentries

end Runs

/-- The entry is inserted and deleted again. -/
theorem insertAndDelete_runsTo : ∃ σ : ℕ → Fs, σ 0 = Fs.newDir ∧
    (σ 2).heap kHeapStart = some Blk.inode ∧
    ∀ i < 2, (insertAndDeleteCalls i).RunsTo (Env.bump samplePartition) ⟨kHeapStart, none⟩ (σ i) true
      (σ (i + 1)) := by
  obtain ⟨s₃, h⟩ : ∃ s, Returns (insertAndDelete (Env.bump samplePartition) ⟨kHeapStart, none⟩ oneMore)
      Fs.newDir (true, true, true) s := exists_returns (by decide +kernel)
  obtain ⟨b, s₁, h1, h⟩ := returns_bind.mp h
  obtain ⟨b', s₂, h2, h⟩ := returns_bind.mp h
  obtain ⟨b'', s₃', h3, h⟩ := returns_bind.mp h
  obtain ⟨heq, -⟩ := returns_pure.mp h
  obtain rfl : b' = true := (Prod.mk.inj (Prod.mk.inj heq).2).1.symm
  obtain rfl : b = true := (Prod.mk.inj heq).1.symm
  obtain ⟨ino, t, h4, -⟩ := returns_bind.mp h3
  obtain ⟨hopen, -, -⟩ := returns_inodeAt.mp h4
  refine ⟨fun i ↦ if i = 0 then Fs.newDir else if i = 1 then s₁ else s₂, rfl, hopen, fun i hi ↦ ?_⟩
  rcases (by omega : i = 0 ∨ i = 1) with rfl | rfl
  · exact ⟨oneMore_new.fits, oneMore_new.inUse, ⟨by decide, by decide⟩,
      fun hfull ↦ (hfull.1 1 (by decide)).1 (newDir_newDir.sectors 1 le_rfl (by decide)), h1⟩
  · exact h2

theorem entries_conserved_oneMore : ∃ σ : ℕ → Fs, σ 0 = Fs.newDir ∧
    ((σ 2).inode kHeapStart).iSize = 24 * Multiset.card ((σ 2).entries kHeapStart) := by
  obtain ⟨σ, h0, -, hrun⟩ := insertAndDelete_runsTo
  exact ⟨σ, h0, (entries_conserved (r := fun _ ↦ true) (h0 ▸ newDir_newDir) hrun).1⟩

theorem entries_listed_oneMore : ∃ (σ : ℕ → Fs) (l : List DirEntry), σ 0 = Fs.newDir ∧
    ∀ calls, ∃ d, Returns (runDirCalls (Env.bump samplePartition) calls ⟨⟨kHeapStart, none⟩, 0⟩) (σ 2)
      (listing l calls 0, d) (σ 2) := by
  obtain ⟨σ, h0, hopen, hrun⟩ := insertAndDelete_runsTo
  obtain ⟨l, -, hlist, -⟩ :=
    entries_listed (r := fun _ ↦ true) (h0 ▸ newDir_newDir) hrun hopen
  exact ⟨σ, l, h0, hlist⟩

end GlowOS
