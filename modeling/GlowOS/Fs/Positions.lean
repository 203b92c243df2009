import Mathlib
import GlowOS.Fs.Reading
import GlowOS.Fs.SingleWriter

/-!
# Positions in files

`fd_pos` should never be behind the end of the file. `sys_lseek` checks it, `file_read` clips what it
reads, and `file_write` starts at the last byte of the file, `i_size - 1`. An empty file has none: a
`sys_write` of no bytes leaves the position of the descriptor at `0xffffffff`.

An entry of `file_table` keeps its inode in memory, and nothing but `file_write` and `sync_dir_entry`
changes `i_size`, which only grows. `Held` follows an inode through `sys_open`: its open count is what
it was as soon as the directories of the search are closed again.
-/

namespace GlowOS

open Program

/-! ## Inodes in memory -/

/-- The inode at `a` is in memory, with the open count `c` and the size `n`. -/
structure Held (s : Fs) (a c n : ℕ) : Prop where
  live : s.heap a = some Blk.inode
  count : (s.inode a).iOpenCnts = c
  size : (s.inode a).iSize = n

/-- The heap, the open counts and the sizes of the inodes, and `file_table` are the same. -/
structure SameSizes (s s' : Fs) : Prop where
  heap : s'.heap = s.heap
  stale : s'.stale = s.stale
  counts : ∀ a, (s'.inode a).iOpenCnts = (s.inode a).iOpenCnts
  sizes : ∀ a, (s'.inode a).iSize = (s.inode a).iSize
  table : s'.fileTable = s.fileTable

instance : Std.Refl SameSizes := ⟨fun _ ↦ ⟨rfl, rfl, fun _ ↦ rfl, fun _ ↦ rfl, rfl⟩⟩

instance : IsTrans Fs SameSizes := ⟨fun _ _ _ h h' ↦
  ⟨h'.heap.trans h.heap, h'.stale.trans h.stale, fun a ↦ (h'.counts a).trans (h.counts a),
    fun a ↦ (h'.sizes a).trans (h.sizes a), h'.table.trans h.table⟩⟩

/-- What `sync_dir_entry` does to the sizes: that of the directory may grow. -/
structure GrowsAt (s s' : Fs) : Prop where
  heap : s'.heap = s.heap
  stale : s'.stale = s.stale
  counts : ∀ a, (s'.inode a).iOpenCnts = (s.inode a).iOpenCnts
  sizes : ∀ a, (s.inode a).iSize ≤ (s'.inode a).iSize
  table : s'.fileTable = s.fileTable

theorem SameSizes.grows {s s' : Fs} (h : SameSizes s s') : GrowsAt s s' :=
  ⟨h.heap, h.stale, h.counts, fun a ↦ (h.sizes a).ge, h.table⟩

instance : Std.Refl GrowsAt := ⟨fun s ↦ (Std.Refl.refl s : SameSizes s s).grows⟩

instance : IsTrans Fs GrowsAt := ⟨fun _ _ _ h h' ↦
  ⟨h'.heap.trans h.heap, h'.stale.trans h.stale, fun a ↦ (h'.counts a).trans (h.counts a),
    fun a ↦ (h.sizes a).trans (h'.sizes a), h'.table.trans h.table⟩⟩

section Sizes

variable {E : Env} {s s' : Fs} {a b c n : ℕ}

theorem sameSizes_setInode {i : Inode} (hc : i.iOpenCnts = (s.inode a).iOpenCnts)
    (hs : i.iSize = (s.inode a).iSize) : SameSizes s (s.setInode a i) := by
  have hi : ∀ b, (s.setInode a i).inode b = if b = a then i else s.inode b := fun b ↦
    Function.update_apply ..
  refine ⟨rfl, rfl, fun b ↦ ?_, fun b ↦ ?_, rfl⟩
  · rw [hi]
    split_ifs with hb
    · rw [hc, hb]
    · rfl
  · rw [hi]
    split_ifs with hb
    · rw [hs, hb]
    · rfl

theorem sizes_modifyInode {f : Inode → Inode} (hc : ∀ i, (f i).iOpenCnts = i.iOpenCnts)
    (hs : ∀ i, (f i).iSize = i.iSize) : Within SameSizes (modifyInode a f) := by
  intro s u s' h
  obtain ⟨-, rfl⟩ := returns_modifyInode.mp h
  exact sameSizes_setInode (hc _) (hs _)

theorem sizes_setSector (a k lba : ℕ) :
    Within SameSizes (modifyInode a fun ino ↦ ino.setSector k lba) :=
  sizes_modifyInode (fun _ ↦ rfl) fun _ ↦ rfl

theorem sizes_deny (a : ℕ) (v : Bool) : Within SameSizes (modifyInode a fun ino ↦ ino.deny v) :=
  sizes_modifyInode (fun _ ↦ rfl) fun _ ↦ rfl

theorem sizes_ideWrite (lba room cnt : ℕ) (buf : Bytes.Image) :
    Within SameSizes (ideWrite lba room cnt buf) :=
  .bind (.check _ _) fun _ ↦ .bind (.check _ _) fun _ ↦ .bind (.check _ _) fun _ ↦
    .bind (.check _ _) fun _ ↦ .modify fun _ ↦ ⟨rfl, rfl, fun _ ↦ rfl, fun _ ↦ rfl, rfl⟩

theorem sameSizes_setBitmap (s : Fs) (m : Bitmap) (ty : BitmapType) :
    SameSizes s (s.setBitmap m ty) := by
  cases ty <;> exact ⟨rfl, rfl, fun _ ↦ rfl, fun _ ↦ rfl, rfl⟩

theorem sizes_bitmapSet (ty : BitmapType) (i : ℕ) (v : Bool) :
    Within SameSizes (bitmapSet ty i v) :=
  .bind .get fun _ ↦ .bind (.check _ _) fun _ ↦ .modify fun s ↦ sameSizes_setBitmap s _ ty

theorem sizes_bitmapAlloc (ty : BitmapType) : Within SameSizes (bitmapAlloc ty) := by
  intro s r s' h
  obtain ⟨-, rfl⟩ := returns_bitmapAlloc.mp h
  cases r with
  | none => exact Std.Refl.refl s
  | some i => exact sameSizes_setBitmap s _ ty

theorem sizes_blockBitmapAlloc : Within SameSizes (blockBitmapAlloc E) := by
  refine .bind (sizes_bitmapAlloc _) fun r ↦ ?_
  cases r with
  | none => exact .pure _
  | some i => exact .pure _

theorem sizes_bitmapSync (i : ℕ) (ty : BitmapType) : Within SameSizes (bitmapSync E i ty) :=
  .bind .get fun _ ↦ sizes_ideWrite _ _ _ _

theorem sizes_inodeSync (ino : Inode) (ioBuf : ℕ) : Within SameSizes (inodeSync E ino ioBuf) :=
  .bind (.bind (.check _ _) fun _ ↦ .pure _) fun _ ↦ .bind (.check _ _) fun _ ↦
    .bind (within_ideRead _ _ _) fun _ ↦ sizes_ideWrite _ _ _ _

theorem grows_of_sizes {α : Type} {m : FsM α} (h : Within SameSizes m) : Within GrowsAt m :=
  fun s r s' hret ↦ (h s r s' hret).grows

theorem grows_grow (a k : ℕ) : Within GrowsAt (modifyInode a fun ino ↦ ino.grow k) := by
  intro s u s' h
  obtain ⟨-, rfl⟩ := returns_modifyInode.mp h
  have hi : ∀ b, (s.setInode a ((s.inode a).grow k)).inode b =
      if b = a then (s.inode a).grow k else s.inode b := fun b ↦ Function.update_apply ..
  refine ⟨rfl, rfl, fun b ↦ ?_, fun b ↦ ?_, rfl⟩
  · rw [hi]
    split_ifs with hb
    · rw [hb]
      rfl
    · rfl
  · rw [hi]
    split_ifs with hb
    · rw [hb]
      exact Nat.le_add_right _ _
    · exact le_rfl

theorem grows_placeEntry (a : ℕ) (e : DirEntry) (ioBuf lba : ℕ) :
    Within GrowsAt (placeEntry E a e ioBuf lba) :=
  .bind (grows_of_sizes (sizes_ideWrite _ _ _ _)) fun _ ↦ .bind (grows_grow _ _) fun _ ↦ .pure _

theorem grows_syncNewBlock (a : ℕ) (e : DirEntry) (ioBuf : ℕ) (allBlocks : ℕ → ℕ) (k : ℕ) :
    Within GrowsAt (syncNewBlock E a e ioBuf allBlocks k) := by
  refine .bind (grows_of_sizes sizes_blockBitmapAlloc) fun r ↦ ?_
  cases r with
  | none => exact .pure _
  | some lba =>
    refine .bind (grows_of_sizes (sizes_bitmapSync _ _)) fun _ ↦ .ite ?_ (.ite ?_ ?_)
    · exact .bind (grows_of_sizes (sizes_setSector _ _ _)) fun _ ↦ grows_placeEntry _ _ _ _
    · refine .bind (grows_of_sizes (sizes_setSector _ _ _)) fun _ ↦
        .bind (grows_of_sizes sizes_blockBitmapAlloc) fun r ↦ ?_
      cases r with
      | none =>
        exact .bind (within_inodeAt _) fun _ ↦ .bind (grows_of_sizes (sizes_bitmapSet _ _ _)) fun _ ↦
          .bind (grows_of_sizes (sizes_setSector _ _ _)) fun _ ↦ .pure _
      | some lba' =>
        exact .bind (grows_of_sizes (sizes_bitmapSync _ _)) fun _ ↦ .bind (within_inodeAt _) fun _ ↦
          .bind (grows_of_sizes (sizes_ideWrite _ _ _ _)) fun _ ↦ grows_placeEntry _ _ _ _
    · exact .bind (within_inodeAt _) fun _ ↦ .bind (grows_of_sizes (sizes_ideWrite _ _ _ _)) fun _ ↦
        grows_placeEntry _ _ _ _

theorem grows_syncBlocks (a : ℕ) (e : DirEntry) (ioBuf : ℕ) (allBlocks : ℕ → ℕ) (left k : ℕ) :
    Within GrowsAt (syncBlocks E a e ioBuf allBlocks left k) := by
  induction left generalizing k with
  | zero => exact .pure _
  | succ left ih =>
    rw [syncBlocks]
    refine .ite (grows_syncNewBlock _ _ _ _ _) (.bind (within_ideRead _ _ _) fun buf ↦ ?_)
    cases Scan.firstFrom (fun j ↦ (DirEntry.decode buf (24 * j)).fType == .unknown)
      (dirEntrysPerSec E) 0 with
    | none => exact ih _
    | some j =>
      exact .bind (grows_of_sizes (sizes_ideWrite _ _ _ _)) fun _ ↦ .bind (grows_grow _ _) fun _ ↦
        .pure _

theorem grows_syncDirEntry (dir : Dir) (e : DirEntry) (ioBuf : ℕ) :
    Within GrowsAt (syncDirEntry E dir e ioBuf) :=
  .bind (within_inodeAt _) fun _ ↦ .bind (.check _ _) fun _ ↦ grows_syncBlocks _ _ _ _ _ _

/-! ## Holding an inode -/

namespace Held

theorem same (h : Held s a c n) (hs : SameSizes s s') : Held s' a c n :=
  ⟨(congrFun hs.heap a).trans h.live, (hs.counts a).trans h.count, (hs.sizes a).trans h.size⟩

theorem grows (h : Held s a c n) (hs : GrowsAt s s') : ∃ m, n ≤ m ∧ Held s' a c m :=
  ⟨(s'.inode a).iSize, h.size ▸ hs.sizes a, (congrFun hs.heap a).trans h.live,
    (hs.counts a).trans h.count, rfl⟩

theorem alloc {k : Blk} (h : Held s a c n) (hb : s.heap b = none) : Held (s.alloc b k) a c n := by
  have hab : a ≠ b := by
    rintro rfl
    cases hb.symm.trans h.live
  have hinode : (s.alloc b k).inode a = s.inode a := Function.update_of_ne hab ..
  exact ⟨(Function.update_of_ne hab ..).trans h.live, hinode ▸ h.count, hinode ▸ h.size⟩

theorem free (h : Held s a c n) (hb : b ≠ a) : Held (s.free E b) a c n := by
  have hinode : (s.free E b).inode a = s.inode a := Function.update_of_ne hb.symm ..
  exact ⟨(Function.update_of_ne hb.symm ..).trans h.live, hinode ▸ h.count, hinode ▸ h.size⟩

/-- A block that is in use for something else is another one. -/
theorem ne_of_block {k : Blk} (h : Held s a c n) (hb : s.heap b = some k) (hk : k ≠ Blk.inode) :
    b ≠ a := by
  rintro rfl
  exact hk (Option.some.inj (hb.symm.trans h.live))

theorem sysMalloc {k : Blk} {size : ℕ} {r : Option ℕ} (h : Held s a c n)
    (hret : Returns (sysMalloc E k size) s r s') :
    Held s' a c n ∧ ∀ b, r = some b → s.heap b = none := by
  obtain ⟨hr, rfl⟩ := returns_sysMalloc.mp hret
  cases r with
  | none => exact ⟨⟨h.live, h.count, h.size⟩, nofun⟩
  | some b =>
    have hb := E.malloc_fresh hr.symm
    exact ⟨h.alloc hb, fun b' hb' ↦ Option.some.inj hb' ▸ hb⟩

theorem sysMallocUnchecked {k : Blk} {size : ℕ} (h : Held s a c n)
    (hret : Returns (sysMallocUnchecked E k size) s b s') : Held s' a c n ∧ b ≠ a := by
  obtain ⟨hb, rfl⟩ := returns_sysMallocUnchecked.mp hret
  have hb := E.malloc_fresh hb
  refine ⟨h.alloc hb, ?_⟩
  rintro rfl
  cases hb.symm.trans h.live

theorem ne_of_none (h : Held s a c n) (hb : s.heap b = none) : b ≠ a := by
  rintro rfl
  cases hb.symm.trans h.live

theorem sysFree {u : PUnit} (h : Held s a c n) (hb : b ≠ a)
    (hret : Returns (sysFree E b) s u s') : Held s' a c n := by
  obtain ⟨-, rfl⟩ := returns_sysFree.mp hret
  exact h.free hb

theorem setOpenCnts_self (h : Held s a c n) (m : ℕ) : Held (s.setOpenCnts a m) a m n := by
  have hinode : (s.setOpenCnts a m).inode a = { s.inode a with iOpenCnts := m } :=
    Function.update_self ..
  exact ⟨h.live, by rw [hinode], by rw [hinode]; exact h.size⟩

theorem setInode_of_ne {i : Inode} (h : Held s a c n) (hb : b ≠ a) : Held (s.setInode b i) a c n := by
  have hinode : (s.setInode b i).inode a = s.inode a := Function.update_of_ne hb.symm ..
  exact ⟨h.live, hinode ▸ h.count, hinode ▸ h.size⟩

/-- `inode_open` of the inode counts, of another one does not. -/
theorem inodeOpen {no : ℕ} (h : Held s a c n) (hret : Returns (inodeOpen E no) s b s') :
    Held s' a (if b = a then (c + 1) % 2 ^ 32 else c) n ∧
      (b = a → s.findOpen no = some (some a)) := by
  rcases returns_inodeOpen.mp hret with ⟨hfind, rfl⟩ | ⟨-, hload⟩
  · by_cases hb : b = a
    · subst hb
      rw [if_pos rfl, h.count]
      exact ⟨h.setOpenCnts_self _, fun _ ↦ hfind⟩
    · rw [if_neg hb]
      exact ⟨h.setInode_of_ne hb, fun heq ↦ absurd heq hb⟩
  · obtain ⟨-, -, hb, d, hd, rfl⟩ := returns_inodeLoad.mp hload
    have hb := E.malloc_fresh hb
    have hd := E.malloc_fresh hd
    have hba := h.ne_of_none hb
    have h₁ : Held (s.alloc b Blk.inode) a c n := h.alloc hb
    have hda := h₁.ne_of_none hd
    have h₂ := h₁.alloc (k := Blk.buffer) hd
    rw [if_neg hba]
    refine ⟨?_, fun heq ↦ absurd heq hba⟩
    -- the slot is copied to the new block, which is linked then
    have h₃ := h₂.setInode_of_ne (i := Inode.decode (fun i ↦
      s.disk (512 * (inodePosition E no).secLba + i)) (inodePosition E no).offSize) hba
    rw [Fs.loaded]
    refine Held.free (Held.setInode_of_ne ?_ hba) hda
    exact ⟨h₃.live, h₃.count, h₃.size⟩

/-- `inode_close` of the inode counts; if it stays open, it stays in memory. -/
theorem inodeClose_self {u : PUnit} (h : Held s a ((c + 1) % 2 ^ 32) n) (hc : c ≠ 0)
    (hlt : c < 2 ^ 32) (hret : Returns (inodeClose E a) s u s') : Held s' a c n := by
  obtain ⟨ino, t, h1, hret⟩ := returns_bind.mp hret
  obtain ⟨-, rfl, rfl⟩ := returns_inodeAt.mp h1
  rw [returns_modify_bind] at hret
  have hcnt : ((t.inode a).iOpenCnts + 2 ^ 32 - 1) % 2 ^ 32 = c := by
    rw [h.count]
    omega
  rcases returns_ite.mp hret with ⟨hzero, -⟩ | ⟨-, hret⟩
  · exact absurd (hcnt.symm.trans hzero) hc
  · obtain ⟨-, rfl⟩ := returns_pure.mp hret
    rw [hcnt]
    exact h.setOpenCnts_self c

theorem inodeClose_of_ne {u : PUnit} (h : Held s a c n) (hb : b ≠ a)
    (hret : Returns (inodeClose E b) s u s') : Held s' a c n := by
  obtain ⟨ino, t, h1, hret⟩ := returns_bind.mp hret
  obtain ⟨-, rfl, rfl⟩ := returns_inodeAt.mp h1
  rw [returns_modify_bind] at hret
  have h₁ : Held (t.setOpenCnts b (((t.inode b).iOpenCnts + 2 ^ 32 - 1) % 2 ^ 32)) a c n :=
    h.setInode_of_ne hb
  rcases returns_ite.mp hret with ⟨-, hret⟩ | ⟨-, hret⟩
  · obtain ⟨u', t', h2, hret⟩ := returns_bind.mp hret
    obtain ⟨-, rfl⟩ := returns_free_kernel.mp h2
    rw [returns_modify] at hret
    subst hret
    have h₂ := h₁.free (E := E) hb
    exact ⟨h₂.live, h₂.count, h₂.size⟩
  · obtain ⟨-, rfl⟩ := returns_pure.mp hret
    exact h₁

end Held

end Sizes

/-! ## Searching -/

/-- The open count of the inode at `a` while the directory is open, which is `c` otherwise. -/
def Dir.countWith (d : Dir) (a c : ℕ) : ℕ :=
  if d.block.isSome = true ∧ d.inode = a then (c + 1) % 2 ^ 32 else c

section Search

variable {E : Env} {p : ℕ → Prop} {s s' : Fs} {xs B : List ℕ} {a c n : ℕ}

namespace Held

theorem dirOpen {d : Dir} {no : ℕ} (h : Held s a c n) (hret : Returns (dirOpen E no) s d s') :
    Held s' a (d.countWith a c) n := by
  obtain ⟨b, t, h1, hret⟩ := returns_bind.mp hret
  obtain ⟨e, t', h2, hret⟩ := returns_bind.mp hret
  obtain ⟨rfl, rfl⟩ := returns_pure.mp hret
  have h' := ((h.sysMallocUnchecked h1).1.inodeOpen h2).1
  rw [Dir.countWith]
  simpa using h'

theorem dirClose {d : Dir} {u : PUnit} (h : Held s a (d.countWith a c) n) (hc : c ≠ 0)
    (hlt : c < 2 ^ 32) (hb : ∀ b, d.block = some b → b ≠ a)
    (hret : Returns (dirClose E d) s u s') : Held s' a c n := by
  obtain ⟨e, blk⟩ := d
  cases blk with
  | none =>
    obtain ⟨-, rfl⟩ := returns_pure.mp hret
    rw [Dir.countWith, if_neg (by simp)] at h
    exact h
  | some b =>
    obtain ⟨u', t, h1, hret⟩ := returns_bind.mp hret
    refine Held.sysFree ?_ (hb b rfl) hret
    by_cases hea : e = a
    · subst hea
      rw [Dir.countWith, if_pos ⟨rfl, rfl⟩] at h
      exact h.inodeClose_self hc hlt h1
    · rw [Dir.countWith, if_neg fun hh ↦ hea hh.2] at h
      exact h.inodeClose_of_ne hea h1

theorem searchDirEntry {d : Dir} {name : List UInt8} {r : Option DirEntry} (h : Held s a c n)
    (hret : Returns (searchDirEntry E d name) s r s') : Held s' a c n := by
  obtain ⟨ans, t, h1, hret⟩ := returns_bind.mp hret
  obtain ⟨h', hans⟩ := h.sysMalloc h1
  cases ans with
  | none =>
    obtain ⟨-, rfl⟩ := returns_pure.mp hret
    exact h'
  | some b =>
    have hb := h.ne_of_none (hans b rfl)
    obtain ⟨ino, t₁, h2, hret⟩ := returns_bind.mp hret
    obtain ⟨blocks, t₂, h3, hret⟩ := returns_bind.mp hret
    obtain ⟨e, t₃, h4, hret⟩ := returns_bind.mp hret
    obtain ⟨r', t₄, h5, hret⟩ := returns_bind.mp hret
    obtain ⟨u, t₅, h6, hret⟩ := returns_bind.mp hret
    obtain ⟨u', t₆, h7, hret⟩ := returns_bind.mp hret
    obtain ⟨-, rfl⟩ := returns_pure.mp hret
    have h₂ := (h'.same (within_inodeAt _ _ _ _ h2)).same (within_collectBlocks _ _ _ _ h3)
    obtain ⟨h₃, he⟩ := h₂.sysMallocUnchecked h4
    exact ((h₃.same (within_searchBlocks E _ _ _ _ _ _ _ h5)).sysFree he h6).sysFree hb h7

end Held

/-- A directory that is in use has a block of its own. -/
theorem Shared.block_ne {d : Dir} {m : ℕ} (h : Shared p s xs (d.blocks ++ B)) (ha : Held s a m n) :
    ∀ b, d.block = some b → b ≠ a := by
  intro b hb
  obtain ⟨k, hk, hne⟩ := h.own b (List.mem_append_left B (by rw [Dir.blocks, hb]; simp))
  exact ha.ne_of_block hk hne

/-- The inode of a directory that is in use is kept. -/
def Fs.KeepsDir (s : Fs) (d : Dir) : Prop := d.block.isSome = true → s.Kept d.inode

theorem Fs.Kept.sysMalloc {k : Blk} {size b : ℕ} {r : Option ℕ} (h : s.Kept b) (hE : E.KeepsStale)
    (hret : Returns (sysMalloc E k size) s r s') : s'.Kept b ∧ r ≠ some b := by
  obtain ⟨hr, rfl⟩ := returns_sysMalloc.mp hret
  cases r with
  | none => exact ⟨h, nofun⟩
  | some e =>
    have hne : b ≠ e := by
      rintro rfl
      rcases h with hlive | ⟨-, hst⟩
      · cases (E.malloc_fresh hr.symm).symm.trans hlive
      · cases (hE _ _ _ _ _ _ hr.symm).symm.trans hst
    exact ⟨h.congr (Function.update_of_ne hne ..) (Function.update_of_ne hne ..),
      fun heq ↦ hne (Option.some.inj heq).symm⟩

theorem Fs.Kept.sysMallocUnchecked {k : Blk} {size b e : ℕ} (h : s.Kept b) (hE : E.KeepsStale)
    (hret : Returns (sysMallocUnchecked E k size) s e s') : s'.Kept b ∧ e ≠ b := by
  obtain ⟨r, t, h1, hret⟩ := returns_bind.mp hret
  obtain ⟨hk, hne⟩ := h.sysMalloc hE h1
  cases r with
  | none => exact absurd hret returns_throw
  | some e' =>
    obtain ⟨rfl, rfl⟩ := returns_pure.mp hret
    exact ⟨hk, fun heq ↦ hne (heq ▸ rfl)⟩

theorem Fs.Kept.sysFree {b e : ℕ} {u : PUnit} (h : s.Kept b) (hb : b ≠ e)
    (hret : Returns (sysFree E e) s u s') : s'.Kept b := by
  obtain ⟨-, rfl⟩ := returns_sysFree.mp hret
  exact h.congr (Function.update_of_ne hb ..) rfl

theorem Fs.Kept.same {b : ℕ} (h : s.Kept b) (hs : SameSizes s s') : s'.Kept b :=
  h.congr (congrFun hs.heap b) (congrFun hs.stale b)

theorem Fs.Kept.searchDirEntry {d : Dir} {name : List UInt8} {b : ℕ} {r : Option DirEntry}
    (h : s.Kept b) (hE : E.KeepsStale) (hret : Returns (searchDirEntry E d name) s r s') :
    s'.Kept b := by
  obtain ⟨ans, t, h1, hret⟩ := returns_bind.mp hret
  obtain ⟨h', hans⟩ := h.sysMalloc hE h1
  cases ans with
  | none =>
    obtain ⟨-, rfl⟩ := returns_pure.mp hret
    exact h'
  | some e =>
    obtain ⟨ino, t₁, h2, hret⟩ := returns_bind.mp hret
    obtain ⟨blocks, t₂, h3, hret⟩ := returns_bind.mp hret
    obtain ⟨e', t₃, h4, hret⟩ := returns_bind.mp hret
    obtain ⟨r', t₄, h5, hret⟩ := returns_bind.mp hret
    obtain ⟨u, t₅, h6, hret⟩ := returns_bind.mp hret
    obtain ⟨u', t₆, h7, hret⟩ := returns_bind.mp hret
    obtain ⟨-, rfl⟩ := returns_pure.mp hret
    have h₂ := (h'.same (within_inodeAt _ _ _ _ h2)).same (within_collectBlocks _ _ _ _ h3)
    obtain ⟨h₃, he⟩ := h₂.sysMallocUnchecked hE h4
    have h₄ := h₃.same (within_searchBlocks E _ _ _ _ _ _ _ h5)
    exact (h₄.sysFree he.symm h6).sysFree (fun heq ↦ hans (heq ▸ rfl)) h7

/-- `dir_open` keeps its inode. -/
theorem Shared.dirOpen_keeps {d : Dir} {no : ℕ} (h : Shared p s xs B) (hE : E.KeepsStale)
    (hp : ∀ b, kHeapStart ≤ b → p b) (hret : Returns (GlowOS.dirOpen E no) s d s') :
    s'.KeepsDir d := by
  obtain ⟨b, t, h1, hret⟩ := returns_bind.mp hret
  obtain ⟨e, t', h2, hret⟩ := returns_bind.mp hret
  obtain ⟨rfl, rfl⟩ := returns_pure.mp hret
  have h' := h.sysMallocUnchecked hE (by decide) h1
  intro _
  rcases returns_inodeOpen.mp h2 with ⟨hfind, rfl⟩ | ⟨-, hload⟩
  · have hmem := List.mem_of_find?_eq_some (h'.list.find_eq hfind).symm
    exact (h'.linked e hmem).2.1
  · exact ((h'.inodeLoad hE hp hload).1.linked e List.mem_cons_self).2.1

/-- What the search does to an inode that is held, and that its last directory is kept. -/
theorem Shared.searchFrom_held {fuel : ℕ} {name subPath : List UInt8} {parentInodeNo : ℕ}
    {last : Option ℕ} {r : PathSearchRecord} {res : Option ℕ × PathSearchRecord}
    (h : Shared p s xs (r.parentDir.blocks ++ B)) (hE : E.KeepsStale)
    (hp : ∀ b, kHeapStart ≤ b → p b) (hkeep : s.KeepsDir r.parentDir)
    (hret : Returns (GlowOS.searchFrom E fuel name subPath parentInodeNo last r) s res s') :
    s'.KeepsDir res.2.parentDir ∧ ∀ a c n, c ≠ 0 → c < 2 ^ 32 →
      Held s a (r.parentDir.countWith a c) n → Held s' a (res.2.parentDir.countWith a c) n := by
  induction fuel generalizing s xs name subPath parentInodeNo last r with
  | zero => exact absurd hret returns_throw
  | succ fuel ih =>
    rcases returns_ite.mp hret with ⟨-, hret⟩ | ⟨-, hret⟩
    · obtain ⟨u, t, h1, hret⟩ := returns_bind.mp hret
      obtain ⟨d, t₁, h2, hret⟩ := returns_bind.mp hret
      have hkept := (h.dirClose h1).dirOpen_keeps hE hp h2
      cases last with
      | none => exact absurd hret returns_throw
      | some m =>
        obtain ⟨rfl, rfl⟩ := returns_pure.mp hret
        refine ⟨hkept, fun a c n hc hlt ha ↦ ?_⟩
        exact (ha.dirClose hc hlt (h.block_ne ha) h1).dirOpen h2
    · obtain ⟨-, hret⟩ := returns_check_bind.mp hret
      obtain ⟨-, hret⟩ := returns_check_bind.mp hret
      obtain ⟨found, t, h1, hret⟩ := returns_bind.mp hret
      have h' : Shared p t xs (r.parentDir.blocks ++ B) := h.searchDirEntry hE h1
      have hkeep' : t.KeepsDir r.parentDir := fun hsome ↦ (hkeep hsome).searchDirEntry hE h1
      cases found with
      | none =>
        obtain ⟨rfl, rfl⟩ := returns_pure.mp hret
        exact ⟨hkeep', fun a c n _ _ ha ↦ ha.searchDirEntry h1⟩
      | some e =>
        obtain ⟨q, t₁, h2, hret⟩ := returns_bind.mp hret
        have hsame : SameSizes t t₁ := within_pathParse _ _ _ _ h2
        have h₁ := h'.within (within_pathParse _) h2
        have hkeep₁ : t₁.KeepsDir r.parentDir := fun hsome ↦ (hkeep' hsome).same hsame
        -- the search goes on in the same directory
        have hsameDir : Returns (GlowOS.searchFrom E fuel q.1 q.2 parentInodeNo (some e.iNo)
            (r.extend name)) t₁ res s' → s'.KeepsDir res.2.parentDir ∧
              ∀ a c n, c ≠ 0 → c < 2 ^ 32 → Held s a (r.parentDir.countWith a c) n →
                Held s' a (res.2.parentDir.countWith a c) n := by
          intro hret
          obtain ⟨hk, hall⟩ := ih (r := r.extend name) h₁ hkeep₁ hret
          exact ⟨hk, fun a c n hc hlt ha ↦ hall a c n hc hlt ((ha.searchDirEntry h1).same hsame)⟩
        dsimp only at hret
        cases he : e.fType with
        | directory =>
          rw [he] at hret
          obtain ⟨ino, t₂, h3, hret⟩ := returns_bind.mp hret
          obtain ⟨u, t₃, h4, hret⟩ := returns_bind.mp hret
          obtain ⟨d, t₄, h5, hret⟩ := returns_bind.mp hret
          have h₂ := h₁.within (within_inodeAt _) h3
          have h₃ : Shared p t₃ xs B := h₂.dirClose h4
          obtain ⟨ys, h₄⟩ := h₃.dirOpen hE hp h5
          obtain ⟨hk, hall⟩ := ih h₄ (h₃.dirOpen_keeps hE hp h5) hret
          refine ⟨hk, fun a c n hc hlt ha ↦ hall a c n hc hlt ?_⟩
          have ha₂ := ((ha.searchDirEntry h1).same hsame).same (within_inodeAt _ _ _ _ h3)
          exact (ha₂.dirClose hc hlt (h₂.block_ne ha₂) h4).dirOpen h5
        | regular =>
          rw [he] at hret
          obtain ⟨rfl, rfl⟩ := returns_pure.mp hret
          exact ⟨hkeep₁, fun a c n _ _ ha ↦ (ha.searchDirEntry h1).same hsame⟩
        | unknown =>
          rw [he] at hret
          exact hsameDir hret
        | other v =>
          rw [he] at hret
          exact hsameDir hret

theorem Shared.searchFile_held {pathname : List UInt8} {res : Option ℕ × PathSearchRecord}
    (h : Shared p s xs B) (hE : E.KeepsStale) (hp : ∀ b, kHeapStart ≤ b → p b)
    (hret : Returns (GlowOS.searchFile E pathname) s res s') :
    s'.KeepsDir res.2.parentDir ∧ ∀ a c n, c ≠ 0 → c < 2 ^ 32 → Held s a c n →
      Held s' a (res.2.parentDir.countWith a c) n := by
  rw [GlowOS.searchFile, returns_get_bind] at hret
  rcases returns_ite.mp hret with ⟨-, hret⟩ | ⟨-, hret⟩
  · obtain ⟨rfl, rfl⟩ := returns_pure.mp hret
    exact ⟨fun hsome ↦ absurd hsome Bool.false_ne_true, fun a c n _ _ ha ↦ ha⟩
  · obtain ⟨-, hret⟩ := returns_check_bind.mp hret
    obtain ⟨q, t, h1, hret⟩ := returns_bind.mp hret
    have hsame : SameSizes s t := within_pathParse _ _ _ _ h1
    obtain ⟨hk, hall⟩ := (h.within (within_pathParse _) h1).searchFrom_held
      (r := ⟨[], rootDir s, .unknown⟩) hE hp
      (fun hsome ↦ absurd hsome Bool.false_ne_true) hret
    exact ⟨hk, fun a c n hc hlt ha ↦ hall a c n hc hlt (ha.same hsame)⟩

end Search

/-! ## Opening -/

section Opening

variable {E : Env} {s s' : Fs} {xs : List ℕ} {a c n no flags ioBuf : ℕ} {r : Option ℕ}

theorem sizes_pcbFdInstall (f : ℕ) : Within SameSizes (pcbFdInstall f) := by
  intro s r s' h
  rw [pcbFdInstall, returns_get_bind] at h
  cases hfree : Scan.firstFrom (fun fd ↦ s.cur.fdTable fd == -1) (maxFilesOpenPerProc - 3) 3 with
  | none =>
    rw [hfree] at h
    obtain ⟨-, rfl⟩ := returns_pure.mp h
    exact Std.Refl.refl _
  | some fd =>
    rw [hfree, returns_modify_bind] at h
    obtain ⟨-, rfl⟩ := returns_pure.mp h
    exact ⟨rfl, rfl, fun _ ↦ rfl, fun _ ↦ rfl, rfl⟩

namespace Held

theorem setFile {f : ℕ} {file : File} (h : Held s a c n) : Held (s.setFile f file) a c n :=
  ⟨h.live, h.count, h.size⟩

theorem createRollback {newInode : Option ℕ} (h : Held s a c n) (hio : ioBuf ≠ a)
    (hnew : ∀ b, newInode = some b → b ≠ a)
    (hret : Returns (fileCreateRollback E ioBuf no newInode none) s r s') : Held s' a c n := by
  have htail : ∀ t, Held t a c n → Returns (do
      bitmapSet .inodeBitmap no false
      GlowOS.sysFree E ioBuf
      pure none : FsM (Option ℕ)) t r s' → Held s' a c n := by
    intro t ht hret
    obtain ⟨u, t₁, h1, hret⟩ := returns_bind.mp hret
    obtain ⟨u', t₂, h2, hret⟩ := returns_bind.mp hret
    obtain ⟨-, rfl⟩ := returns_pure.mp hret
    exact (ht.same (sizes_bitmapSet _ _ _ _ _ _ h1)).sysFree hio h2
  cases newInode with
  | none => exact htail s h hret
  | some b =>
    obtain ⟨u, t, h1, hret⟩ := returns_bind.mp hret
    exact htail t (h.sysFree (hnew b rfl) h1) hret

end Held

/-- `file_create` from the free slot of the file table on: other inodes are held on, and an entry
that is new is for the new inode. -/
theorem fileCreateIn_held {parentDir : Dir} {filename : List UInt8} {e : ℕ}
    (he : s.heap e = some Blk.inode) (hio : ioBuf ≠ e)
    (hret : Returns (fileCreateIn E parentDir filename flags ioBuf no e) s r s') :
    (∀ a c n, e ≠ a → ioBuf ≠ a → Held s a c n → ∃ m, n ≤ m ∧ Held s' a c m) ∧
      ∀ f b, (s'.fileTable f).fdInode = some b → s'.fileTable f = s.fileTable f ∨
        (s'.fileTable f).fdPos = 0 ∧ b = e ∧ ∃ m, Held s' e 1 m := by
  obtain ⟨slot, t, h1, hret⟩ := returns_bind.mp hret
  obtain ⟨rfl, -, -⟩ := getFreeSlotInGlobal_sound h1
  cases slot with
  | none =>
    refine ⟨fun a c n hea hia ha ↦ ⟨n, le_rfl, ?_⟩, fun f b _ ↦ Or.inl ?_⟩
    · exact ha.createRollback hia (fun b hb ↦ Option.some.inj hb ▸ hea) hret
    · rw [(fileCreateRollback_tail hret).2.table]
  | some f =>
    obtain ⟨u, t₁, h2, hret⟩ := returns_bind.mp hret
    have hk₁ : SameSizes t t₁ := sizes_deny e _ _ _ _ h2
    rw [returns_modify_bind] at hret
    obtain ⟨de, t₃, h3, hret⟩ := returns_bind.mp hret
    obtain ⟨ok, t₄, h4, hret⟩ := returns_bind.mp hret
    have hk₄ : GrowsAt (t₁.setFile f ⟨0, flags, some e⟩) t₄ :=
      IsTrans.trans _ _ _ (within_createDirEntry _ _ _ _ _ _ h3)
        (grows_syncDirEntry _ _ _ _ _ _ h4)
    have hheld₄ : ∀ {a c n}, Held t a c n → ∃ m, n ≤ m ∧ Held t₄ a c m := fun ha ↦
      ((ha.same hk₁).setFile).grows hk₄
    have htable₄ : t₄.fileTable = Function.update t.fileTable f ⟨0, flags, some e⟩ := by
      rw [hk₄.table, Fs.setFile_fileTable, hk₁.table]
    cases ok with
    | true =>
      obtain ⟨i, w₁, g1, hret⟩ := returns_bind.mp hret
      obtain ⟨u₁, w₂, g2, hret⟩ := returns_bind.mp hret
      obtain ⟨j, w₃, g3, hret⟩ := returns_bind.mp hret
      obtain ⟨u₂, w₄, g4, hret⟩ := returns_bind.mp hret
      obtain ⟨u₃, w₅, g5, hret⟩ := returns_bind.mp hret
      rw [returns_modify_bind] at hret
      obtain ⟨u₄, w₆, g6, hret⟩ := returns_bind.mp hret
      obtain ⟨u₅, w₇, g7, hret₈⟩ := returns_bind.mp hret
      have hk₅ : SameSizes t₄ w₅ := by
        refine IsTrans.trans _ _ _ (within_inodeAt _ _ _ _ g1) ?_
        refine IsTrans.trans _ _ _ (sizes_inodeSync _ _ _ _ _ g2) ?_
        refine IsTrans.trans _ _ _ (within_inodeAt _ _ _ _ g3) ?_
        exact IsTrans.trans _ _ _ (sizes_inodeSync _ _ _ _ _ g4) (sizes_bitmapSync _ _ _ _ _ g5)
      have hk₈ : SameSizes w₇ s' := sizes_pcbFdInstall _ _ _ _ hret₈
      obtain ⟨hlive, rfl⟩ := returns_modifyInode.mp g6
      have htable : s'.fileTable = Function.update t.fileTable f ⟨0, flags, some e⟩ := by
        have hfree : w₇.fileTable = w₅.fileTable :=
          (within_sysFree E _ _ _ _ g7 : SameFiles _ w₇).table
        rw [hk₈.table, hfree, hk₅.table, htable₄]
      refine ⟨fun a c n hea hia ha ↦ ?_, fun g b hg ↦ ?_⟩
      · obtain ⟨m, hm, ha₄⟩ := hheld₄ ha
        have ha₅ := ha₄.same hk₅
        have ha₆ : Held (w₅.pushOpen e) a c m := ⟨ha₅.live, ha₅.count, ha₅.size⟩
        exact ⟨m, hm, ((ha₆.setInode_of_ne hea).sysFree hia g7).same hk₈⟩
      · by_cases hgf : g = f
        · rw [htable, hgf, Function.update_self] at hg ⊢
          refine Or.inr ⟨rfl, (Option.some.inj hg).symm, (w₅.inode e).iSize, ?_⟩
          have he₆ : Held (w₅.pushOpen e) e (w₅.inode e).iOpenCnts (w₅.inode e).iSize :=
            ⟨hlive, rfl, rfl⟩
          exact ((he₆.setOpenCnts_self 1).sysFree hio g7).same hk₈
        · rw [htable, Function.update_of_ne hgf]
          exact Or.inl rfl
    | false =>
      obtain ⟨u', t₅, h5, hret⟩ := returns_bind.mp hret
      rw [returns_modify] at h5
      subst h5
      have hret : Returns (GlowOS.fileCreateRollback E ioBuf no (some e) none)
        (t₄.setFile f ⟨0, 0, none⟩) r s' := hret
      refine ⟨fun a c n hea hia ha ↦ ?_, fun g b hg ↦ ?_⟩
      · obtain ⟨m, hm, ha₄⟩ := hheld₄ ha
        exact ⟨m, hm, ha₄.setFile.createRollback hia (fun b hb ↦ Option.some.inj hb ▸ hea) hret⟩
      · have htable : s'.fileTable = Function.update t.fileTable f ⟨0, 0, none⟩ := by
          rw [(fileCreateRollback_tail hret).2.table, Fs.setFile_fileTable, htable₄,
            Function.update_idem]
        by_cases hgf : g = f
        · rw [htable, hgf, Function.update_self] at hg
          cases hg
        · rw [htable, Function.update_of_ne hgf]
          exact Or.inl rfl

/-- **`file_create`.** The new inode is not that of a directory that is kept. -/
theorem fileCreate_held {parentDir : Dir} {filename : List UInt8} (hE : E.KeepsStale)
    (hkeep : s.KeepsDir parentDir)
    (hret : Returns (fileCreate E parentDir filename flags) s r s') :
    (∀ a c n, Held s a c n → ∃ m, n ≤ m ∧ Held s' a c m) ∧
      ∀ f b, (s'.fileTable f).fdInode = some b → s'.fileTable f = s.fileTable f ∨
        (s'.fileTable f).fdPos = 0 ∧ (parentDir.block.isSome = true → parentDir.inode ≠ b) ∧
          ∃ m, Held s' b 1 m := by
  obtain ⟨ioBuf, t, h1, hret⟩ := returns_bind.mp hret
  have htable₁ : t.fileTable = s.fileTable := (within_sysMalloc E _ _ _ _ _ h1 : SameFiles s t).table
  cases ioBuf with
  | none =>
    obtain ⟨-, rfl⟩ := returns_pure.mp hret
    exact ⟨fun a c n ha ↦ ⟨n, le_rfl, (ha.sysMalloc h1).1⟩, fun f b _ ↦ Or.inl (by rw [htable₁])⟩
  | some ioBuf =>
    obtain ⟨i, t₁, h2, hret⟩ := returns_bind.mp hret
    have hk₁ : SameSizes t t₁ := sizes_bitmapAlloc _ _ _ _ h2
    have htable₂ : t₁.fileTable = s.fileTable := hk₁.table.trans htable₁
    cases i with
    | none =>
      obtain ⟨-, rfl⟩ := returns_pure.mp hret
      exact ⟨fun a c n ha ↦ ⟨n, le_rfl, (ha.sysMalloc h1).1.same hk₁⟩,
        fun f b _ ↦ Or.inl (by rw [htable₂])⟩
    | some i =>
      obtain ⟨newInode, t₂, h3, hret⟩ := returns_bind.mp hret
      have htable₃ : t₂.fileTable = s.fileTable :=
        (within_sysMalloc E _ _ _ _ _ h3 : SameFiles t₁ t₂).table.trans htable₂
      cases newInode with
      | none =>
        refine ⟨fun a c n ha ↦ ⟨n, le_rfl, ?_⟩, fun f b _ ↦ Or.inl ?_⟩
        · have ha₂ := (((ha.sysMalloc h1).1.same hk₁).sysMalloc h3).1
          exact ha₂.createRollback (ha.ne_of_none ((ha.sysMalloc h1).2 _ rfl))
            (fun b hb ↦ by cases hb) hret
        · rw [(fileCreateRollback_tail hret).2.table, htable₃]
      | some e =>
        obtain ⟨u, t₃, h4, hret⟩ := returns_bind.mp hret
        obtain ⟨hlive, rfl⟩ := returns_setInodeAt.mp h4
        obtain ⟨he, -⟩ := returns_sysMalloc.mp h3
        have he := E.malloc_fresh he.symm
        -- the buffer was taken before the inode
        have hio : ioBuf ≠ e := by
          rintro rfl
          obtain ⟨-, rfl⟩ := returns_sysMalloc.mp h1
          have hbuf : t₁.heap ioBuf = some Blk.buffer :=
            (congrFun hk₁.heap ioBuf).trans (Function.update_self ..)
          cases hbuf.symm.trans he
        have hlive' : (t₂.setInode e (Inode.init i)).heap e = some Blk.inode := hlive
        obtain ⟨hheld, hnew⟩ := fileCreateIn_held hlive' hio hret
        refine ⟨fun a c n ha ↦ ?_, fun f b hb ↦ ?_⟩
        · have ha₁ := (ha.sysMalloc h1).1.same hk₁
          have hea := ha₁.ne_of_none he
          exact hheld a c n hea (ha.ne_of_none ((ha.sysMalloc h1).2 _ rfl))
            ((ha₁.sysMalloc h3).1.setInode_of_ne hea)
        · rcases hnew f b hb with hsame | ⟨hpos, rfl, m, hm⟩
          · exact Or.inl (hsame.trans (congrFun htable₃ f))
          · refine Or.inr ⟨hpos, fun hsome heq ↦ ?_, m, hm⟩
            have hkept := (((hkeep hsome).sysMalloc hE h1).1.same hk₁).sysMalloc hE h3
            exact hkept.2 (heq ▸ rfl)

/-- **`file_open`**, of an inode whose open count does not run over. -/
theorem fileOpen_held (hov : ∀ b, s.findOpen no = some (some b) →
      ((s.inode b).iOpenCnts + 1) % 2 ^ 32 ≠ 0)
    (hret : Returns (fileOpen E no flags) s r s') :
    (∀ a c n, c ≠ 0 → c < 2 ^ 32 → Held s a c n →
        ∃ c', c' ≠ 0 ∧ c' < 2 ^ 32 ∧ Held s' a c' n) ∧
      ∀ f b, (s'.fileTable f).fdInode = some b → s'.fileTable f = s.fileTable f ∨
        (s'.fileTable f).fdPos = 0 ∧ ∃ c m, c ≠ 0 ∧ c < 2 ^ 32 ∧ Held s' b c m := by
  obtain ⟨slot, t, h1, hret⟩ := returns_bind.mp hret
  obtain ⟨rfl, -, -⟩ := getFreeSlotInGlobal_sound h1
  cases slot with
  | none =>
    obtain ⟨-, rfl⟩ := returns_pure.mp hret
    exact ⟨fun a c n hc hlt ha ↦ ⟨c, hc, hlt, ha⟩, fun _ _ _ ↦ Or.inl rfl⟩
  | some f =>
    obtain ⟨e, t₁, h2, hret⟩ := returns_bind.mp hret
    have htable₁ : t₁.fileTable = t.fileTable :=
      (within_inodeOpen E no _ _ _ h2 : SameFiles t t₁).table
    rw [returns_modify_bind] at hret
    obtain ⟨ino, t₂, h3, hret⟩ := returns_bind.mp hret
    obtain ⟨hlive, -, rfl⟩ := returns_inodeAt.mp h3
    -- behind the entry nothing changes the counts
    have hlast : SameSizes (t₁.setFile f ⟨0, flags, some e⟩) s' := by
      rcases returns_ite.mp hret with ⟨-, hret⟩ | ⟨-, hret⟩
      · rcases returns_ite.mp hret with ⟨-, hret⟩ | ⟨-, hret⟩
        · obtain ⟨-, rfl⟩ := returns_pure.mp hret
          exact Std.Refl.refl _
        · obtain ⟨u, t₃, h4, hret⟩ := returns_bind.mp hret
          exact IsTrans.trans _ _ _ (sizes_deny e _ _ _ _ h4) (sizes_pcbFdInstall _ _ _ _ hret)
      · exact sizes_pcbFdInstall _ _ _ _ hret
    have hcount : (t₁.inode e).iOpenCnts ≠ 0 ∧ (t₁.inode e).iOpenCnts < 2 ^ 32 := by
      rcases returns_inodeOpen.mp h2 with ⟨hfind, rfl⟩ | ⟨-, hload⟩
      · have hcnt : ((t.setOpenCnts e (((t.inode e).iOpenCnts + 1) % 2 ^ 32)).inode e).iOpenCnts =
            ((t.inode e).iOpenCnts + 1) % 2 ^ 32 := by
          rw [Fs.setOpenCnts, Fs.setInode_inode, Function.update_self]
        rw [hcnt]
        exact ⟨hov e hfind, Nat.mod_lt _ (by omega)⟩
      · obtain ⟨-, -, he, d, hd, rfl⟩ := returns_inodeLoad.mp hload
        have hne : e ≠ d := by
          rintro rfl
          have hused : (t.alloc e Blk.inode).heap e = some Blk.inode := Function.update_self ..
          cases hused.symm.trans (E.malloc_fresh hd)
        rw [Fs.loaded_inode t hne]
        exact ⟨one_ne_zero, Nat.one_lt_two_pow (by omega)⟩
    refine ⟨fun a c n hc hlt ha ↦ ?_, fun g b hg ↦ ?_⟩
    · obtain ⟨ha₁, hfind⟩ := ha.inodeOpen h2
      refine ⟨_, ?_, ?_, ha₁.setFile.same hlast⟩
      · split_ifs with hea
        · have := hov a (hfind hea)
          rwa [ha.count] at this
        · exact hc
      · split_ifs
        · exact Nat.mod_lt _ (by omega)
        · exact hlt
    · by_cases hgf : g = f
      · rw [hlast.table, Fs.setFile_fileTable, hgf, Function.update_self] at hg ⊢
        obtain rfl := Option.some.inj hg
        have he : Held t₁ e (t₁.inode e).iOpenCnts (t₁.inode e).iSize := ⟨hlive, rfl, rfl⟩
        exact Or.inr ⟨rfl, _, _, hcount.1, hcount.2, he.setFile.same hlast⟩
      · rw [hlast.table, Fs.setFile_fileTable, Function.update_of_ne hgf, htable₁]
        exact Or.inl rfl

end Opening

/-! ## Writing and reading -/

section Transfers

variable {E : Env} {s s' : Fs} {a c f n count : ℕ} {buf : Bytes.Image}

theorem SameSizes.setSector {t : Fs} (h : SameSizes s t) (k lba : ℕ) :
    SameSizes s (t.setInode a ((s.inode a).setSector k lba)) :=
  IsTrans.trans _ _ _ h (sameSizes_setInode (h.counts a).symm (h.sizes a).symm)

theorem sizes_placeDirect (a k lba : ℕ) : Within SameSizes (placeDirect a k lba) := by
  intro s u s' h
  obtain ⟨ino, t, h1, h⟩ := returns_bind.mp h
  obtain ⟨-, rfl, rfl⟩ := returns_inodeAt.mp h1
  obtain ⟨-, h⟩ := returns_check_bind.mp h
  obtain ⟨-, rfl⟩ := returns_setInodeAt.mp h
  exact sameSizes_setInode rfl rfl

theorem sizes_placeMixed (a k lba : ℕ) : Within SameSizes (placeMixed a k lba) := by
  refine .ite ?_ (.pure _)
  intro s u s' h
  obtain ⟨ino, t, h1, h⟩ := returns_bind.mp h
  obtain ⟨-, rfl, rfl⟩ := returns_inodeAt.mp h1
  obtain ⟨-, h⟩ := returns_check_bind.mp h
  obtain ⟨-, h⟩ := returns_check_bind.mp h
  obtain ⟨-, rfl⟩ := returns_setInodeAt.mp h
  exact sameSizes_setInode rfl rfl

theorem sizes_allocBlocks {place : ℕ → ℕ → FsM PUnit}
    (hplace : ∀ k lba, Within SameSizes (place k lba)) (left k : ℕ) (allBlocks : ℕ → ℕ) :
    Within SameSizes (allocBlocks E place left k allBlocks) := by
  induction left generalizing k allBlocks with
  | zero => exact .pure _
  | succ left ih =>
    rw [allocBlocks]
    refine .bind sizes_blockBitmapAlloc fun r ↦ ?_
    cases r with
    | none => exact .pure _
    | some lba => exact .bind (hplace k lba) fun _ ↦ .bind (sizes_bitmapSync _ _) fun _ ↦ ih _ _

theorem sizes_allocFirst (a : ℕ) : Within SameSizes (allocFirst E a) := by
  intro s b s' h
  obtain ⟨ino, t, h1, h⟩ := returns_bind.mp h
  obtain ⟨-, rfl, rfl⟩ := returns_inodeAt.mp h1
  rcases returns_ite.mp h with ⟨-, h⟩ | ⟨-, h⟩
  · obtain ⟨r, t₁, h2, h⟩ := returns_bind.mp h
    have hk₁ : SameSizes t t₁ := sizes_blockBitmapAlloc _ _ _ h2
    cases r with
    | none =>
      obtain ⟨-, rfl⟩ := returns_pure.mp h
      exact hk₁
    | some lba =>
      obtain ⟨u, t₂, h3, h⟩ := returns_bind.mp h
      obtain ⟨-, rfl⟩ := returns_setInodeAt.mp h3
      obtain ⟨-, h⟩ := returns_check_bind.mp h
      obtain ⟨u', t₃, h4, h⟩ := returns_bind.mp h
      obtain ⟨-, rfl⟩ := returns_pure.mp h
      exact IsTrans.trans _ _ _ (hk₁.setSector 0 lba) (sizes_bitmapSync _ _ _ _ _ h4)
  · obtain ⟨-, rfl⟩ := returns_pure.mp h
    exact Std.Refl.refl _

theorem sizes_writeBlocks (a has will : ℕ) : Within SameSizes (writeBlocks E a has will) := by
  intro s r s' h
  obtain ⟨ino, t, h1, h⟩ := returns_bind.mp h
  obtain ⟨-, rfl, rfl⟩ := returns_inodeAt.mp h1
  rcases returns_ite.mp h with ⟨-, h⟩ | ⟨-, h⟩
  · rcases returns_ite.mp h with ⟨-, h⟩ | ⟨-, h⟩
    · obtain ⟨-, rfl⟩ := returns_pure.mp h
      exact Std.Refl.refl _
    · obtain ⟨-, h⟩ := returns_check_bind.mp h
      obtain ⟨all, t₁, h2, h⟩ := returns_bind.mp h
      obtain ⟨-, rfl⟩ := returns_pure.mp h
      exact within_readTable _ _ _ _ _ h2
  · rcases returns_ite.mp h with ⟨-, h⟩ | ⟨-, h⟩
    · obtain ⟨-, h⟩ := returns_check_bind.mp h
      obtain ⟨-, h⟩ := returns_check_bind.mp h
      exact sizes_allocBlocks (sizes_placeDirect a) _ _ _ _ _ _ h
    · rcases returns_ite.mp h with ⟨-, h⟩ | ⟨-, h⟩
      · -- the block for the indirect table is put into the inode
        obtain ⟨r', t₁, h2, h⟩ := returns_bind.mp h
        have hk₁ : SameSizes t t₁ := sizes_blockBitmapAlloc _ _ _ h2
        cases r' with
        | none =>
          obtain ⟨-, rfl⟩ := returns_pure.mp h
          exact hk₁
        | some lba =>
          obtain ⟨-, h⟩ := returns_check_bind.mp h
          obtain ⟨u, t₂, h3, h⟩ := returns_bind.mp h
          obtain ⟨-, rfl⟩ := returns_setInodeAt.mp h3
          obtain ⟨u', t₃, h4, h⟩ := returns_bind.mp h
          obtain ⟨all, t₄, h5, h⟩ := returns_bind.mp h
          have hk₄ : SameSizes t t₄ := IsTrans.trans _ _ _
            (IsTrans.trans _ _ _ (hk₁.setSector 12 lba) (sizes_bitmapSync _ _ _ _ _ h4))
            (sizes_allocBlocks (sizes_placeMixed a) _ _ _ _ _ _ h5)
          cases all with
          | none =>
            obtain ⟨-, rfl⟩ := returns_pure.mp h
            exact hk₄
          | some all =>
            obtain ⟨u'', t₅, h6, h⟩ := returns_bind.mp h
            obtain ⟨-, rfl⟩ := returns_pure.mp h
            exact IsTrans.trans _ _ _ hk₄ (sizes_ideWrite _ _ _ _ _ _ _ h6)
      · obtain ⟨-, h⟩ := returns_check_bind.mp h
        obtain ⟨all, t₄, h5, h⟩ := returns_bind.mp h
        have hk₄ : SameSizes t t₄ := sizes_allocBlocks (fun _ _ ↦ .pure _) _ _ _ _ _ _ h5
        cases all with
        | none =>
          obtain ⟨-, rfl⟩ := returns_pure.mp h
          exact hk₄
        | some all =>
          obtain ⟨u'', t₅, h6, h⟩ := returns_bind.mp h
          obtain ⟨-, rfl⟩ := returns_pure.mp h
          exact IsTrans.trans _ _ _ hk₄ (sizes_ideWrite _ _ _ _ _ _ _ h6)

/-- What rounds of `file_write` over the sectors do: the size and the position advance by `k`. -/
structure Advanced (s s' : Fs) (f a k : ℕ) : Prop where
  held : ∀ c n, Held s a c n → Held s' a c (n + k)
  others : ∀ b c n, b ≠ a → Held s b c n → Held s' b c n
  pos : (s'.fileTable f).fdPos = ((s.fileTable f).fdPos + k) % 2 ^ 32
  inode : (s'.fileTable f).fdInode = (s.fileTable f).fdInode
  table : ∀ g ≠ f, s'.fileTable g = s.fileTable g

theorem Advanced.trans {t : Fs} {k l : ℕ} (h : Advanced s t f a k) (h' : Advanced t s' f a l) :
    Advanced s s' f a (k + l) where
  held c n ha := by
    rw [← Nat.add_assoc]
    exact h'.held c _ (h.held c n ha)
  others b c n hb ha := h'.others b c n hb (h.others b c n hb ha)
  pos := by rw [h'.pos, h.pos, Nat.mod_add_mod, Nat.add_assoc]
  inode := h'.inode.trans h.inode
  table g hg := (h'.table g hg).trans (h.table g hg)

theorem Advanced.refl (hpos : (s.fileTable f).fdPos < 2 ^ 32) : Advanced s s f a 0 :=
  ⟨fun _ _ h ↦ h, fun _ _ _ _ h ↦ h, (Nat.mod_eq_of_lt hpos).symm, rfl, fun _ _ ↦ rfl⟩

theorem SameSizes.advanced (h : SameSizes s s') (hpos : (s.fileTable f).fdPos < 2 ^ 32) :
    Advanced s s' f a 0 :=
  ⟨fun _ _ ha ↦ ha.same h, fun _ _ _ _ hb ↦ hb.same h,
    by rw [h.table, Nat.add_zero, Nat.mod_eq_of_lt hpos], by rw [h.table], fun g _ ↦ by rw [h.table]⟩

theorem advanced_grow {t : Fs} (h : SameSizes s t) (k : ℕ) :
    Advanced s ((t.setInode a ((s.inode a).grow k)).seek f k) f a k where
  held c n ha := by
    have hinode : ((t.setInode a ((s.inode a).grow k)).seek f k).inode a = (s.inode a).grow k :=
      Function.update_self ..
    exact ⟨(ha.same h).live, by rw [hinode]; exact ha.count, by rw [hinode, ← ha.size]; rfl⟩
  others b c n hb hheld := ((hheld.same h).setInode_of_ne hb.symm).setFile
  pos := by
    rw [Fs.seek, Fs.setFile_fileTable, Function.update_self, ← h.table]
    rfl
  inode := by
    rw [Fs.seek, Fs.setFile_fileTable, Function.update_self, ← h.table]
    rfl
  table g hg := by
    rw [Fs.seek, Fs.setFile_fileTable, Function.update_of_ne hg, ← h.table]
    rfl

/-- **The loop of `file_write`.** -/
theorem writeSectors_advanced {allBlocks : ℕ → ℕ} {fuel written sizeLeft : ℕ} {first : Bool}
    {u : PUnit} (hpos : (s.fileTable f).fdPos < 2 ^ 32)
    (hret : Returns (writeSectors E f a buf allBlocks fuel written sizeLeft first) s u s') :
    Advanced s s' f a sizeLeft := by
  -- on the sectors
  induction fuel generalizing s written sizeLeft first with
  | zero =>
    rcases returns_ite.mp hret with ⟨hzero, hret⟩ | ⟨-, hret⟩
    · obtain ⟨-, rfl⟩ := returns_pure.mp hret
      rw [hzero]
      exact .refl hpos
    · exact absurd hret returns_throw
  | succ fuel ih =>
    rcases returns_ite.mp hret with ⟨hzero, hret⟩ | ⟨-, hret⟩
    · obtain ⟨-, rfl⟩ := returns_pure.mp hret
      rw [hzero]
      exact .refl hpos
    · obtain ⟨ino, t, h1, hret⟩ := returns_bind.mp hret
      obtain ⟨-, rfl, rfl⟩ := returns_inodeAt.mp h1
      obtain ⟨-, hret⟩ := returns_check_bind.mp hret
      obtain ⟨ioBuf, t₁, h2, hret⟩ := returns_bind.mp hret
      obtain ⟨u₁, t₂, h3, hret⟩ := returns_bind.mp hret
      obtain ⟨u₂, t₃, h4, hret⟩ := returns_bind.mp hret
      obtain ⟨hlive, rfl⟩ := returns_setInodeAt.mp h4
      rw [returns_modify_bind] at hret
      have hread : Within SameSizes (sectorBuf first (allBlocks ((t.inode a).iSize / 512))) :=
        .ite (within_ideRead _ _ _) (.pure _)
      have hwrite : Within SameSizes (ideWrite (allBlocks ((t.inode a).iSize / 512)) 512 1
          (Bytes.splice ioBuf ((t.inode a).iSize % 512)
            (min sizeLeft (512 - (t.inode a).iSize % 512)) fun i ↦ buf (written + i))) :=
        sizes_ideWrite _ _ _ _
      have hround := advanced_grow (f := f) (a := a) (IsTrans.trans _ _ _ (hread _ _ _ h2)
        (hwrite _ _ _ h3)) (min sizeLeft (512 - (t.inode a).iSize % 512))
      have hnext : ((((t₂.setInode a ((t.inode a).grow (min sizeLeft (512 - (t.inode a).iSize % 512)))
          ).seek f (min sizeLeft (512 - (t.inode a).iSize % 512))).fileTable f).fdPos) < 2 ^ 32 := by
        rw [hround.pos]
        exact Nat.mod_lt _ (by omega)
      have hall := hround.trans (ih hnext hret)
      rwa [Nat.add_sub_cancel' (Nat.min_le_left _ _)] at hall

/-- The first block is missing if the file has none and there is no free one. -/
theorem allocFirst_eq_false {b : Bool} (h : Returns (allocFirst E a) s b s') :
    b = false ↔ (s.inode a).iSectors 0 = 0 ∧ s.blockBitmap.scan 1 = none := by
  obtain ⟨ino, t, h1, h⟩ := returns_bind.mp h
  obtain ⟨-, rfl, rfl⟩ := returns_inodeAt.mp h1
  rcases returns_ite.mp h with ⟨hzero, h⟩ | ⟨hne, h⟩
  · obtain ⟨r, t₁, h2, h⟩ := returns_bind.mp h
    rcases returns_blockBitmapAlloc.mp h2 with ⟨hnone, rfl, -⟩ | ⟨i, hi, rfl, -⟩
    · rw [(returns_pure.mp h).1]
      exact iff_of_true rfl ⟨hzero, hnone⟩
    · obtain ⟨u, t₂, -, h⟩ := returns_bind.mp h
      obtain ⟨-, h⟩ := returns_check_bind.mp h
      obtain ⟨u', t₃, -, h⟩ := returns_bind.mp h
      rw [(returns_pure.mp h).1]
      refine iff_of_false (by simp) fun hno ↦ ?_
      cases hi.symm.trans hno.2
  · rw [(returns_pure.mp h).1]
    exact iff_of_false (by simp) fun hno ↦ hne hno.1

/-- A write of no bytes to an empty file needs no block but the first. -/
theorem writeBlocks_one_ne_none (hret : Returns (writeBlocks E a 1 1) s none s') : False := by
  obtain ⟨ino, t, h1, h⟩ := returns_bind.mp hret
  rcases returns_ite.mp h with ⟨-, h⟩ | ⟨hne, -⟩
  · rcases returns_ite.mp h with ⟨-, h⟩ | ⟨hlt, -⟩
    · cases (returns_pure.mp h).1
    · exact hlt (by omega)
  · exact hne (by omega)

/-- The inode at `a` is of an empty file, and `file_write` gets its buffers and the first block. -/
def Fs.Rewinds (E : Env) (s : Fs) (a : ℕ) : Prop :=
  (s.inode a).iSize = 0 ∧ ((s.inode a).iSectors 0 = 0 → s.blockBitmap.scan 1 ≠ none) ∧
    ∃ b, s.answer E 512 = some b ∧ (s.alloc b Blk.buffer).answer E 560 ≠ none

/-- What is in memory stays there, with its size. -/
structure SameHeld (s s' : Fs) : Prop where
  held : ∀ a c n, Held s a c n → Held s' a c n
  table : s'.fileTable = s.fileTable

/-- `file_write` appends `k` bytes to the file, from its last byte on. -/
structure Appended (s s' : Fs) (f a k : ℕ) : Prop where
  held : ∀ c n, Held s a c n → Held s' a c (n + k)
  others : ∀ b c n, b ≠ a → Held s b c n → Held s' b c n
  pos : (s'.fileTable f).fdPos = ((s.inode a).iSize + 2 ^ 32 - 1 + k) % 2 ^ 32
  inode : (s'.fileTable f).fdInode = (s.fileTable f).fdInode
  table : ∀ g ≠ f, s'.fileTable g = s.fileTable g

/-- The part of `file_write` behind the buffers. -/
theorem fileWriteIn_appends {r : Option ℕ} (hret : Returns (fileWriteIn E f a buf count) s r s') :
    (SameSizes s s' ∧ (count = 0 → (s.inode a).iSize = 0 →
        (s.inode a).iSectors 0 = 0 ∧ s.blockBitmap.scan 1 = none)) ∨
      Appended s s' f a count ∧ ¬((s.inode a).iSectors 0 = 0 ∧ s.blockBitmap.scan 1 = none) := by
  obtain ⟨b, t, h1, hret⟩ := returns_bind.mp hret
  have hk : SameSizes s t := sizes_allocFirst a _ _ _ h1
  cases b with
  | false =>
    obtain ⟨-, rfl⟩ := returns_pure.mp hret
    exact Or.inl ⟨hk, fun _ _ ↦ (allocFirst_eq_false h1).mp rfl⟩
  | true =>
    obtain ⟨ino, t₁, h2, hret⟩ := returns_bind.mp hret
    obtain ⟨-, rfl, rfl⟩ := returns_inodeAt.mp h2
    obtain ⟨-, hret⟩ := returns_check_bind.mp hret
    obtain ⟨blocks, t₂, h3, hret⟩ := returns_bind.mp hret
    have hk₂ : SameSizes s t₂ := IsTrans.trans _ _ _ hk (sizes_writeBlocks a _ _ _ _ _ h3)
    cases blocks with
    | none =>
      obtain ⟨-, rfl⟩ := returns_pure.mp hret
      refine Or.inl ⟨hk₂, fun hcount hsize ↦ ?_⟩
      rw [hcount, hk.sizes, hsize] at h3
      exact (writeBlocks_one_ne_none h3).elim
    | some blocks =>
      obtain ⟨ino, t₃, h4, hret⟩ := returns_bind.mp hret
      obtain ⟨-, rfl, rfl⟩ := returns_inodeAt.mp h4
      rw [returns_modify_bind] at hret
      obtain ⟨u, t₄, h5, hret⟩ := returns_bind.mp hret
      obtain ⟨ino, t₅, h6, hsync⟩ := returns_bind.mp hret
      obtain ⟨-, -, rfl⟩ := returns_inodeAt.mp h6
      obtain ⟨u', t₆, h7, hpure⟩ := returns_bind.mp hsync
      obtain ⟨-, rfl⟩ := returns_pure.mp hpure
      set v := t₃.setFile f { t₃.fileTable f with fdPos := ((t₃.inode a).iSize + 2 ^ 32 - 1) % 2 ^ 32 }
        with hv
      have hvf : v.fileTable f =
          { t₃.fileTable f with fdPos := ((t₃.inode a).iSize + 2 ^ 32 - 1) % 2 ^ 32 } := by
        rw [hv, Fs.setFile_fileTable, Function.update_self]
      have hvpos : (v.fileTable f).fdPos < 2 ^ 32 := by
        rw [hvf]
        exact Nat.mod_lt _ (by omega)
      have hadv := writeSectors_advanced hvpos h5
      have hlast : SameSizes t₅ s' := sizes_inodeSync _ _ _ _ _ h7
      have hheld : ∀ {b c n}, Held s b c n → Held v b c n := fun hb ↦ (hb.same hk₂).setFile
      have hfirst : ¬((s.inode a).iSectors 0 = 0 ∧ s.blockBitmap.scan 1 = none) := fun hno ↦ by
        cases (allocFirst_eq_false h1).mpr hno
      refine Or.inr ⟨⟨fun c n ha ↦ (hadv.held c n (hheld ha)).same hlast,
        fun b c n hb hbb ↦ (hadv.others b c n hb (hheld hbb)).same hlast, ?_, ?_, fun g hg ↦ ?_⟩,
        hfirst⟩
      · rw [hlast.table, hadv.pos, hvf, ← hk₂.sizes a, Nat.mod_add_mod]
      · rw [hlast.table, hadv.inode, hvf, ← hk₂.table]
      · rw [hlast.table, hadv.table g hg, hv, Fs.setFile_fileTable, Function.update_of_ne hg,
          hk₂.table]

/-- **`file_write`.** Either it fails and nothing changes, or it appends. -/
theorem fileWrite_cases {r : Option ℕ} (hf : (s.fileTable f).fdInode = some a)
    (hret : Returns (fileWrite E f buf count) s r s') :
    SameHeld s s' ∧ (count = 0 → ¬s.Rewinds E a) ∨
      Appended s s' f a count ∧ ((s.inode a).iSize = 0 → s.Rewinds E a) := by
  obtain ⟨a', t, h1, hret⟩ := returns_bind.mp hret
  obtain ⟨hf', rfl⟩ := returns_fdInodeOf.mp h1
  obtain rfl := Option.some.inj (hf.symm.trans hf')
  obtain ⟨ino, t₁, h2, hret⟩ := returns_bind.mp hret
  obtain ⟨hlive, rfl, rfl⟩ := returns_inodeAt.mp h2
  rcases returns_ite.mp hret with ⟨hlarge, hret⟩ | ⟨-, hret⟩
  · obtain ⟨-, rfl⟩ := returns_pure.mp hret
    refine Or.inl ⟨⟨fun _ _ _ h ↦ h, rfl⟩, fun hcount hrew ↦ ?_⟩
    rw [hcount, hrew.1] at hlarge
    omega
  · obtain ⟨ioBuf, t₂, h3, hret⟩ := returns_bind.mp hret
    have htable₂ : t₂.fileTable = t₁.fileTable :=
      (within_sysMalloc E _ _ _ _ _ h3 : SameFiles t₁ t₂).table
    have hans := returns_sysMalloc.mp h3
    cases ioBuf with
    | none =>
      obtain ⟨-, rfl⟩ := returns_pure.mp hret
      refine Or.inl ⟨⟨fun _ _ _ h ↦ (h.sysMalloc h3).1, htable₂⟩, ?_⟩
      rintro - ⟨-, -, b, hb, -⟩
      cases hans.1.trans hb
    | some ioBuf =>
      obtain ⟨all, t₃, h4, hret⟩ := returns_bind.mp hret
      have htable₃ : t₃.fileTable = t₂.fileTable :=
        (within_sysMalloc E _ _ _ _ _ h4 : SameFiles t₂ t₃).table
      cases all with
      | none =>
        obtain ⟨-, rfl⟩ := returns_pure.mp hret
        refine Or.inl ⟨⟨fun _ _ _ h ↦ ((h.sysMalloc h3).1.sysMalloc h4).1, htable₃.trans htable₂⟩, ?_⟩
        rintro - ⟨-, -, b, hb, hne⟩
        obtain rfl := Option.some.inj (hans.1.trans hb)
        obtain ⟨-, rfl⟩ := hans
        exact hne (returns_sysMalloc.mp h4).1.symm
      | some all =>
        obtain ⟨r', t₄, h5, hret⟩ := returns_bind.mp hret
        obtain ⟨u, t₅, h6, hret⟩ := returns_bind.mp hret
        obtain ⟨u', t₆, h7, hret⟩ := returns_bind.mp hret
        obtain ⟨-, rfl⟩ := returns_pure.mp hret
        have htable₆ : s'.fileTable = t₄.fileTable :=
          ((within_sysFree E _ _ _ _ h6 : SameFiles t₄ t₅).trans (within_sysFree E _ _ _ _ h7)).table
        -- the buffers are new, so they are none of the inodes
        have hin : ∀ {b c n}, Held t₁ b c n → Held t₃ b c n ∧ all ≠ b ∧ ioBuf ≠ b := fun hb ↦
          ⟨((hb.sysMalloc h3).1.sysMalloc h4).1,
            (hb.sysMalloc h3).1.ne_of_none (((hb.sysMalloc h3).1.sysMalloc h4).2 _ rfl),
            hb.ne_of_none ((hb.sysMalloc h3).2 _ rfl)⟩
        have hout : ∀ {b c n}, all ≠ b → ioBuf ≠ b → Held t₄ b c n → Held s' b c n :=
          fun hall hio hb ↦ (hb.sysFree hall h6).sysFree hio h7
        have ha : Held t₁ a (t₁.inode a).iOpenCnts (t₁.inode a).iSize := ⟨hlive, rfl, rfl⟩
        obtain ⟨hb, rfl⟩ := hans
        have hans' := returns_sysMalloc.mp h4
        have hino : t₃.inode a = t₁.inode a := by
          rw [hans'.2]
          exact (Function.update_of_ne (hin ha).2.1.symm ..).trans
            (Function.update_of_ne (hin ha).2.2.symm ..)
        have hbitmap : t₃.blockBitmap = t₁.blockBitmap := by
          rw [hans'.2]
          rfl
        have hsize : (t₃.inode a).iSize = (t₁.inode a).iSize := by rw [hino]
        rcases fileWriteIn_appends h5 with ⟨hsame, hfail⟩ | ⟨happ, hfirst⟩
        · refine Or.inl ⟨⟨fun b c n hb ↦ ?_, ?_⟩, ?_⟩
          · obtain ⟨hb₃, hall, hio⟩ := hin hb
            exact hout hall hio (hb₃.same hsame)
          · rw [htable₆, hsame.table, htable₃, htable₂]
          · rintro hcount ⟨hzero, hfirst, -⟩
            obtain ⟨hno, hscan⟩ := hfail hcount (hsize.trans hzero)
            rw [hino] at hno
            rw [hbitmap] at hscan
            exact hfirst hno hscan
        · refine Or.inr ⟨⟨fun c n hb ↦ ?_, fun b c n hba hb ↦ ?_, ?_, ?_, fun g hg ↦ ?_⟩,
            fun hzero ↦ ⟨hzero, fun hno hscan ↦ hfirst ?_, ioBuf, hb.symm, ?_⟩⟩
          · obtain ⟨hb₃, hall, hio⟩ := hin hb
            exact hout hall hio (happ.held c n hb₃)
          · obtain ⟨hb₃, hall, hio⟩ := hin hb
            exact hout hall hio (happ.others b c n hba hb₃)
          · rw [htable₆, happ.pos, hsize]
          · rw [htable₆, happ.inode, htable₃, htable₂]
          · rw [htable₆, happ.table g hg, htable₃, htable₂]
          · rw [hino, hbitmap]
            exact ⟨hno, hscan⟩
          · intro hnone
            cases hans'.1.trans hnone

/-- Only the position of an entry changes, to `p`. -/
structure Sought (s s' : Fs) (f p : ℕ) : Prop where
  heap : s'.heap = s.heap
  stale : s'.stale = s.stale
  tags : s'.tags = s.tags
  inode : s'.inode = s.inode
  table : s'.fileTable = Function.update s.fileTable f { s.fileTable f with fdPos := p }

theorem Sought.trans {t : Fs} {p q : ℕ} (h : Sought s t f p) (h' : Sought t s' f q) :
    Sought s s' f q where
  heap := h'.heap.trans h.heap
  stale := h'.stale.trans h.stale
  tags := h'.tags.trans h.tags
  inode := h'.inode.trans h.inode
  table := by
    rw [h'.table, h.table, Function.update_idem, Function.update_self]

theorem Sought.refl : Sought s s f (s.fileTable f).fdPos :=
  ⟨rfl, rfl, rfl, rfl, (Function.update_eq_self f s.fileTable).symm⟩

theorem Sought.held (h : Sought s s' f n) {b m : ℕ} (hb : Held s b c m) : Held s' b c m :=
  ⟨(congrFun h.heap b).trans hb.live, h.inode ▸ hb.count, h.inode ▸ hb.size⟩

theorem sought_seek (h : (s.fileTable f).fdPos + n < 2 ^ 32) :
    Sought s (s.seek f n) f ((s.fileTable f).fdPos + n) := by
  refine ⟨rfl, rfl, rfl, rfl, ?_⟩
  rw [Fs.seek, Fs.setFile_fileTable, Nat.mod_eq_of_lt h]

/-- **The loop of `file_read`.** The positions that it reads at are in the file's 140 blocks, so they
do not run over. -/
theorem readSectors_sought {allBlocks : ℕ → ℕ} {fuel bytesRead sizeLeft : ℕ} {out r : Bytes.Image}
    (hret : Returns (readSectors f allBlocks fuel bytesRead sizeLeft out) s r s') :
    Sought s s' f ((s.fileTable f).fdPos + sizeLeft) ∧
      (sizeLeft ≠ 0 → (s.fileTable f).fdPos + sizeLeft ≤ 512 * 140) := by
  -- on the sectors
  induction fuel generalizing s bytesRead sizeLeft out with
  | zero =>
    rcases returns_ite.mp hret with ⟨rfl, hret⟩ | ⟨-, hret⟩
    · obtain ⟨-, rfl⟩ := returns_pure.mp hret
      exact ⟨.refl, fun h ↦ absurd rfl h⟩
    · exact absurd hret returns_throw
  | succ fuel ih =>
    rcases returns_ite.mp hret with ⟨rfl, hret⟩ | ⟨hne, hret⟩
    · obtain ⟨-, rfl⟩ := returns_pure.mp hret
      exact ⟨.refl, fun h ↦ absurd rfl h⟩
    · rw [returns_get_bind] at hret
      obtain ⟨hin, hret⟩ := returns_check_bind.mp hret
      obtain ⟨ioBuf, t, h1, hret⟩ := returns_bind.mp hret
      obtain ⟨-, -, -, -, rfl⟩ := (returns_ideRead (by decide)).mp h1
      rw [returns_modify_bind] at hret
      set pos := (t.fileTable f).fdPos with hpos
      set k := min sizeLeft (512 - pos % 512) with hk
      have hle : k ≤ sizeLeft := Nat.min_le_left _ _
      have hround : pos + k ≤ 512 * 140 := by
        have hin : pos / 512 < 140 := hin
        have hk' : k ≤ 512 - pos % 512 := Nat.min_le_right _ _
        omega
      have hseek : Sought t (t.seek f k) f (pos + k) := sought_seek (by omega)
      obtain ⟨hrest, hbound⟩ := ih hret
      have hnext : ((t.seek f k).fileTable f).fdPos = pos + k := by
        rw [hseek.table, Function.update_self]
      rw [hnext] at hrest hbound
      have hsum : pos + k + (sizeLeft - k) = pos + sizeLeft := by omega
      rw [hsum] at hrest hbound
      refine ⟨hseek.trans hrest, fun _ ↦ ?_⟩
      by_cases hzero : sizeLeft - k = 0
      · omega
      · exact hbound hzero

theorem fileReadIn_sought {size : ℕ} {r : Option (ℕ × Bytes.Image)}
    (hret : Returns (fileReadIn f a size count) s r s') :
    Sought s s' f ((s.fileTable f).fdPos + size) ∧
      (size ≠ 0 → (s.fileTable f).fdPos + size ≤ 512 * 140) := by
  rw [fileReadIn, returns_get_bind] at hret
  obtain ⟨-, hret⟩ := returns_check_bind.mp hret
  obtain ⟨ino, t, h1, hret⟩ := returns_bind.mp hret
  obtain ⟨-, rfl, rfl⟩ := returns_inodeAt.mp h1
  obtain ⟨blocks, t₁, h2, hret⟩ := returns_bind.mp hret
  obtain ⟨out, t₂, h3, hpure⟩ := returns_bind.mp hret
  obtain ⟨-, rfl⟩ := returns_pure.mp hpure
  obtain rfl := readBlocks_same h2
  exact readSectors_sought h3

/-- **`file_read`** reads up to the end of the file. -/
theorem fileRead_positions {r : Option (ℕ × Bytes.Image)} (hf : (s.fileTable f).fdInode = some a)
    (hpos : (s.fileTable f).fdPos ≤ (s.inode a).iSize)
    (hret : Returns (fileRead E f count) s r s') :
    (∀ b c n, Held s b c n → Held s' b c n) ∧ ∃ p ≤ (s.inode a).iSize,
      s'.fileTable = Function.update s.fileTable f { s.fileTable f with fdPos := p } := by
  obtain ⟨a', t, h1, hret⟩ := returns_bind.mp hret
  obtain ⟨hf', rfl⟩ := returns_fdInodeOf.mp h1
  obtain rfl := Option.some.inj (hf.symm.trans hf')
  obtain ⟨ino, t₁, h2, hret⟩ := returns_bind.mp hret
  obtain ⟨hlive, rfl, rfl⟩ := returns_inodeAt.mp h2
  rw [returns_get_bind] at hret
  have hsame : ∀ {s' : Fs}, s'.fileTable = t₁.fileTable → ∃ p ≤ (t₁.inode a).iSize,
      s'.fileTable = Function.update t₁.fileTable f { t₁.fileTable f with fdPos := p } :=
    fun h ↦ ⟨_, hpos, h.trans (Function.update_eq_self f t₁.fileTable).symm⟩
  set size := if (t₁.inode a).iSize < ((t₁.fileTable f).fdPos + count) % 2 ^ 32 then
    ((t₁.inode a).iSize + 2 ^ 32 - (t₁.fileTable f).fdPos) % 2 ^ 32 else count with hsize
  rcases returns_ite.mp hret with ⟨-, hret⟩ | ⟨-, hret⟩
  · obtain ⟨-, rfl⟩ := returns_pure.mp hret
    exact ⟨fun _ _ _ h ↦ h, hsame rfl⟩
  · obtain ⟨ioBuf, t₂, h3, hret⟩ := returns_bind.mp hret
    have htable₂ : t₂.fileTable = t₁.fileTable :=
      (within_sysMalloc E _ _ _ _ _ h3 : SameFiles t₁ t₂).table
    cases ioBuf with
    | none =>
      obtain ⟨-, rfl⟩ := returns_pure.mp hret
      exact ⟨fun _ _ _ h ↦ (h.sysMalloc h3).1, hsame htable₂⟩
    | some ioBuf =>
      obtain ⟨all, t₃, h4, hret⟩ := returns_bind.mp hret
      have htable₃ : t₃.fileTable = t₁.fileTable :=
        (within_sysMalloc E _ _ _ _ _ h4 : SameFiles t₂ t₃).table.trans htable₂
      cases all with
      | none =>
        obtain ⟨-, rfl⟩ := returns_pure.mp hret
        exact ⟨fun _ _ _ h ↦ ((h.sysMalloc h3).1.sysMalloc h4).1, hsame htable₃⟩
      | some all =>
        obtain ⟨r', t₄, h5, hret⟩ := returns_bind.mp hret
        obtain ⟨u, t₅, h6, hret⟩ := returns_bind.mp hret
        obtain ⟨u', t₆, h7, hret⟩ := returns_bind.mp hret
        obtain ⟨-, rfl⟩ := returns_pure.mp hret
        have htable₆ : s'.fileTable = t₄.fileTable :=
          ((within_sysFree E _ _ _ _ h6 : SameFiles t₄ t₅).trans (within_sysFree E _ _ _ _ h7)).table
        obtain ⟨hsought, hbound⟩ := fileReadIn_sought h5
        rw [htable₃] at hsought hbound
        refine ⟨fun b c n hb ↦ ?_, (t₁.fileTable f).fdPos + size, ?_, ?_⟩
        · have hb₂ := (hb.sysMalloc h3).1
          have hb₃ := (hb₂.sysMalloc h4).1
          have hall : all ≠ b := hb₂.ne_of_none ((hb₂.sysMalloc h4).2 _ rfl)
          have hio : ioBuf ≠ b := hb.ne_of_none ((hb.sysMalloc h3).2 _ rfl)
          exact ((hsought.held hb₃).sysFree hall h6).sysFree hio h7
        · split_ifs at hsize with hlong
          · omega
          · by_cases hzero : size = 0
            · omega
            · have := hbound hzero
              omega
        · rw [htable₆, hsought.table, htable₃]

/-! ## `sys_lseek` -/

theorem fdLocal2global_same {fd g : ℕ} (h : Returns (fdLocal2global fd) s g s') :
    g = (s.cur.fdTable fd).toNat ∧ s' = s := by
  obtain ⟨-, h⟩ := returns_check_bind.mp h
  rw [returns_get_bind] at h
  obtain ⟨-, h⟩ := returns_check_bind.mp h
  obtain ⟨-, h⟩ := returns_check_bind.mp h
  exact returns_pure.mp h

/-- The bound of `sys_lseek` is below the size, also where the size is no `int32_t`. -/
theorem le_size_of_le_int32 {p : ℤ} (hp : 0 ≤ p) (h : p ≤ int32 (int32 n - 1)) : p.toNat ≤ n := by
  have hmod : int32 (int32 n - 1) = int32 ((n : ℤ) - 1) := by
    rw [int32, int32, int32]
    exact Int.bmod_sub_bmod
  rw [hmod, int32, Int.bmod] at h
  split_ifs at h <;> omega

/-- **`sys_lseek`.** It fails and changes nothing, or sets the position to one inside of the file. -/
theorem sysLseek_cases {fd offset : ℤ} {whence : ℕ} {r : Option ℕ}
    (hret : Returns (sysLseek fd offset whence) s r s') :
    (r = none ∧ s' = s) ∨ ∃ g b p, (s.fileTable g).fdInode = some b ∧ p ≤ (s.inode b).iSize ∧
      r = some p ∧ Sought s s' g p := by
  rcases returns_ite.mp hret with ⟨-, hret⟩ | ⟨-, hret⟩
  · exact Or.inl (returns_pure.mp hret)
  · obtain ⟨-, hret⟩ := returns_check_bind.mp hret
    obtain ⟨g, t, h1, hfile⟩ := returns_bind.mp hret
    obtain ⟨-, rfl⟩ := fdLocal2global_same h1
    obtain ⟨b, t₁, h2, hseek⟩ := returns_bind.mp hfile
    obtain ⟨hg, rfl⟩ := returns_fdInodeOf.mp h2
    obtain ⟨ino, t₂, h3, hret⟩ := returns_bind.mp hseek
    obtain ⟨-, rfl, rfl⟩ := returns_inodeAt.mp h3
    rw [returns_get_bind] at hret
    rcases returns_ite.mp hret with ⟨-, hret⟩ | ⟨hin, hret⟩
    · exact Or.inl (returns_pure.mp hret)
    · rw [not_or, not_lt, not_lt] at hin
      rw [returns_modify_bind] at hret
      obtain ⟨rfl, rfl⟩ := returns_pure.mp hret
      exact Or.inr ⟨g, b, _, hg, le_size_of_le_int32 hin.1 hin.2, rfl, rfl, rfl, rfl, rfl, rfl⟩

end Transfers

/-! ## One call -/

/-- The position of an open entry is not behind the end of the file. -/
def Fs.Positions (s : Fs) : Prop :=
  ∀ f a, (s.fileTable f).fdInode = some a → (s.fileTable f).fdPos ≤ (s.inode a).iSize

/-- The same, and the inode is in memory and open. -/
def Fs.InFile (s : Fs) : Prop :=
  ∀ f a, (s.fileTable f).fdInode = some a →
    ∃ c n, c ≠ 0 ∧ c < 2 ^ 32 ∧ Held s a c n ∧ (s.fileTable f).fdPos ≤ n

/-- The calls on files, and the process that makes them. -/
inductive PositionCall
  | sysOpen (pid : ℕ) (pathname : List UInt8) (flags : ℕ)
  | sysRead (pid : ℕ) (kb : Bytes.Image) (fd : ℤ) (count : ℕ)
  | sysWrite (pid : ℕ) (fd : ℤ) (buf : Bytes.Image) (count : ℕ)
  | sysLseek (pid : ℕ) (fd offset : ℤ) (whence : ℕ)

/-- One completed call. -/
def PositionCall.Runs (E : Env) (s : Fs) : PositionCall → Fs → Prop
  | .sysOpen pid pathname flags, s' => ∃ r, Returns (GlowOS.sysOpen E pathname flags) (s.run pid) r s'
  | .sysRead pid kb fd count, s' => ∃ r, Returns (GlowOS.sysRead E kb fd count) (s.run pid) r s'
  | .sysWrite pid fd buf count, s' =>
    ∃ r, Returns (GlowOS.sysWrite E fd buf count) (s.run pid) r s'
  | .sysLseek pid fd offset whence, s' =>
    ∃ r, Returns (GlowOS.sysLseek fd offset whence) (s.run pid) r s'

/-- The call writes no bytes, by way of an entry open for writing, to an empty file. -/
def PositionCall.Rewinds (E : Env) (s : Fs) : PositionCall → Prop
  | .sysWrite pid fd _ count => count = 0 ∧ 0 ≤ fd ∧ fd ≠ 1 ∧
      ∃ a, (s.fileTable ((s.run pid).cur.fdTable fd.toNat).toNat).Writes a ∧ (s.run pid).Rewinds E a
  | _ => False

/-- The call opens a file once too often: the open count of its inode, or that of the directory, which
stays open, is a word that runs over. -/
def Fs.Overflows (E : Env) (s : Fs) (pathname : List UInt8) (flags : ℕ) : Prop :=
  flags &&& oCreat = 0 ∧ ∃ n record t, s.Finds E pathname (some n) record t ∧
    ((∃ f, (t.fileTable f).fdInode = some record.parentDir.inode) ∧
        (t.inode record.parentDir.inode).iOpenCnts = 0 ∨
      ∃ a, t.findOpen n = some (some a) ∧ ((t.inode a).iOpenCnts + 1) % 2 ^ 32 = 0)

/-- A `sys_open` that does. -/
def PositionCall.Overflows (E : Env) (s : Fs) : PositionCall → Prop
  | .sysOpen pid pathname flags => (s.run pid).Overflows E pathname flags
  | _ => False

section Calls

variable {E : Env} {s s' : Fs} {xs : List ℕ} {a c n f flags : ℕ}

theorem Fs.InFile.positions (h : s.InFile) : s.Positions := by
  intro f a hf
  obtain ⟨c, n, -, -, ha, hpos⟩ := h f a hf
  exact hpos.trans_eq ha.size.symm

/-- A call that leaves the table and what is in memory. -/
theorem Fs.InFile.of_held (h : s.InFile) (ht : s'.fileTable = s.fileTable)
    (hheld : ∀ a c n, Held s a c n → Held s' a c n) : s'.InFile := by
  intro f a hf
  rw [ht] at hf ⊢
  obtain ⟨c, n, hc, hlt, ha, hpos⟩ := h f a hf
  exact ⟨c, n, hc, hlt, hheld a c n ha, hpos⟩

/-- A call that moves one position. -/
theorem Fs.InFile.of_update {p : ℕ} (h : s.InFile) (hf : (s.fileTable f).fdInode = some a)
    (hp : p ≤ (s.inode a).iSize)
    (ht : s'.fileTable = Function.update s.fileTable f { s.fileTable f with fdPos := p })
    (hheld : ∀ a c n, Held s a c n → Held s' a c n) : s'.InFile := by
  intro g b hg
  rw [ht] at hg ⊢
  by_cases hgf : g = f
  · rw [hgf, Function.update_self] at hg ⊢
    obtain rfl := Option.some.inj (hf.symm.trans hg)
    obtain ⟨c, n, hc, hlt, ha, -⟩ := h f a hf
    exact ⟨c, n, hc, hlt, hheld a c n ha, hp.trans_eq ha.size⟩
  · rw [Function.update_of_ne hgf] at hg ⊢
    obtain ⟨c, n, hc, hlt, hb, hpos⟩ := h g b hg
    exact ⟨c, n, hc, hlt, hheld b c n hb, hpos⟩

/-- **`sys_open`.** -/
theorem Shared.sysOpen_inFile {pathname : List UInt8} {r : Option ℕ}
    (h : Shared (fun _ ↦ True) s xs []) (hE : E.KeepsStale) (hs : s.InFile)
    (hov : ¬s.Overflows E pathname flags)
    (hret : Returns (GlowOS.sysOpen E pathname flags) s r s') :
    s'.InFile := by
  have hp : ∀ b, kHeapStart ≤ b → (fun _ ↦ True) b := fun _ _ ↦ trivial
  rcases sysOpen_cases hret with ⟨-, rfl, -⟩ | ⟨x, record, t, hsearch, -, -, hclose⟩ |
    ⟨record, t, t', hf, -, hcreate, hclose⟩ | ⟨n, record, t, hf, hflags, hopen⟩
  · exact hs
  · -- the directory is closed again
    obtain ⟨-, hall⟩ := h.searchFile_held hE hp hsearch
    obtain ⟨ys, h₁⟩ := h.searchFile hE hp hsearch
    have htable : s'.fileTable = s.fileTable :=
      ((within_searchFile E _ _ _ _ hsearch : SameFiles s t).trans
        (within_dirClose E _ _ _ _ hclose)).table
    intro f a hfa
    rw [htable] at hfa ⊢
    obtain ⟨c, m, hc, hlt, ha, hpos⟩ := hs f a hfa
    have ha₁ := hall a c m hc hlt ha
    exact ⟨c, m, hc, hlt, ha₁.dirClose hc hlt (h₁.block_ne ha₁) hclose, hpos⟩
  · obtain ⟨hkeep, hall⟩ := h.searchFile_held hE hp hf.search
    obtain ⟨ys, h₁⟩ := h.searchFile hE hp hf.search
    obtain ⟨⟨zs, h₂⟩, -⟩ := h₁.fileCreate hE (fun _ _ _ _ _ _ ↦ trivial) hcreate
    obtain ⟨hheld, hnew⟩ := fileCreate_held hE hkeep hcreate
    have htable : t.fileTable = s.fileTable :=
      (within_searchFile E _ _ _ _ hf.search : SameFiles s t).table
    have htable' : s'.fileTable = t'.fileTable :=
      (within_dirClose E _ _ _ _ hclose : SameFiles t' s').table
    intro f a hfa
    rw [htable'] at hfa ⊢
    rcases hnew f a hfa with hold | ⟨hpos, hne, m, ha⟩
    · rw [hold, htable] at hfa ⊢
      obtain ⟨c, m, hc, hlt, ha, hpos⟩ := hs f a hfa
      obtain ⟨m', hm, ha₂⟩ := hheld _ _ _ (hall a c m hc hlt ha)
      exact ⟨c, m', hc, hlt, ha₂.dirClose hc hlt (h₂.block_ne ha₂) hclose, hpos.trans hm⟩
    · -- the new inode is not that of the directory
      have ha₂ : Held t' a (record.parentDir.countWith a 1) m := by
        rw [Dir.countWith, if_neg fun hh ↦ hne hh.1 hh.2]
        exact ha
      exact ⟨1, m, one_ne_zero, by norm_num,
        ha₂.dirClose one_ne_zero (by norm_num) (h₂.block_ne ha₂) hclose, hpos ▸ Nat.zero_le m⟩
  · obtain ⟨-, hall⟩ := h.searchFile_held hE hp hf.search
    have htable : t.fileTable = s.fileTable :=
      (within_searchFile E _ _ _ _ hf.search : SameFiles s t).table
    obtain ⟨hheld, hnew⟩ := fileOpen_held
      (fun b hb hzero ↦ hov ⟨hflags, n, record, t, hf, Or.inr ⟨b, hb, hzero⟩⟩) hopen
    intro f a hfa
    rcases hnew f a hfa with hold | ⟨hpos, c, m, hc, hlt, ha⟩
    · rw [hold] at hfa ⊢
      obtain ⟨c, m, hc, hlt, ha, hpos⟩ := hs f a (htable ▸ hfa)
      have ha₁ := hall a c m hc hlt ha
      have hne : record.parentDir.countWith a c ≠ 0 := by
        rw [Dir.countWith] at ha₁ ⊢
        split_ifs at ha₁ ⊢ with hdir
        · intro hzero
          refine hov ⟨hflags, n, record, t, hf, Or.inl ⟨⟨f, ?_⟩, ?_⟩⟩
          · rw [hfa, hdir.2]
          · rw [hdir.2, ha₁.count, hzero]
        · exact hc
      have hlt' : record.parentDir.countWith a c < 2 ^ 32 := by
        rw [Dir.countWith]
        split_ifs
        · exact Nat.mod_lt _ (by omega)
        · exact hlt
      obtain ⟨c', hc', hlt', ha₂⟩ := hheld _ _ _ hne hlt' ha₁
      exact ⟨c', m, hc', hlt', ha₂, by rw [htable]; exact hpos⟩
    · exact ⟨c, m, hc, hlt, ha, hpos ▸ Nat.zero_le m⟩

/-- **`sys_write`.** -/
theorem Fs.InFile.of_sysWrite {fd : ℤ} {buf : Bytes.Image} {count : ℕ} {r : Option ℕ} (hs : s.InFile)
    (hrew : count = 0 → 0 ≤ fd → fd ≠ 1 → ∀ a,
      (s.fileTable (s.cur.fdTable fd.toNat).toNat).Writes a → ¬s.Rewinds E a)
    (hret : Returns (sysWrite E fd buf count) s r s') : s'.InFile := by
  rcases returns_ite.mp hret with ⟨-, hret⟩ | ⟨hfd, hret⟩
  · obtain ⟨-, rfl⟩ := returns_pure.mp hret
    exact hs
  · rcases returns_ite.mp hret with ⟨-, hret⟩ | ⟨hfd1, hret⟩
    · obtain ⟨-, hret⟩ := returns_check_bind.mp hret
      obtain ⟨-, hret⟩ := returns_check_bind.mp hret
      obtain ⟨-, rfl⟩ := returns_pure.mp hret
      exact hs
    · obtain ⟨g, t, h1, hfile⟩ := returns_bind.mp hret
      obtain ⟨hg, rfl⟩ := fdLocal2global_same h1
      rw [returns_get_bind] at hfile
      rcases returns_ite.mp hfile with ⟨hflags, hwrite⟩ | ⟨-, hwrite⟩
      · obtain ⟨a, t₁, h2, -⟩ := returns_bind.mp hwrite
        obtain ⟨hga, -⟩ := returns_fdInodeOf.mp h2
        rcases fileWrite_cases hga hwrite with ⟨hsame, -⟩ | ⟨happ, hempty⟩
        · exact hs.of_held hsame.table hsame.held
        · intro f b hf
          obtain ⟨c, n, hc, hlt, ha, -⟩ := hs g a hga
          by_cases hfg : f = g
          · rw [hfg, happ.inode, hga] at hf
            obtain rfl := Option.some.inj hf
            refine ⟨c, n + count, hc, hlt, happ.held c n ha, ?_⟩
            have hne : count = 0 → n ≠ 0 := fun hcount hzero ↦
              hrew hcount (not_lt.mp hfd) hfd1 a (hg ▸ ⟨hflags, hga⟩)
                (hempty (ha.size.trans hzero))
            rw [hfg, happ.pos, ha.size]
            omega
          · rw [happ.table f hfg] at hf ⊢
            obtain ⟨c', n', hc', hlt', hb, hpos⟩ := hs f b hf
            by_cases hba : b = a
            · subst hba
              exact ⟨c', n' + count, hc', hlt', happ.held c' n' hb, by omega⟩
            · exact ⟨c', n', hc', hlt', happ.others b c' n' hba hb, hpos⟩
      · obtain ⟨-, rfl⟩ := returns_pure.mp hwrite
        exact hs

/-- A write of no bytes to an empty file leaves the position behind its end. -/
theorem Fs.InFile.not_positions_of_sysWrite {fd : ℤ} {buf : Bytes.Image} {r : Option ℕ}
    (hs : s.InFile) (hfd : 0 ≤ fd) (hfd1 : fd ≠ 1)
    (hw : (s.fileTable (s.cur.fdTable fd.toNat).toNat).Writes a) (hrew : s.Rewinds E a)
    (hret : Returns (sysWrite E fd buf 0) s r s') : ¬s'.Positions := by
  rcases returns_ite.mp hret with ⟨hneg, -⟩ | ⟨-, hret⟩
  · exact absurd hfd (not_le.mpr hneg)
  · rcases returns_ite.mp hret with ⟨hone, -⟩ | ⟨-, hret⟩
    · exact absurd hone hfd1
    · obtain ⟨g, t, h1, hfile⟩ := returns_bind.mp hret
      obtain ⟨hg, rfl⟩ := fdLocal2global_same h1
      rw [← hg] at hw
      rw [returns_get_bind] at hfile
      rcases returns_ite.mp hfile with ⟨-, hwrite⟩ | ⟨hno, -⟩
      · obtain ⟨c, n, -, -, ha, -⟩ := hs g a hw.2
        rcases fileWrite_cases hw.2 hwrite with ⟨-, hnot⟩ | ⟨happ, -⟩
        · exact absurd hrew (hnot rfl)
        · intro hpos
          have hle := hpos g a (happ.inode.trans hw.2)
          rw [happ.pos, hrew.1, (happ.held c n ha).size, ← ha.size, hrew.1] at hle
          omega
      · exact absurd hw.1 hno

/-- **`sys_read`.** -/
theorem Fs.InFile.of_sysRead {kb : Bytes.Image} {fd : ℤ} {count : ℕ} {r : Option (ℕ × Bytes.Image)}
    (hs : s.InFile) (hret : Returns (sysRead E kb fd count) s r s') : s'.InFile := by
  rcases returns_ite.mp hret with ⟨-, hret⟩ | ⟨-, hret⟩
  · obtain ⟨-, rfl⟩ := returns_pure.mp hret
    exact hs
  · rcases returns_ite.mp hret with ⟨-, hret⟩ | ⟨-, hret⟩
    · obtain ⟨-, rfl⟩ := returns_pure.mp hret
      exact hs
    · obtain ⟨g, t, h1, hfile⟩ := returns_bind.mp hret
      obtain ⟨-, rfl⟩ := fdLocal2global_same h1
      obtain ⟨a, t₁, h2, -⟩ := returns_bind.mp hfile
      obtain ⟨hga, -⟩ := returns_fdInodeOf.mp h2
      obtain ⟨hheld, p, hp, htable⟩ := fileRead_positions hga (hs.positions g a hga) hfile
      exact hs.of_update hga hp htable hheld

theorem Sought.refs {p : ℕ} (h : Sought s s' f p) : SameRefs s s' := by
  refine ⟨h.heap, h.stale, h.tags, fun g ↦ ?_, fun g ↦ ?_⟩ <;> rw [h.table] <;> by_cases hg : g = f
  · rw [hg, Function.update_self]
  · rw [Function.update_of_ne hg]
  · rw [hg, Function.update_self]
  · rw [Function.update_of_ne hg]

/-- `file_read` opens nothing. -/
theorem Shared.fileRead {B : List ℕ} {count : ℕ} {r : Option (ℕ × Bytes.Image)} {p : ℕ → Prop}
    (h : Shared p s xs B) (hE : E.KeepsStale) (hret : Returns (fileRead E f count) s r s') :
    Shared p s' xs B := by
  obtain ⟨a, t, h1, htail⟩ := returns_bind.mp hret
  obtain ⟨-, rfl⟩ := returns_fdInodeOf.mp h1
  obtain ⟨ino, t₁, h2, htail₁⟩ := returns_bind.mp htail
  obtain ⟨-, rfl, rfl⟩ := returns_inodeAt.mp h2
  rw [returns_get_bind] at htail₁
  rcases returns_ite.mp htail₁ with ⟨-, hret⟩ | ⟨-, hret⟩
  · obtain ⟨-, rfl⟩ := returns_pure.mp hret
    exact h
  · obtain ⟨ioBuf, t₂, h3, hret⟩ := returns_bind.mp hret
    have h₂ := h.sysMalloc hE (by decide) h3
    cases ioBuf with
    | none =>
      obtain ⟨-, rfl⟩ := returns_pure.mp hret
      exact h₂
    | some ioBuf =>
      obtain ⟨all, t₃, h4, hret⟩ := returns_bind.mp hret
      have h₃ := h₂.sysMalloc hE (by decide) h4
      cases all with
      | none =>
        obtain ⟨-, rfl⟩ := returns_pure.mp hret
        exact Shared.weaken (C := [ioBuf]) h₃
      | some all =>
        obtain ⟨r', t₄, h5, hret⟩ := returns_bind.mp hret
        obtain ⟨u, t₅, h6, hret⟩ := returns_bind.mp hret
        obtain ⟨u', t₆, h7, hret⟩ := returns_bind.mp hret
        obtain ⟨-, rfl⟩ := returns_pure.mp hret
        exact ((h₃.congrRefs (fileReadIn_sought h5).1.refs).sysFree h6).sysFree h7

theorem Shared.sysRead {B : List ℕ} {kb : Bytes.Image} {fd : ℤ} {count : ℕ} {p : ℕ → Prop}
    {r : Option (ℕ × Bytes.Image)} (h : Shared p s xs B) (hE : E.KeepsStale)
    (hret : Returns (sysRead E kb fd count) s r s') : Shared p s' xs B := by
  rcases returns_ite.mp hret with ⟨-, hret⟩ | ⟨-, hret⟩
  · obtain ⟨-, rfl⟩ := returns_pure.mp hret
    exact h
  · rcases returns_ite.mp hret with ⟨-, hret⟩ | ⟨-, hret⟩
    · obtain ⟨-, rfl⟩ := returns_pure.mp hret
      exact h
    · obtain ⟨g, t, h1, hfile⟩ := returns_bind.mp hret
      obtain ⟨-, rfl⟩ := fdLocal2global_same h1
      exact h.fileRead hE hfile

end Calls

/-! ## Any run -/

section Runs

variable {E : Env} {s s' : Fs} {c : PositionCall} {xs : List ℕ}

/-- **One call.** -/
theorem PositionCall.Runs.inFile (h : c.Runs E s s') (hE : E.KeepsStale)
    (hs : Shared (fun _ ↦ True) s xs []) (hin : s.InFile) (hrew : ¬c.Rewinds E s)
    (hov : ¬c.Overflows E s) : (∃ ys, Shared (fun _ ↦ True) s' ys []) ∧ s'.InFile := by
  have hs' := fun pid ↦ hs.run pid
  have hin' : ∀ pid, (s.run pid).InFile := fun pid ↦ hin.of_held rfl fun _ _ _ ha ↦
    ⟨ha.live, ha.count, ha.size⟩
  cases c with
  | sysOpen pid pathname flags =>
    obtain ⟨r, h⟩ := h
    exact ⟨((hs' pid).sysOpen hE (fun _ _ ↦ trivial) (by simp) h).1,
      (hs' pid).sysOpen_inFile hE (hin' pid) hov h⟩
  | sysRead pid kb fd count =>
    obtain ⟨r, h⟩ := h
    exact ⟨⟨xs, (hs' pid).sysRead hE h⟩, (hin' pid).of_sysRead h⟩
  | sysWrite pid fd buf count =>
    obtain ⟨r, h⟩ := h
    refine ⟨⟨xs, ((hs' pid).sysWrite hE h).1⟩, (hin' pid).of_sysWrite ?_ h⟩
    exact fun hcount hfd hfd1 a hw ha ↦ hrew ⟨hcount, hfd, hfd1, a, hw, ha⟩
  | sysLseek pid fd offset whence =>
    obtain ⟨r, h⟩ := h
    rcases sysLseek_cases h with ⟨-, rfl⟩ | ⟨g, b, p, hg, hp, -, hsought⟩
    · exact ⟨⟨xs, hs' pid⟩, hin' pid⟩
    · exact ⟨⟨xs, (hs' pid).congrRefs hsought.refs⟩,
        (hin' pid).of_update hg hp hsought.table fun _ _ _ ha ↦ hsought.held ha⟩

/-- A write of no bytes to an empty file breaks it. -/
theorem PositionCall.Runs.not_positions (h : c.Runs E s s') (hin : s.InFile)
    (hrew : c.Rewinds E s) : ¬s'.Positions := by
  cases c with
  | sysWrite pid fd buf count =>
    obtain ⟨r, h⟩ := h
    obtain ⟨rfl, hfd, hfd1, a, hw, ha⟩ := hrew
    have hin' : (s.run pid).InFile := hin.of_held rfl fun _ _ _ ha ↦ ⟨ha.live, ha.count, ha.size⟩
    exact hin'.not_positions_of_sysWrite hfd hfd1 hw ha h
  | sysOpen | sysRead | sysLseek => exact hrew.elim

/-- **Positions in files.** Take a run from a partition that was just mounted, with a heap that never
hands out a block that `inode_close` left linked, in which no open count runs over. In every state the
position of every open entry is at most the size of its file, and a `sys_lseek` that fails leaves
`file_table`, if and only if no call writes no bytes to an empty file. -/
theorem positions_iff (hE : E.KeepsStale) {σ : ℕ → Fs} {c : ℕ → PositionCall} {n : ℕ}
    (h0 : (σ 0).FreshlyMounted) (hrun : ∀ i < n, (c i).Runs E (σ i) (σ (i + 1)))
    (hov : ∀ i < n, ¬(c i).Overflows E (σ i)) :
    ((∀ i ≤ n, (σ i).Positions) ∧ ∀ i < n, ∀ pid fd offset whence,
        Returns (sysLseek fd offset whence) ((σ i).run pid) none (σ (i + 1)) →
          (σ (i + 1)).fileTable = (σ i).fileTable) ↔
      ∀ i < n, ¬(c i).Rewinds E (σ i) := by
  have hstart : (∃ xs, Shared (fun _ ↦ True) (σ 0) xs []) ∧ (σ 0).InFile := by
    refine ⟨⟨_, .of_freshlyMounted h0 fun _ _ ↦ trivial⟩, fun f a hf ↦ ?_⟩
    cases (h0.files f).symm.trans hf
  -- as long as no call rewinds
  have hreach : ∀ m ≤ n, (∀ i < m, ¬(c i).Rewinds E (σ i)) →
      (∃ xs, Shared (fun _ ↦ True) (σ m) xs []) ∧ (σ m).InFile := by
    intro m hm hc
    induction m with
    | zero => exact hstart
    | succ m ih =>
      obtain ⟨⟨xs, hs⟩, hin⟩ := ih (by omega) fun i hi ↦ hc i (by omega)
      exact (hrun m (by omega)).inFile hE hs hin (hc m (by omega)) (hov m (by omega))
  constructor
  · rintro ⟨hpos, -⟩ i
    induction i using Nat.strong_induction_on with
    | _ i ih =>
      intro hi hrew
      have hin := (hreach i hi.le fun j hj ↦ ih j hj (by omega)).2
      exact (hrun i hi).not_positions hin hrew (hpos (i + 1) hi)
  · intro hc
    refine ⟨fun i hi ↦ (hreach i hi fun j hj ↦ hc j (by omega)).2.positions, ?_⟩
    intro i hi pid fd offset whence hret
    rcases sysLseek_cases hret with ⟨-, hsame⟩ | ⟨-, -, p, -, -, hnone, -⟩
    · rw [hsame]
      rfl
    · cases hnone

end Runs

/-! ## A write of no bytes -/

/-- The inode, the position and the size of the file of an entry of `file_table`. -/
def Fs.place (s : Fs) (f : ℕ) : Option ℕ × ℕ × ℕ :=
  ((s.fileTable f).fdInode, (s.fileTable f).fdPos, (s.inode ((s.fileTable f).fdInode.getD 0)).iSize)

/-- After `filesys_init`, process 1 creates a file and writes no bytes to it. -/
def writeNothing (E : Env) : FsM (Option ℕ × ℕ × ℕ) := do
  filesysInit E
  modify fun s ↦ s.run 1
  let _ ← sysOpen E [slash, 97] (oCreat + oRdwr)
  modify fun s ↦ s.run 1
  let _ ← sysWrite E 3 (fun _ ↦ 0) 0
  let s ← get
  pure (s.place 3)

/-- The calls of this run. -/
def writeNothingCalls (i : ℕ) : PositionCall :=
  if i = 0 then .sysOpen 1 [slash, 97] (oCreat + oRdwr) else .sysWrite 1 3 (fun _ ↦ 0) 0

theorem exists_writeNothing : ∃ σ : ℕ → Fs, (σ 0).FreshlyMounted ∧
    (∀ i < 2, (writeNothingCalls i).Runs (Env.firstFree samplePartition) (σ i) (σ (i + 1))) ∧
    (∀ i < 2, ¬(writeNothingCalls i).Overflows (Env.firstFree samplePartition) (σ i)) ∧
    (σ 2).place 3 = (some 134516736, 4294967295, 0) := by
  obtain ⟨s₂, h⟩ : ∃ s, Returns (writeNothing (Env.firstFree samplePartition)) Fs.boot
      (some 134516736, 4294967295, 0) s := exists_returns (by decide +kernel)
  obtain ⟨u, s₀, h0, h⟩ := returns_bind.mp h
  rw [returns_modify_bind] at h
  obtain ⟨fd, s₁, h1, h⟩ := returns_bind.mp h
  rw [returns_modify_bind] at h
  obtain ⟨r, s₂', h2, h⟩ := returns_bind.mp h
  rw [returns_get_bind, returns_pure] at h
  obtain ⟨heq, rfl⟩ := h
  refine ⟨fun i ↦ if i = 0 then s₀ else if i = 1 then s₁ else s₂, freshlyMounted_of_init h0,
    fun i hi ↦ ?_, fun i hi ↦ ?_, heq.symm⟩
  · rcases (by omega : i = 0 ∨ i = 1) with rfl | rfl
    · exact ⟨fd, h1⟩
    · exact ⟨r, h2⟩
  · rcases (by omega : i = 0 ∨ i = 1) with rfl | rfl
    · -- the call creates the file
      rintro ⟨hflags, -⟩
      exact absurd hflags (by decide)
    · exact id

theorem positions_iff_writeNothing : ∃ σ : ℕ → Fs,
    (∀ i < 2, (writeNothingCalls i).Runs (Env.firstFree samplePartition) (σ i) (σ (i + 1))) ∧
      (((∀ i ≤ 2, (σ i).Positions) ∧ ∀ i < 2, ∀ pid fd offset whence,
          Returns (sysLseek fd offset whence) ((σ i).run pid) none (σ (i + 1)) →
            (σ (i + 1)).fileTable = (σ i).fileTable) ↔
        ∀ i < 2, ¬(writeNothingCalls i).Rewinds (Env.firstFree samplePartition) (σ i)) := by
  obtain ⟨σ, h0, hrun, hov, -⟩ := exists_writeNothing
  exact ⟨σ, hrun, positions_iff (Env.firstFree_keepsStale samplePartition) h0 hrun hov⟩

/-- The position is behind the end of the file then. -/
theorem writeNothing_not_positions : (Env.firstFree samplePartition).KeepsStale ∧
    ∃ σ : ℕ → Fs, (σ 0).FreshlyMounted ∧
      (∀ i < 2, (writeNothingCalls i).Runs (Env.firstFree samplePartition) (σ i) (σ (i + 1))) ∧
      ¬(σ 2).Positions := by
  obtain ⟨σ, h0, hrun, -, hplace⟩ := exists_writeNothing
  refine ⟨Env.firstFree_keepsStale samplePartition, σ, h0, hrun, fun hpos ↦ ?_⟩
  obtain ⟨hinode, hrest⟩ := Prod.mk.inj hplace
  obtain ⟨hfd, hsize⟩ := Prod.mk.inj hrest
  have hle := hpos 3 _ hinode
  rw [hinode, Option.getD_some] at hsize
  rw [hfd, hsize] at hle
  omega

end GlowOS
