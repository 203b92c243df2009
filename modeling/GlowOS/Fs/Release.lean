import Mathlib
import GlowOS.Fs.Lookup
import GlowOS.Fs.WriteThrough

/-!
# Releasing an inode

`inode_release` opens the inode, gives back the indirect table and then every block it collected, and
last the number of the inode, whose slot it clears. `Cleared` says what giving back does: the bits of
a set are cleared in one bitmap, in memory and on the disk, and nothing else changes. It composes, so
that the loop over the blocks is an induction.
-/

namespace GlowOS

open Bytes Program

/-! ## Clearing bits -/

/-- The bits of `B` are cleared in the bitmap `τ`, in memory and on the disk. -/
structure Cleared (E : Env) (τ : BitmapType) (B : Set ℕ) (s s' : Fs) : Prop where
  bit : ∀ i, (s'.bitmap τ).bit i = true ↔ (s.bitmap τ).bit i = true ∧ i ∉ B
  len : (s'.bitmap τ).btmpBytesLen = (s.bitmap τ).btmpBytesLen
  sync : s.InSyncAt E τ → s'.InSyncAt E τ
  disk : ∀ o, (o < 512 * bitmapLba E τ ∨ 512 * bitmapLba E τ + (s.bitmap τ).btmpBytesLen ≤ o) →
    s'.disk o = s.disk o
  rest : s' = { s.setBitmap (s'.bitmap τ) τ with disk := s'.disk }

namespace Cleared

variable {E : Env} {τ τ' : BitmapType} {B B' : Set ℕ} {s s' t : Fs}

theorem refl (s : Fs) : Cleared E τ ∅ s s :=
  ⟨fun i ↦ by simp, rfl, id, fun _ _ ↦ rfl, by cases τ <;> rfl⟩

theorem trans (h : Cleared E τ B s t) (h' : Cleared E τ B' t s') : Cleared E τ (B ∪ B') s s' where
  bit i := by
    rw [h'.bit, h.bit, Set.mem_union, not_or, and_assoc]
  len := h'.len.trans h.len
  sync hs := h'.sync (h.sync hs)
  disk o ho := by
    rw [h'.disk o (by rwa [h.len]), h.disk o ho]
  rest := by
    rw [h'.rest, h.rest]
    cases τ <;> rfl

theorem heap (h : Cleared E τ B s s') : s'.heap = s.heap := by
  rw [h.rest]
  cases τ <;> rfl

theorem stale (h : Cleared E τ B s s') : s'.stale = s.stale := by
  rw [h.rest]
  cases τ <;> rfl

theorem tick (h : Cleared E τ B s s') : s'.tick = s.tick := by
  rw [h.rest]
  cases τ <;> rfl

theorem inode (h : Cleared E τ B s s') : s'.inode = s.inode := by
  rw [h.rest]
  cases τ <;> rfl

theorem cur (h : Cleared E τ B s s') : s'.cur = s.cur := by
  rw [h.rest]
  cases τ <;> rfl

theorem other (h : Cleared E τ B s s') (hne : τ' ≠ τ) : s'.bitmap τ' = s.bitmap τ' := by
  rw [h.rest]
  exact setBitmap_bitmap_of_ne (s := s) _ hne

theorem mounted (h : Cleared E τ B s s') (hm : s.Mounted E) : s'.Mounted E := by
  have hlen : ∀ τ', (s'.bitmap τ').btmpBytesLen = (s.bitmap τ').btmpBytesLen := by
    intro τ'
    by_cases hne : τ' = τ
    · rw [hne]
      exact h.len
    · rw [h.other hne]
  exact ⟨hm.part, (hlen .blockBitmap).trans hm.blockLen, (hlen .inodeBitmap).trans hm.inodeLen⟩

/-- The other bitmap stays in sync. -/
theorem sync_other (h : Cleared E τ B s s') (hm : s.Mounted E) (hne : τ' ≠ τ)
    (hs : s.InSyncAt E τ') : s'.InSyncAt E τ' := by
  have hapart := hm.bitmap_apart (E := E) hne
  refine SameView.inSyncAt ⟨h.other hne, fun k hk ↦ h.disk _ ?_⟩ hs
  omega

end Cleared

section Steps

variable {E : Env} {s : Fs}

/-- The bytes of a bitmap fill whole sectors. -/
theorem Fs.Mounted.bitmap_room (hm : s.Mounted E) {τ : BitmapType} {i : ℕ}
    (hi : i / 8 < (s.bitmap τ).btmpBytesLen) :
    512 ≤ (s.bitmap τ).btmpBytesLen - i / 4096 * 512 := by
  have h1 := hm.blockLen
  have h2 := hm.inodeLen
  cases τ with
  | inodeBitmap =>
    change i / 8 < s.inodeBitmap.btmpBytesLen at hi
    change 512 ≤ s.inodeBitmap.btmpBytesLen - _
    omega
  | blockBitmap =>
    change i / 8 < s.blockBitmap.btmpBytesLen at hi
    change 512 ≤ s.blockBitmap.btmpBytesLen - _
    omega

/-- **One bit** is cleared and its sector written. -/
theorem exists_cleared (hm : s.Mounted E) {τ : BitmapType} {i : ℕ}
    (hi : i / 8 < (s.bitmap τ).btmpBytesLen) :
    ∃ s', Returns (do bitmapSet τ i false; bitmapSync E i τ) s PUnit.unit s' ∧
      Cleared E τ {i} s s' := by
  set t := s.setBitmap ((s.bitmap τ).set i false) τ with ht
  have htb : t.bitmap τ = (s.bitmap τ).set i false := setBitmap_bitmap_self _
  have hroom := hm.bitmap_room hi
  obtain ⟨hlow, hhigh⟩ := hm.bitmap_range τ
  have hsb : (t.syncedBitmap E i τ).bitmap τ = t.bitmap τ := by cases τ <;> rfl
  refine ⟨t.syncedBitmap E i τ, returns_bind.mpr ⟨PUnit.unit, t,
    returns_bitmapSet.mpr ⟨hi, rfl⟩, returns_bitmapSync.mpr ⟨?_, ?_, rfl⟩⟩, ?_⟩
  · have h1 := hm.part.dataStartLba_le_maxLba
    have h2 := hm.part.dataStartLba_eq
    omega
  · rw [htb]
    exact hroom
  · refine ⟨fun j ↦ ?_, ?_, fun hs ↦ ?_, fun o ho ↦ ?_, ?_⟩
    · rw [hsb, htb, Bitmap.bit_set, Set.mem_singleton_iff]
      split_ifs with hji <;> simp [hji]
    · rw [hsb, htb]
      rfl
    · exact inSyncAt_written hs (setBitmap_disk ..) htb
    · rw [Fs.syncedBitmap_disk, splice_of_disjoint (by omega), ht, setBitmap_disk]
    · rw [hsb, htb]
      cases τ <;> rfl

/-- A block of the data area other than block 0. -/
def Partition.DataBlock (p : Partition) (lba : ℕ) : Prop :=
  p.sb.dataStartLba < lba ∧ lba < p.sb.dataStartLba + blockBitmapBitLen p.secCnt

/-- The bits of the data area fit into the sectors of the bitmap, and the data area into the
partition. -/
theorem Partition.Formatted.bitLen_le {p : Partition} (h : p.Formatted) :
    blockBitmapBitLen p.secCnt ≤ 4096 * p.sb.blockBitmapSects ∧
      p.sb.dataStartLba + blockBitmapBitLen p.secCnt ≤ maxLba + 1 := by
  have hbits : p.sb.blockBitmapSects = divRoundUp (blockBitmapBitLen p.secCnt) 4096 := by
    rw [h.sb]
    rfl
  have hroom := h.room
  have hdisk := h.onDisk
  rw [h.dataStartLba_eq, h.inodeTableLba_eq, h.inodeBitmapLba_eq, hbits]
  rw [usedSects_eq] at hroom
  rw [blockBitmapBitLen, usedSects_eq]
  simp only [divRoundUp]
  omega

theorem Partition.DataBlock.le_maxLba {p : Partition} {lba : ℕ} (h : p.DataBlock lba)
    (hp : p.Formatted) : lba ≤ maxLba := by
  have := hp.bitLen_le.2
  have := h.2
  omega

/-- A block behind block 0 of the data area that has a bit in the bitmap. -/
def Fs.Releasable (E : Env) (s : Fs) (lba : ℕ) : Prop :=
  E.part.sb.dataStartLba < lba ∧ lba < E.part.sb.dataStartLba + 8 * s.blockBitmap.btmpBytesLen

theorem Partition.DataBlock.releasable {lba : ℕ} (h : E.part.DataBlock lba) (hm : s.Mounted E) :
    s.Releasable E lba := by
  have h1 := hm.part.bitLen_le.1
  have h2 := hm.blockLen
  exact ⟨h.1, h.2.trans_le (by omega)⟩

/-- The bit of a block of the data area. -/
theorem Fs.Releasable.idx (hm : s.Mounted E) {lba : ℕ} (h : s.Releasable E lba) :
    blockBitmapIdx E lba = lba - E.part.sb.dataStartLba := by
  obtain ⟨h1, h2⟩ := h
  obtain ⟨i, rfl⟩ := Nat.exists_eq_add_of_lt h1
  have hlt := hm.bit_lt (i := i + 1) (by omega)
  rw [Nat.add_assoc, blockBitmapIdx_add hlt]
  omega

/-- **The loop over the blocks** clears the bits of all that are there. -/
theorem exists_releaseBlocks {blocks : ℕ → ℕ} {left k : ℕ} (hm : s.Mounted E)
    (hrel : ∀ p, k ≤ p → p < k + left → blocks p ≠ 0 → s.Releasable E (blocks p)) :
    ∃ s', Returns (releaseBlocks E blocks left k) s PUnit.unit s' ∧
      Cleared E .blockBitmap {i | ∃ p, k ≤ p ∧ p < k + left ∧ blocks p ≠ 0 ∧
        blocks p = E.part.sb.dataStartLba + i} s s' := by
  induction left generalizing s k with
  | zero =>
    refine ⟨s, returns_pure.mpr ⟨rfl, rfl⟩, ?_⟩
    have hempty : {i | ∃ p, k ≤ p ∧ p < k + 0 ∧ blocks p ≠ 0 ∧
        blocks p = E.part.sb.dataStartLba + i} = ∅ := by
      refine Set.eq_empty_of_forall_notMem fun i hi ↦ ?_
      obtain ⟨p, h1, h2, -⟩ := hi
      omega
    rw [hempty]
    exact .refl s
  | succ left ih =>
    by_cases h0 : blocks k = 0
    · obtain ⟨s', h1, hcl⟩ := ih (k := k + 1) hm fun p hp hp' ↦ hrel p (by omega) (by omega)
      refine ⟨s', returns_ite.mpr (Or.inr ⟨not_not.mpr h0, h1⟩), ?_⟩
      · convert hcl using 1
        ext i
        constructor
        · rintro ⟨p, h1, h2, h3, h4⟩
          have hpk : p ≠ k := fun heq ↦ h3 (heq ▸ h0)
          exact ⟨p, by omega, by omega, h3, h4⟩
        · rintro ⟨p, h1, h2, h3, h4⟩
          exact ⟨p, by omega, by omega, h3, h4⟩
    · have hk := hrel k (le_refl k) (by omega) h0
      have hidx := hk.idx hm
      obtain ⟨hk1, hk2⟩ := hk
      obtain ⟨t, h1, hcl⟩ := exists_cleared hm (τ := .blockBitmap) (i := blockBitmapIdx E (blocks k))
        (show _ < s.blockBitmap.btmpBytesLen by omega)
      have hlen : t.blockBitmap.btmpBytesLen = s.blockBitmap.btmpBytesLen := hcl.len
      obtain ⟨s', h2, hcl'⟩ := ih (s := t) (k := k + 1) (hcl.mounted hm) fun p hp hp' hne ↦ by
        obtain ⟨h3, h4⟩ := hrel p (by omega) (by omega) hne
        exact ⟨h3, by rwa [hlen]⟩
      refine ⟨s', returns_ite.mpr (Or.inl ⟨h0, returns_check_bind.mpr ⟨by omega, ?_⟩⟩), ?_⟩
      · exact returns_bind.mpr ⟨PUnit.unit, t, h1, h2⟩
      · convert hcl.trans hcl' using 1
        ext i
        constructor
        · rintro ⟨p, h3, h4, h5, h6⟩
          by_cases hpk : p = k
          · exact Or.inl (by rw [Set.mem_singleton_iff, hidx, ← hpk, h6]; omega)
          · exact Or.inr ⟨p, by omega, by omega, h5, h6⟩
        · rintro (hi | ⟨p, h3, h4, h5, h6⟩)
          · rw [Set.mem_singleton_iff, hidx] at hi
            exact ⟨k, le_refl k, by omega, h0, by omega⟩
          · exact ⟨p, by omega, by omega, h5, h6⟩

end Steps

/-! ## Opening and closing -/

/-- The next `n` requests to the heap are answered. -/
def Env.Answers (E : Env) (s : Fs) (n : ℕ) : Prop :=
  ∀ t : Fs, s.Grown t → t.tick < s.tick + n → ∀ k size, ∃ a,
    E.malloc t.tick t.heap t.stale k size = some a

theorem Env.Serves.answers {E : Env} {s : Fs} {n : ℕ} (h : E.Serves s n) : E.Answers s n := by
  intro t ht hlt k size
  obtain ⟨a, ha, -⟩ := h t ht hlt k size
  exact ⟨a, ha⟩

/-- The list of the inodes in memory is sound, and each of them has an opener. -/
structure Fs.Cached (s : Fs) (xs : List ℕ) : Prop where
  inv : CacheInv s xs
  len : xs.length < walkFuel
  counts : ∀ a ∈ xs, s.heap a = some Blk.inode →
    (s.inode a).iOpenCnts ≠ 0 ∧ (s.inode a).iOpenCnts < 2 ^ 32

/-- The block `a` holds the inode `ino`, which can be closed again. -/
structure Fs.OpenedInode (E : Env) (s t : Fs) (ino : Inode) (a : ℕ) : Prop where
  live : t.heap a = some Blk.inode
  same : (t.inode a).Same ino
  closable : ((t.inode a).iOpenCnts + 2 ^ 32 - 1) % 2 ^ 32 = 0 → kHeapStart ≤ a
  disk : t.disk = s.disk
  bitmap : ∀ τ, t.bitmap τ = s.bitmap τ
  pgdir : t.cur.pgdir = s.cur.pgdir
  grown : s.Grown t
  tick : t.tick ≤ s.tick + 3

section Open

variable {E : Env} {s : Fs} {xs : List ℕ} {n : ℕ}

/-- `inode_open`, from the cache or from the disk. -/
theorem exists_openInode (hp : E.part.Formatted) (hc : s.Cached xs) (hans : E.Answers s 4)
    (hn : n < 4096) :
    ∃ a t, Returns (inodeOpen E n) s a t ∧ s.OpenedInode E t (s.current E n) a := by
  have hfind := findOpen_of_inv hc.inv hc.len n
  cases hf : xs.find? fun a ↦ (s.inode a).iNo == n with
  | some a =>
    rw [hf] at hfind
    obtain ⟨ha, hlive, hno⟩ := hc.inv.findOpen_some (Or.inl (by rw [userVaddrStart]; omega)) hfind
    obtain ⟨hpos, hlt⟩ := hc.counts a ha hlive
    have hino : (s.setOpenCnts a (((s.inode a).iOpenCnts + 1) % 2 ^ 32)).inode a =
        { s.inode a with iOpenCnts := ((s.inode a).iOpenCnts + 1) % 2 ^ 32 } :=
      Function.update_self ..
    refine ⟨a, _, returns_inodeOpen.mpr (Or.inl ⟨hfind, rfl⟩), hlive, ?_, ?_, rfl,
      fun τ ↦ by cases τ <;> rfl, rfl, .congr (.refl s) rfl rfl rfl, Nat.le_add_right ..⟩
    · rw [hino, (current_of_mem hc.inv hc.len ha hlive hno hn).2]
      exact ⟨rfl, rfl, fun _ _ ↦ rfl⟩
    · rw [hino]
      dsimp only
      omega
  | none =>
    rw [hf] at hfind
    obtain ⟨a, ha⟩ := hans s (.refl s) (by omega) true 76
    have hgrown : s.Grown (s.alloc a Blk.inode) := .alloc (.refl s) a Blk.inode
    obtain ⟨b, hb⟩ := hans (s.alloc a Blk.inode) hgrown (show s.tick + 1 < _ by omega)
      (s.alloc a Blk.inode).cur.pgdir.isNone (512 * (inodePosition E n).sectors)
    have hab : a ≠ b := by
      rintro rfl
      have hfresh : (s.alloc a Blk.inode).heap a = none := E.malloc_fresh hb
      simp [Fs.alloc] at hfresh
    refine ⟨a, s.loaded E n a b, returns_inodeOpen.mpr (Or.inr ⟨hfind, returns_inodeLoad.mpr
      ⟨hn, (slotAccess_of_formatted hp hn).onDisk, ha, b, hb, rfl⟩⟩), ?_, ?_, ?_, rfl,
      fun τ ↦ by cases τ <;> rfl, rfl, ?_, Nat.le_refl _⟩
    · exact (Function.update_of_ne hab ..).trans <| (Function.update_of_ne hab ..).trans <|
        Function.update_self ..
    · rw [Fs.loaded_inode s hab, Fs.current, hfind]
      exact ⟨rfl, rfl, fun _ _ ↦ rfl⟩
    · exact fun _ ↦ (E.malloc_kernel ha).mp rfl
    · exact ((hgrown.alloc b Blk.buffer).congr rfl rfl rfl).free E b

/-- `inode_close` on a live inode. -/
theorem exists_closeInode {a : ℕ} (hlive : s.heap a = some Blk.inode)
    (hclose : ((s.inode a).iOpenCnts + 2 ^ 32 - 1) % 2 ^ 32 = 0 → kHeapStart ≤ a) :
    ∃ s', Returns (inodeClose E a) s PUnit.unit s' ∧ s'.disk = s.disk ∧
      ∀ τ, s'.bitmap τ = s.bitmap τ := by
  set c := ((s.inode a).iOpenCnts + 2 ^ 32 - 1) % 2 ^ 32 with hc
  by_cases h0 : c = 0
  · refine ⟨{ (s.setOpenCnts a c).free E a with stale := Function.update s.stale a true },
      returns_bind.mpr ⟨_, s, returns_inodeAt.mpr ⟨hlive, rfl, rfl⟩, ?_⟩, rfl,
      fun τ ↦ by cases τ <;> rfl⟩
    rw [returns_modify_bind]
    refine returns_ite.mpr (Or.inl ⟨h0, ?_⟩)
    exact returns_bind.mpr ⟨PUnit.unit, _, returns_free_kernel.mpr ⟨hclose h0, rfl⟩,
      returns_modify.mpr rfl⟩
  · refine ⟨s.setOpenCnts a c, returns_bind.mpr ⟨_, s, returns_inodeAt.mpr ⟨hlive, rfl, rfl⟩, ?_⟩,
      rfl, fun τ ↦ by cases τ <;> rfl⟩
    rw [returns_modify_bind]
    exact returns_ite.mpr (Or.inr ⟨h0, returns_pure.mpr ⟨rfl, rfl⟩⟩)

end Open

/-! ## Releasing -/

/-- What `inode_release` is expected to do with inode `n`: the bits of its blocks and of its number
are cleared, in memory and on the disk, its slot is zeroed, and nothing else on the disk changes. -/
structure Released (E : Env) (n : ℕ) (s s' : Fs) : Prop where
  block : ∀ i, s'.blockBitmap.bit i = true ↔ s.blockBitmap.bit i = true ∧
    ¬∃ p ≤ 140, (s.current E n).held s.disk p ≠ 0 ∧
      (s.current E n).held s.disk p = E.part.sb.dataStartLba + i
  inode : ∀ i, s'.inodeBitmap.bit i = true ↔ s.inodeBitmap.bit i = true ∧ i ≠ n
  mounted : s'.Mounted E
  sync : s'.InSync E
  zero : ∀ i < 76, s'.disk (slotBase E n + i) = 0
  slots : SlotsKept E n s.disk s'.disk
  disk : ∀ o, (o < 512 * E.part.sb.blockBitmapLba ∨ 512 * E.part.sb.inodeTableLba ≤ o) →
    (o < slotBase E n ∨ slotBase E n + 76 ≤ o) → s'.disk o = s.disk o

section Release

variable {E : Env} {s : Fs} {xs : List ℕ} {n : ℕ}

/-- The part of `inode_release` behind the blocks: the number is given back, the slot cleared and the
inode closed. -/
def releaseNumber (E : Env) (n a : ℕ) : FsM PUnit := do
  bitmapSet .inodeBitmap n false
  bitmapSync E n .inodeBitmap
  let ioBuf ← sysMallocUnchecked E Blk.buffer 1024
  inodeDelete E n 1024
  sysFree E ioBuf
  inodeClose E a

theorem exists_releaseNumber {t : Fs} {ino : Inode} {a : ℕ} {B : Set ℕ} {t₁ : Fs}
    (hm : t.Mounted E) (ho : s.OpenedInode E t ino a) (hcl : Cleared E .blockBitmap B t t₁)
    (hans : E.Answers s 4) (hn : n < 4096) :
    ∃ s' t₂, Returns (releaseNumber E n a) t₁ PUnit.unit s' ∧
      Cleared E .inodeBitmap {n} t₁ t₂ ∧ s'.disk = splice t₂.disk (slotBase E n) 76 (fun _ ↦ 0) ∧
      ∀ τ, s'.bitmap τ = t₂.bitmap τ := by
  have hm₁ := hcl.mounted hm
  obtain ⟨t₂, h1, hcl'⟩ := exists_cleared hm₁ (τ := .inodeBitmap) (i := n) (by
    have hlen := hm₁.inodeLen
    rw [hm.part.inodeBitmapSects_eq] at hlen
    change n / 8 < t₁.inodeBitmap.btmpBytesLen
    omega)
  have hheap : t₂.heap = t.heap := hcl'.heap.trans hcl.heap
  have hino : t₂.inode = t.inode := hcl'.inode.trans hcl.inode
  -- the buffer is another block than the inode
  obtain ⟨c, hc⟩ := hans t₂ (ho.grown.congr (hcl'.tick.trans hcl.tick) hheap
    (hcl'.stale.trans hcl.stale)) (by
      have := ho.tick
      rw [hcl'.tick, hcl.tick]
      omega) t₂.cur.pgdir.isNone 1024
  have hca : a ≠ c := by
    rintro rfl
    have hnone := E.malloc_fresh hc
    rw [hheap, ho.live] at hnone
    cases hnone
  set t₃ := ((t₂.alloc c Blk.buffer).store (slotBase E n) 76 fun _ ↦ 0).free E c with ht₃
  have hino₃ : t₃.inode a = t.inode a :=
    (Function.update_of_ne hca ..).trans <| (Function.update_of_ne hca ..).trans (congrFun hino a)
  have hlive₃ : t₃.heap a = some Blk.inode :=
    (Function.update_of_ne hca ..).trans <| (Function.update_of_ne hca ..).trans <|
      (congrFun hheap a).trans ho.live
  obtain ⟨s', h2, hdisk, hbitmap⟩ := exists_closeInode (E := E) hlive₃
    (by rw [hino₃]; exact ho.closable)
  refine ⟨s', t₂, ?_, hcl', hdisk, fun τ ↦ (hbitmap τ).trans (by cases τ <;> rfl)⟩
  obtain ⟨u, t', h3, h4⟩ := returns_bind.mp h1
  refine returns_bind.mpr ⟨u, t', h3, returns_bind.mpr ⟨_, t₂, h4, ?_⟩⟩
  refine returns_bind.mpr ⟨c, _, returns_sysMallocUnchecked.mpr ⟨hc, rfl⟩, ?_⟩
  refine returns_bind.mpr ⟨PUnit.unit, _, returns_inodeDelete.mpr
    ⟨slotAccess_of_formatted hm.part hn, rfl⟩, ?_⟩
  refine returns_bind.mpr ⟨PUnit.unit, t₃, returns_sysFree.mpr ⟨fun hnone ↦ ?_, rfl⟩, h2⟩
  exact (E.malloc_kernel hc).mp (Option.isNone_iff_eq_none.mpr hnone)

/-- **Giving back the blocks**: the table, if there is one, and everything that was collected. -/
theorem exists_releaseAll {ino : Inode} (hm : s.Mounted E)
    (hrel : ∀ p ≤ 140, ino.held s.disk p ≠ 0 → s.Releasable E (ino.held s.disk p)) :
    ∃ s₁, Cleared E .blockBitmap {i | ∃ p ≤ 140, ino.held s.disk p ≠ 0 ∧
        ino.held s.disk p = E.part.sb.dataStartLba + i} s s₁ ∧
      ∀ (m : FsM PUnit) (s' : Fs), Returns m s₁ PUnit.unit s' → Returns (do
        if ino.iSectors 12 ≠ 0 then
          ASSERT (0 < blockBitmapIdx E (ino.iSectors 12))
          freeBlock E (ino.iSectors 12)
        releaseBlocks E (ino.blocks s.disk) (if ino.iSectors 12 ≠ 0 then 140 else 12) 0
        m) s PUnit.unit s' := by
  have hblock : ∀ {t : Fs} {left : ℕ}, t.blockBitmap.btmpBytesLen = s.blockBitmap.btmpBytesLen →
      left ≤ 140 → ∀ p, 0 ≤ p → p < 0 + left → ino.blocks s.disk p ≠ 0 →
        t.Releasable E (ino.blocks s.disk p) := by
    intro t left hlen hleft p _ hp hne
    have hheld := hrel p (by omega)
    rw [Inode.held_of_lt (by omega)] at hheld
    obtain ⟨h1, h2⟩ := hheld hne
    exact ⟨h1, by rwa [hlen]⟩
  by_cases htab : ino.iSectors 12 = 0
  · obtain ⟨s₁, h1, hcl⟩ := @exists_releaseBlocks _ _ _ 12 _ hm (hblock rfl (by decide))
    refine ⟨s₁, ?_, fun m s' h ↦ ?_⟩
    · convert hcl using 1
      ext i
      constructor
      · rintro ⟨p, h2, h3, h4⟩
        by_cases hp : p < 12
        · rw [Inode.held_of_lt (by omega)] at h3 h4
          exact ⟨p, Nat.zero_le p, by omega, h3, h4⟩
        · -- without a table there is nothing behind the direct blocks
          refine absurd ?_ h3
          by_cases h140 : p = 140
          · rw [h140, Inode.held_table, htab]
          · rw [Inode.held_of_lt (by omega), Inode.blocks_of_no_table (by omega) htab]
      · rintro ⟨p, -, h2, h3, h4⟩
        rw [← Inode.held_of_lt (by omega)] at h3 h4
        exact ⟨p, by omega, h3, h4⟩
    · refine returns_ite.mpr (Or.inr ⟨not_not.mpr htab, ?_⟩)
      rw [if_neg (not_not.mpr htab)]
      exact returns_bind.mpr ⟨PUnit.unit, s₁, h1, h⟩
  · have hrelt := hrel 140 (le_refl _)
    rw [Inode.held_table] at hrelt
    have hidx := (hrelt htab).idx hm
    obtain ⟨h1, h2⟩ := hrelt htab
    obtain ⟨t, h3, hcl⟩ := exists_cleared hm (τ := .blockBitmap)
      (i := blockBitmapIdx E (ino.iSectors 12)) (show _ < s.blockBitmap.btmpBytesLen by omega)
    obtain ⟨s₁, h4, hcl'⟩ := @exists_releaseBlocks _ _ _ 140 _ (hcl.mounted hm)
      (hblock hcl.len (le_refl _))
    refine ⟨s₁, ?_, fun m s' h ↦ ?_⟩
    · convert hcl.trans hcl' using 1
      ext i
      constructor
      · rintro ⟨p, h5, h6, h7⟩
        by_cases h140 : p = 140
        · rw [h140, Inode.held_table] at h7
          exact Or.inl (by rw [Set.mem_singleton_iff, hidx, h7]; omega)
        · rw [Inode.held_of_lt (by omega)] at h6 h7
          exact Or.inr ⟨p, Nat.zero_le p, by omega, h6, h7⟩
      · rintro (hi | ⟨p, -, h5, h6, h7⟩)
        · rw [Set.mem_singleton_iff, hidx] at hi
          refine ⟨140, le_refl _, ?_, ?_⟩ <;> rw [Inode.held_table]
          · exact htab
          · omega
        · rw [← Inode.held_of_lt (by omega)] at h6 h7
          exact ⟨p, by omega, h6, h7⟩
    · refine returns_ite.mpr (Or.inl ⟨htab, returns_check_bind.mpr ⟨by omega, ?_⟩⟩)
      rw [if_pos htab]
      exact returns_bind.mpr ⟨PUnit.unit, t, h3, returns_bind.mpr ⟨PUnit.unit, s₁, h4, h⟩⟩

theorem Inode.Same.held {i j : Inode} (h : i.Same j) (d : Image) : i.held d = j.held d := by
  funext p
  rw [Inode.held, Inode.held, h.blocks, h.2.2 12 (by decide)]

end Release

/-! ## A file with one block -/

/-- Inode 5, with block 1 of the data area. -/
def oneBlockInode : Inode := ⟨5, 512, 0, false, fun k ↦ if k = 0 then 676 else 0⟩

/-- The bitmaps in memory. -/
def oneBlockBits (v : UInt8) : Image := fun k ↦ if k = 0 then v else 0

/-- A disk with inodes 0 and 5 and blocks 0 and 1 in use. -/
def oneBlockDisk : Image :=
  splice (splice (splice (fun _ ↦ 0) (512 * 65) 512 (oneBlockBits 3)) (512 * 66) 512
    (oneBlockBits 33)) (512 * 67 + 76 * 5) 76 oneBlockInode.encode

theorem slotBase_five : slotBase (Env.firstFree samplePartition) 5 = 512 * 67 + 76 * 5 := by decide

/-- A kernel thread, with an empty cache. -/
def Fs.oneBlock : Fs :=
  { Fs.blank with
    disk := oneBlockDisk
    blockBitmap := ⟨512, oneBlockBits 3⟩
    inodeBitmap := ⟨512, oneBlockBits 33⟩ }

theorem oneBlock_disk : Fs.oneBlock.disk = oneBlockDisk := rfl

theorem oneBlock_bits (τ : BitmapType) :
    (Fs.oneBlock.bitmap τ).bits = oneBlockBits (if τ = .inodeBitmap then 33 else 3) := by
  cases τ <;> rfl

theorem oneBlock_mounted : Fs.oneBlock.Mounted (Env.firstFree samplePartition) :=
  ⟨samplePartition_formatted, by decide, by decide⟩

theorem oneBlock_inSync : Fs.oneBlock.InSync (Env.firstFree samplePartition) := by
  have hlba : ∀ τ, bitmapLba (Env.firstFree samplePartition) τ =
      if τ = .inodeBitmap then 66 else 65 := by
    intro τ
    cases τ <;> decide
  have hbyte : ∀ τ k, k < 512 → (Fs.oneBlock.diskBitmap (Env.firstFree samplePartition) τ).bits k
      = (Fs.oneBlock.bitmap τ).bits k := by
    intro τ k hk
    rw [Fs.diskBitmap, hlba, oneBlock_bits, oneBlock_disk, oneBlockDisk]
    dsimp only
    cases τ with
    | inodeBitmap =>
      rw [if_pos rfl, if_pos rfl, splice_of_disjoint (by omega), splice_add, if_pos hk]
    | blockBitmap =>
      rw [if_neg (by decide), if_neg (by decide), splice_of_disjoint (by omega),
        splice_of_disjoint (by omega), splice_add, if_pos hk]
  intro τ i hi
  have hlen : (Fs.oneBlock.bitmap τ).btmpBytesLen = 512 := by cases τ <;> rfl
  rw [hlen] at hi
  rw [Bitmap.bit, Bitmap.bit, hbyte τ _ (by omega)]

theorem oneBlock_cached : Fs.oneBlock.Cached [] where
  inv :=
    { list := Links.isList_nil (by decide) rfl rfl
      ge := fun _ ha ↦ absurd ha List.not_mem_nil
      elem := fun _ ha ↦ absurd ha List.not_mem_nil
      inj := fun _ ha ↦ absurd ha List.not_mem_nil }
  len := by decide
  counts := fun _ ha ↦ absurd ha List.not_mem_nil

theorem oneBlock_answers : (Env.firstFree samplePartition).Answers Fs.oneBlock 4 := by
  have hserve : (Env.firstFree samplePartition).Serves Fs.oneBlock walkRequests := by
    refine Env.firstFree_serves samplePartition (U := ∅) (by decide) fun a ha ↦ ?_
    rcases ha with h | h
    · exact absurd rfl h
    · cases h
  exact fun t ht hlt ↦ hserve.answers t ht (hlt.trans (Nat.add_lt_add_left (by decide) _))

theorem oneBlock_same :
    (Fs.oneBlock.current (Env.firstFree samplePartition) 5).Same oneBlockInode := by
  have hcur := (current_of_not (E := Env.firstFree samplePartition) oneBlock_cached.inv (by decide)
    (show 5 < 4096 by decide) fun a ha ↦ absurd ha List.not_mem_nil).2
  rw [oneBlock_disk] at hcur
  have hslot : slot (Env.firstFree samplePartition) oneBlockDisk 5 =
      .decode oneBlockInode.encode 0 := by
    rw [oneBlockDisk, ← slotBase_five, slot_splice_self]
  have hfits : oneBlockInode.Fits :=
    ⟨by decide, by decide, fun k _ ↦ show (if k = 0 then 676 else 0) < _ by split_ifs <;> decide⟩
  have hpure : oneBlockInode.pureInode = oneBlockInode := rfl
  have hdec := Inode.decode_encode hfits
  rw [hpure] at hdec
  rw [hcur, hslot]
  exact hdec

theorem oneBlock_data {p : ℕ} (hp : p ≤ 140)
    (h0 : (Fs.oneBlock.current (Env.firstFree samplePartition) 5).held Fs.oneBlock.disk p ≠ 0) :
    (Env.firstFree samplePartition).part.DataBlock
      ((Fs.oneBlock.current (Env.firstFree samplePartition) 5).held Fs.oneBlock.disk p) := by
  rw [oneBlock_same.held] at h0 ⊢
  have hsec : oneBlockInode.iSectors 12 = 0 := rfl
  by_cases h140 : p = 140
  · rw [h140, Inode.held_table] at h0
    exact absurd hsec h0
  · rw [Inode.held_of_lt (by omega)] at h0 ⊢
    by_cases h12 : p < 12
    · rw [Inode.blocks_of_lt h12] at h0 ⊢
      change (if p = 0 then 676 else 0) ≠ 0 at h0
      change samplePartition.DataBlock (if p = 0 then 676 else 0)
      split_ifs at h0 ⊢
      · exact ⟨by decide, by decide⟩
      · exact absurd rfl h0
    · exact absurd (Inode.blocks_of_no_table (by omega) hsec) h0

end GlowOS
