import Mathlib
import GlowOS.Fs.Frames

/-!
# The inodes that all processes share

`open_inodes` links inodes that any process may find there, and `file_table` refers to inodes that
any process may work on. Such an inode is in memory, or it is what `inode_close` left behind: a
block that was given back and stayed linked.

`Shared p s xs B` says this of a state, together with a property `p` of the addresses, and that the
blocks `B` are in use for something else: the buffers and directories of the running call. A function
is described by what it does to `xs` and `B`; what a call allocates comes in front of `B`, and what it
gives back it has to find there.

The heap must not hand out a block that is still linked. `Env.KeepsStale` asks for that.
-/

namespace GlowOS

open Program

/-- The heap never hands out a block that `inode_close` gave back. -/
def Env.KeepsStale (E : Env) : Prop :=
  ∀ t h st k n a, E.malloc t h st k n = some a → st a = false

/-- An inode in memory, or the block of one that `inode_close` gave back. -/
def Fs.Kept (s : Fs) (a : ℕ) : Prop :=
  s.heap a = some Blk.inode ∨ s.heap a = none ∧ s.stale a = true

/-- The members `xs` of `open_inodes` and the inodes of `file_table` are kept and satisfy `p`, and
the blocks `B` are in use for something else. -/
structure Shared (p : ℕ → Prop) (s : Fs) (xs B : List ℕ) : Prop where
  list : s.tags.IsList openHead openTail xs
  linked : ∀ a ∈ xs, userVaddrStart ≤ a ∧ s.Kept a ∧ p a
  opened : ∀ f a, (s.fileTable f).fdInode = some a → s.Kept a ∧ p a
  nodup : B.Nodup
  own : ∀ b ∈ B, ∃ k, s.heap b = some k ∧ k ≠ Blk.inode

/-- The heap, `open_inodes` and the inodes of `file_table` are the same. -/
structure SameBlocks (s s' : Fs) : Prop where
  heap : s'.heap = s.heap
  stale : s'.stale = s.stale
  tags : s'.tags = s.tags
  table : s'.fileTable = s.fileTable

theorem SameBlocks.refl (s : Fs) : SameBlocks s s := ⟨rfl, rfl, rfl, rfl⟩

instance : Steady SameBlocks where
  refl := SameBlocks.refl
  trans _ _ _ h h' := ⟨h'.heap.trans h.heap, h'.stale.trans h.stale, h'.tags.trans h.tags,
    h'.table.trans h.table⟩
  store _ _ _ _ := ⟨rfl, rfl, rfl, rfl⟩
  setBitmap s ty i v := by cases ty <;> exact ⟨rfl, rfl, rfl, rfl⟩
  setInode _ _ _ _ _ := ⟨rfl, rfl, rfl, rfl⟩

/-- The blocks a `struct dir` holds apart from its inode. -/
def Dir.blocks (d : Dir) : List ℕ := d.block.toList

theorem Fs.Kept.congr {s s' : Fs} {a : ℕ} (h : s.Kept a) (hheap : s'.heap a = s.heap a)
    (hst : s'.stale a = s.stale a) : s'.Kept a := by
  rwa [Fs.Kept, hheap, hst]

theorem Fs.Kept.userBlock {s : Fs} {a b : ℕ} {k : Blk} (h : s.Kept a) (hb : s.heap b = some k)
    (hk : k ≠ Blk.inode) : a ≠ b := by
  rintro rfl
  rcases h with h | ⟨h, -⟩
  · exact hk (Option.some.inj (hb.symm.trans h))
  · cases hb.symm.trans h

/-! ## The primitives -/

section Primitives

variable {E : Env} {p : ℕ → Prop} {s s' : Fs} {xs B : List ℕ}

namespace Shared

/-- A change of the heap that keeps what is kept, and the blocks in use. -/
theorem of_kept (h : Shared p s xs B) {B' : List ℕ}
    (htags : s'.tags.IsList openHead openTail xs)
    (htable : ∀ f, (s'.fileTable f).fdInode = (s.fileTable f).fdInode)
    (hkept : ∀ a, s.Kept a → s'.Kept a) (hnodup : B'.Nodup)
    (hown : ∀ b ∈ B', ∃ k, s'.heap b = some k ∧ k ≠ Blk.inode) : Shared p s' xs B' where
  list := htags
  linked a ha := ⟨(h.linked a ha).1, hkept a (h.linked a ha).2.1, (h.linked a ha).2.2⟩
  opened f a hf := by
    rw [htable] at hf
    exact ⟨hkept a (h.opened f a hf).1, (h.opened f a hf).2⟩
  nodup := hnodup
  own := hown

theorem congr (h : Shared p s xs B) (hs : SameBlocks s s') : Shared p s' xs B := by
  refine h.of_kept (hs.tags ▸ h.list) (fun f ↦ by rw [hs.table]) ?_ h.nodup ?_
  · exact fun a ha ↦ ha.congr (congrFun hs.heap a) (congrFun hs.stale a)
  · rw [hs.heap]
    exact h.own

/-- Every function that neither opens nor closes. -/
theorem within {α : Type} {m : FsM α} {r : α} (h : Shared p s xs B) (hm : Within SameBlocks m)
    (hret : Returns m s r s') : Shared p s' xs B := h.congr (hm s r s' hret)

/-- Blocks in use may be forgotten. -/
theorem weaken {C : List ℕ} (h : Shared p s xs (C ++ B)) : Shared p s xs B :=
  ⟨h.list, h.linked, h.opened, h.nodup.of_append_right,
    fun b hb ↦ h.own b (List.mem_append_right C hb)⟩

theorem perm {B' : List ℕ} (h : Shared p s xs B) (hB : B.Perm B') : Shared p s xs B' :=
  ⟨h.list, h.linked, h.opened, hB.nodup_iff.mp h.nodup, fun b hb ↦ h.own b (hB.mem_iff.mpr hb)⟩

/-- What is neither kept nor in use is new to everything. -/
theorem fresh {a : ℕ} (h : Shared p s xs B) (ha : s.heap a = none) (hst : s.stale a = false) :
    a ∉ xs ∧ (∀ f, (s.fileTable f).fdInode ≠ some a) ∧ a ∉ B := by
  have hnot : ¬s.Kept a := by
    rintro (hlive | ⟨-, hstale⟩)
    · cases ha.symm.trans hlive
    · cases hst.symm.trans hstale
  refine ⟨fun hmem ↦ hnot (h.linked a hmem).2.1, fun f hf ↦ hnot (h.opened f a hf).1, fun hmem ↦ ?_⟩
  obtain ⟨k, hk, -⟩ := h.own a hmem
  cases ha.symm.trans hk

theorem alloc {a : ℕ} (h : Shared p s xs B) (ha : s.heap a = none) (hst : s.stale a = false)
    (hge : userVaddrStart ≤ a) (k : Blk) : Shared p (s.alloc a k) xs B := by
  have hne : ∀ b, s.Kept b → b ≠ a := by
    rintro b (hlive | ⟨-, hstale⟩) rfl
    · cases ha.symm.trans hlive
    · cases hst.symm.trans hstale
  refine h.of_kept ?_ (fun _ ↦ rfl) ?_ h.nodup ?_
  · -- the links of `a` are cleared, but it is neither a sentinel nor a member
    have hsent : openHead ≠ a ∧ openTail ≠ a := by
      rw [userVaddrStart] at hge
      exact ⟨by rw [openHead]; omega, by rw [openTail]; omega⟩
    have hmem : ∀ b ∈ xs, b ≠ a := fun b hb ↦ hne b (h.linked b hb).2.1
    refine h.list.congr ?_ ?_
    · intro b hb
      rcases List.mem_cons.mp hb with rfl | hb
      · exact Function.update_of_ne hsent.1 ..
      · exact Function.update_of_ne (hmem b hb) ..
    · intro b hb
      rcases List.mem_append.mp hb with hb | hb
      · exact Function.update_of_ne (hmem b hb) ..
      · obtain rfl := List.mem_singleton.mp hb
        exact Function.update_of_ne hsent.2 ..
  · intro b hb
    have hba := hne b hb
    exact hb.congr (Function.update_of_ne hba ..) (Function.update_of_ne hba ..)
  · intro b hb
    obtain ⟨k', hk', hk⟩ := h.own b hb
    refine ⟨k', (Function.update_of_ne ?_ ..).trans hk', hk⟩
    rintro rfl
    cases ha.symm.trans hk'

/-- A block for something else than an inode comes into use. -/
theorem allocOwn {a : ℕ} {k : Blk} (h : Shared p s xs B) (ha : s.heap a = none)
    (hst : s.stale a = false) (hge : userVaddrStart ≤ a) (hk : k ≠ Blk.inode) :
    Shared p (s.alloc a k) xs (a :: B) := by
  have h' := h.alloc ha hst hge k
  refine ⟨h'.list, h'.linked, h'.opened, List.nodup_cons.mpr ⟨(h.fresh ha hst).2.2, h.nodup⟩, ?_⟩
  intro b hb
  rcases List.mem_cons.mp hb with rfl | hb
  · exact ⟨k, Function.update_self .., hk⟩
  · exact h'.own b hb

/-- A block that nothing refers to is given back. -/
theorem freeUnused {b : ℕ} (h : Shared p s xs B) (hx : b ∉ xs)
    (hf : ∀ f, (s.fileTable f).fdInode ≠ some b) (hB : b ∉ B) : Shared p (s.free E b) xs B := by
  have hkeep : ∀ a ≠ b, s.Kept a → (s.free E b).Kept a :=
    fun a hab ha ↦ ha.congr (Function.update_of_ne hab ..) rfl
  refine ⟨h.list, fun a ha ↦ ?_, fun f a hfa ↦ ?_, h.nodup, fun a ha ↦ ?_⟩
  · have hab : a ≠ b := fun heq ↦ hx (heq ▸ ha)
    exact ⟨(h.linked a ha).1, hkeep a hab (h.linked a ha).2.1, (h.linked a ha).2.2⟩
  · have hab : a ≠ b := fun heq ↦ hf f (heq ▸ hfa)
    exact ⟨hkeep a hab (h.opened f a hfa).1, (h.opened f a hfa).2⟩
  · have hab : a ≠ b := fun heq ↦ hB (heq ▸ ha)
    obtain ⟨k, hk, hne⟩ := h.own a ha
    exact ⟨k, (Function.update_of_ne hab ..).trans hk, hne⟩

/-- The first of the blocks in use is given back. -/
theorem free {b : ℕ} (h : Shared p s xs (b :: B)) : Shared p (s.free E b) xs B := by
  obtain ⟨k, hk, hne⟩ := h.own b List.mem_cons_self
  obtain ⟨hB, hnodup⟩ := List.nodup_cons.mp h.nodup
  have h' : Shared p s xs B := ⟨h.list, h.linked, h.opened, hnodup,
    fun c hc ↦ h.own c (List.mem_cons_of_mem b hc)⟩
  exact h'.freeUnused (fun hx ↦ (h.linked b hx).2.1.userBlock hk hne rfl)
    (fun f hf ↦ (h.opened f b hf).1.userBlock hk hne rfl) hB

/-- An inode is given back and stays linked. -/
theorem close {a : ℕ} (h : Shared p s xs B) (ha : s.heap a = some Blk.inode) :
    Shared p { s.free E a with stale := Function.update s.stale a true } xs B := by
  refine h.of_kept h.list (fun _ ↦ rfl) ?_ h.nodup ?_
  · intro b hb
    by_cases hba : b = a
    · subst hba
      exact Or.inr ⟨Function.update_self .., Function.update_self ..⟩
    · exact hb.congr (Function.update_of_ne hba ..) (Function.update_of_ne hba ..)
  · intro b hb
    obtain ⟨k, hk, hne⟩ := h.own b hb
    refine ⟨k, (Function.update_of_ne ?_ ..).trans hk, hne⟩
    rintro rfl
    exact hne (Option.some.inj (hk.symm.trans ha))

/-- An inode enters `open_inodes`. -/
theorem push {a : ℕ} (h : Shared p s xs B) (ha : s.heap a = some Blk.inode) (hx : a ∉ xs)
    (hge : userVaddrStart ≤ a) (hp : p a) : Shared p (s.pushOpen a) (a :: xs) B := by
  have hmem : a ∉ openHead :: openTail :: ([] ++ xs) := by
    rw [userVaddrStart] at hge
    simp only [List.nil_append, List.mem_cons, not_or]
    exact ⟨by rw [openHead]; omega, by rw [openTail]; omega, hx⟩
  have hins := Links.IsList.insertBefore (l := s.tags) (h.list : s.tags.IsList _ _ ([] ++ xs)) hmem
  refine ⟨?_, ?_, h.opened, h.nodup, h.own⟩
  · rwa [← h.list.next_head] at hins
  · intro b hb
    rcases List.mem_cons.mp hb with rfl | hb
    · exact ⟨hge, Or.inl ha, hp⟩
    · exact h.linked b hb

/-- An entry of `file_table` is taken for a kept inode, or is cleared. -/
theorem setFile {f : ℕ} {file : File} (h : Shared p s xs B)
    (hf : ∀ a, file.fdInode = some a → s.Kept a ∧ p a) : Shared p (s.setFile f file) xs B := by
  refine ⟨h.list, h.linked, fun g a hg ↦ ?_, h.nodup, h.own⟩
  by_cases hgf : g = f
  · rw [hgf, Fs.setFile_fileTable, Function.update_self] at hg
    exact hf a hg
  · rw [Fs.setFile_fileTable, Function.update_of_ne hgf] at hg
    exact h.opened g a hg

end Shared

end Primitives

/-! ## The functions

`p` holds of every address of the kernel pool. -/

section Functions

variable {E : Env} {p : ℕ → Prop} {s s' : Fs} {xs B : List ℕ} {n : ℕ}

namespace Shared

theorem sysMalloc {k : Blk} {size : ℕ} {r : Option ℕ} (h : Shared p s xs B) (hE : E.KeepsStale)
    (hk : k ≠ Blk.inode) (hret : Returns (sysMalloc E k size) s r s') :
    Shared p s' xs (r.toList ++ B) := by
  obtain ⟨rfl, rfl⟩ := returns_sysMalloc.mp hret
  cases ha : s.answer E size with
  | none => exact h.congr ⟨rfl, rfl, rfl, rfl⟩
  | some a => exact h.allocOwn (E.malloc_fresh ha) (hE _ _ _ _ _ _ ha) (E.malloc_ge ha) hk

theorem sysMallocUnchecked {k : Blk} {size a : ℕ} (h : Shared p s xs B) (hE : E.KeepsStale)
    (hk : k ≠ Blk.inode) (hret : Returns (sysMallocUnchecked E k size) s a s') :
    Shared p s' xs (a :: B) := by
  obtain ⟨ha, rfl⟩ := returns_sysMallocUnchecked.mp hret
  exact h.allocOwn (E.malloc_fresh ha) (hE _ _ _ _ _ _ ha) (E.malloc_ge ha) hk

theorem sysFree {b : ℕ} {u : PUnit} (h : Shared p s xs (b :: B))
    (hret : Returns (sysFree E b) s u s') : Shared p s' xs B := by
  obtain ⟨-, rfl⟩ := returns_sysFree.mp hret
  exact h.free

/-- `inode_open` on a miss: the inode is new to everything. -/
theorem inodeLoad {a : ℕ} (h : Shared p s xs B) (hE : E.KeepsStale)
    (hp : ∀ b, kHeapStart ≤ b → p b) (hret : Returns (inodeLoad E n) s a s') :
    Shared p s' (a :: xs) B ∧ p a ∧ ∀ f, (s.fileTable f).fdInode ≠ some a := by
  obtain ⟨-, -, ha, b, hb, rfl⟩ := returns_inodeLoad.mp hret
  have hst := hE _ _ _ _ _ _ ha
  have hge := E.malloc_ge ha
  obtain ⟨hx, hf, -⟩ := h.fresh (E.malloc_fresh ha) hst
  have hpa := hp a ((E.malloc_kernel ha).mp rfl)
  refine ⟨?_, hpa, hf⟩
  have h₁ := h.alloc (E.malloc_fresh ha) hst hge Blk.inode
  have h₂ := h₁.allocOwn (k := Blk.buffer) (E.malloc_fresh hb) (hE _ _ _ _ _ _ hb)
    (E.malloc_ge hb) (by decide)
  have hab : a ≠ b := by
    rintro rfl
    have hlive : (s.alloc a Blk.inode).heap a = some Blk.inode := Function.update_self ..
    cases hlive.symm.trans (E.malloc_fresh hb)
  set t := (s.alloc a Blk.inode).alloc b Blk.buffer with ht
  set img : Bytes.Image := fun i ↦ s.disk (512 * (inodePosition E n).secLba + i)
  -- the slot is copied over the links of the inode too, which is not a member yet
  have h₃ : Shared p (t.loadInode a img (inodePosition E n).offSize) xs (b :: B) := by
    refine h₂.of_kept ?_ (fun _ ↦ rfl) (fun _ hc ↦ hc) h₂.nodup h₂.own
    rw [userVaddrStart] at hge
    refine h₂.list.congr ?_ ?_
    · intro c hc
      refine Function.update_of_ne ?_ ..
      rcases List.mem_cons.mp hc with rfl | hc
      · rw [openHead]
        omega
      · exact fun heq ↦ hx (heq ▸ hc)
    · intro c hc
      refine Function.update_of_ne ?_ ..
      rcases List.mem_append.mp hc with hc | hc
      · exact fun heq ↦ hx (heq ▸ hc)
      · rw [List.mem_singleton.mp hc, openTail]
        omega
  have hlive : (t.loadInode a img (inodePosition E n).offSize).heap a = some Blk.inode :=
    (Function.update_of_ne hab ..).trans (Function.update_self ..)
  have h₄ := h₃.push hlive hx hge hpa
  have hk₅ : SameBlocks ((t.loadInode a img (inodePosition E n).offSize).pushOpen a)
      (((t.loadInode a img (inodePosition E n).offSize).pushOpen a).setOpenCnts a 1) :=
    ⟨rfl, rfl, rfl, rfl⟩
  have h₅ := h₄.congr hk₅
  exact h₅.free

/-- `inode_open` finds the inode in `open_inodes`, or it is new to everything. -/
theorem inodeOpen {a : ℕ} (h : Shared p s xs B) (hE : E.KeepsStale)
    (hp : ∀ b, kHeapStart ≤ b → p b) (hret : Returns (inodeOpen E n) s a s') :
    (∃ ys, Shared p s' ys B) ∧ p a ∧
      (s.findOpen n = some (some a) ∨ ∀ f, (s.fileTable f).fdInode ≠ some a) := by
  rcases returns_inodeOpen.mp hret with ⟨hfind, rfl⟩ | ⟨-, hload⟩
  · have hmem := List.mem_of_find?_eq_some (h.list.find_eq hfind).symm
    exact ⟨⟨xs, h.congr ⟨rfl, rfl, rfl, rfl⟩⟩, (h.linked a hmem).2.2, Or.inl hfind⟩
  · obtain ⟨h', hpa, hf⟩ := h.inodeLoad hE hp hload
    exact ⟨⟨a :: xs, h'⟩, hpa, Or.inr hf⟩

theorem inodeClose {a : ℕ} {u : PUnit} (h : Shared p s xs B)
    (hret : Returns (inodeClose E a) s u s') : Shared p s' xs B := by
  obtain ⟨ino, t, h1, hret⟩ := returns_bind.mp hret
  obtain ⟨hlive, rfl, rfl⟩ := returns_inodeAt.mp h1
  rw [returns_modify_bind] at hret
  have h' : Shared p (t.setOpenCnts a (((t.inode a).iOpenCnts + 2 ^ 32 - 1) % 2 ^ 32)) xs B :=
    h.congr ⟨rfl, rfl, rfl, rfl⟩
  rcases returns_ite.mp hret with ⟨-, hret⟩ | ⟨-, hret⟩
  · obtain ⟨u', t', h2, hret⟩ := returns_bind.mp hret
    obtain ⟨-, rfl⟩ := returns_free_kernel.mp h2
    rw [returns_modify] at hret
    subst hret
    exact h'.close hlive
  · obtain ⟨-, rfl⟩ := returns_pure.mp hret
    exact h'

theorem dirOpen {d : Dir} (h : Shared p s xs B) (hE : E.KeepsStale)
    (hp : ∀ b, kHeapStart ≤ b → p b) (hret : Returns (dirOpen E n) s d s') :
    ∃ ys, Shared p s' ys (d.blocks ++ B) := by
  obtain ⟨b, t, h1, hret⟩ := returns_bind.mp hret
  obtain ⟨a, t', h2, hret⟩ := returns_bind.mp hret
  obtain ⟨rfl, rfl⟩ := returns_pure.mp hret
  exact ((h.sysMallocUnchecked hE (by decide) h1).inodeOpen hE hp h2).1

theorem dirClose {d : Dir} {u : PUnit} (h : Shared p s xs (d.blocks ++ B))
    (hret : Returns (dirClose E d) s u s') : Shared p s' xs B := by
  obtain ⟨a, blk⟩ := d
  cases blk with
  | none =>
    obtain ⟨-, rfl⟩ := returns_pure.mp hret
    exact h
  | some b =>
    obtain ⟨u', t, h1, hret⟩ := returns_bind.mp hret
    exact (h.inodeClose h1).sysFree hret

theorem searchDirEntry {d : Dir} {name : List UInt8} {r : Option DirEntry} (h : Shared p s xs B)
    (hE : E.KeepsStale) (hret : Returns (searchDirEntry E d name) s r s') : Shared p s' xs B := by
  obtain ⟨ans, t, h1, hret⟩ := returns_bind.mp hret
  have h' := h.sysMalloc hE (by decide) h1
  cases ans with
  | none =>
    obtain ⟨-, rfl⟩ := returns_pure.mp hret
    exact h'
  | some b =>
    obtain ⟨ino, t₁, h2, hret⟩ := returns_bind.mp hret
    obtain ⟨blocks, t₂, h3, hret⟩ := returns_bind.mp hret
    obtain ⟨c, t₃, h4, hret⟩ := returns_bind.mp hret
    obtain ⟨r', t₄, h5, hret⟩ := returns_bind.mp hret
    obtain ⟨u, t₅, h6, hret⟩ := returns_bind.mp hret
    obtain ⟨u', t₆, h7, hret⟩ := returns_bind.mp hret
    obtain ⟨-, rfl⟩ := returns_pure.mp hret
    have h₂ := (h'.within (within_inodeAt _) h2).within (within_collectBlocks _) h3
    have h₄ := (h₂.sysMallocUnchecked hE (by decide) h4).within (within_searchBlocks E _ _ _ _) h5
    exact (h₄.sysFree h6).sysFree h7

/-- **Searching** from a directory that is in use. -/
theorem searchFrom {fuel : ℕ} {name subPath : List UInt8} {parentInodeNo : ℕ} {last : Option ℕ}
    {r : PathSearchRecord} {res : Option ℕ × PathSearchRecord}
    (h : Shared p s xs (r.parentDir.blocks ++ B)) (hE : E.KeepsStale)
    (hp : ∀ b, kHeapStart ≤ b → p b)
    (hret : Returns (searchFrom E fuel name subPath parentInodeNo last r) s res s') :
    ∃ ys, Shared p s' ys (res.2.parentDir.blocks ++ B) := by
  -- on the rounds of the loop; the directory in use changes with the search record
  induction fuel generalizing s xs name subPath parentInodeNo last r with
  | zero => exact absurd hret returns_throw
  | succ fuel ih =>
    rcases returns_ite.mp hret with ⟨-, hret⟩ | ⟨-, hret⟩
    · -- the whole path is parsed, and its last directory is the result
      obtain ⟨u, t, h1, hret⟩ := returns_bind.mp hret
      obtain ⟨d, t₁, h2, hret⟩ := returns_bind.mp hret
      have h' := (h.dirClose h1).dirOpen hE hp h2
      cases last with
      | none => exact absurd hret returns_throw
      | some m =>
        obtain ⟨rfl, rfl⟩ := returns_pure.mp hret
        exact h'
    · obtain ⟨-, hret⟩ := returns_check_bind.mp hret
      obtain ⟨-, hret⟩ := returns_check_bind.mp hret
      obtain ⟨found, t, h1, hret⟩ := returns_bind.mp hret
      have h' : Shared p t xs (r.parentDir.blocks ++ B) := h.searchDirEntry hE h1
      cases found with
      | none =>
        obtain ⟨rfl, rfl⟩ := returns_pure.mp hret
        exact ⟨xs, h'⟩
      | some e =>
        obtain ⟨q, t₁, h2, hret⟩ := returns_bind.mp hret
        have h₁ := h'.within (within_pathParse _) h2
        dsimp only at hret
        cases he : e.fType with
        | directory =>
          rw [he] at hret
          obtain ⟨ino, t₂, h3, hret⟩ := returns_bind.mp hret
          obtain ⟨u, t₃, h4, hret⟩ := returns_bind.mp hret
          obtain ⟨d, t₄, h5, hret⟩ := returns_bind.mp hret
          obtain ⟨ys, h₄⟩ := ((h₁.within (within_inodeAt _) h3).dirClose h4).dirOpen hE hp h5
          exact ih h₄ hret
        | regular =>
          rw [he] at hret
          obtain ⟨rfl, rfl⟩ := returns_pure.mp hret
          exact ⟨xs, h₁⟩
        | unknown =>
          rw [he] at hret
          exact ih (r := r.extend name) h₁ hret
        | other v =>
          rw [he] at hret
          exact ih (r := r.extend name) h₁ hret

/-- **`search_file`** leaves the directory of the search record in use. -/
theorem searchFile {pathname : List UInt8} {res : Option ℕ × PathSearchRecord}
    (h : Shared p s xs B) (hE : E.KeepsStale) (hp : ∀ b, kHeapStart ≤ b → p b)
    (hret : Returns (searchFile E pathname) s res s') :
    ∃ ys, Shared p s' ys (res.2.parentDir.blocks ++ B) := by
  rw [GlowOS.searchFile, returns_get_bind] at hret
  rcases returns_ite.mp hret with ⟨-, hret⟩ | ⟨-, hret⟩
  · obtain ⟨rfl, rfl⟩ := returns_pure.mp hret
    exact ⟨xs, h⟩
  · obtain ⟨-, hret⟩ := returns_check_bind.mp hret
    obtain ⟨q, t, h1, hret⟩ := returns_bind.mp hret
    exact (h.within (within_pathParse _) h1).searchFrom (r := ⟨[], rootDir s, .unknown⟩) hE hp hret

/-- `inode_release`. -/
theorem inodeRelease {u : PUnit} (h : Shared p s xs B) (hE : E.KeepsStale)
    (hp : ∀ b, kHeapStart ≤ b → p b) (hret : Returns (inodeRelease E n) s u s') :
    ∃ ys, Shared p s' ys B := by
  obtain ⟨a, t, t₁, b, t₂, t₃, t₄, h1, h2, h3, h4, h5, h6⟩ :=
    inodeRelease_split (R := SameBlocks) E hret
  obtain ⟨⟨ys, h₁⟩, -⟩ := h.inodeOpen hE hp h1
  have h₃ := ((h₁.congr h2).sysMallocUnchecked hE (by decide) h3).within (within_inodeDelete E _ _) h4
  exact ⟨ys, (h₃.sysFree h5).inodeClose h6⟩

end Shared

end Functions

end GlowOS
