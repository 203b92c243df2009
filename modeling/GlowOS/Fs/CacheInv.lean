import Mathlib
import GlowOS.Fs.Frames

/-!
# The list of open inodes

`CacheInv s xs` says that `open_inodes` is a list of the blocks `xs`. A member is an inode in memory,
or it is what `inode_close` left behind: a block that was given back and stayed linked, whose first
word is now an address of the heap. No two inodes in memory have the same number.

Each primitive has a lemma that says when it keeps this. A block that the heap hands out must not be
a member, and an inode that enters the list must have a number of its own.
-/

namespace GlowOS

open Bytes Program

/-- `open_inodes` is the list `xs` of inodes in memory and of blocks that were given back. -/
structure CacheInv (s : Fs) (xs : List ℕ) : Prop where
  list : s.tags.IsList openHead openTail xs
  ge : ∀ a ∈ xs, userVaddrStart ≤ a
  elem : ∀ a ∈ xs, s.heap a = some Blk.inode ∨
    s.heap a = none ∧ s.stale a = true ∧ userVaddrStart ≤ (s.inode a).iNo
  inj : ∀ a ∈ xs, ∀ b ∈ xs, s.heap a = some Blk.inode → s.heap b = some Blk.inode →
    (s.inode a).iNo = (s.inode b).iNo → a = b

/-- The heap does not hand out a block that is still linked. -/
def Fs.NoReuse (E : Env) (s : Fs) : Prop :=
  ∀ t h k n a, E.malloc t h s.stale k n = some a → s.stale a = false

theorem Fs.noReuse_of_fresh {E : Env} {s : Fs} (h : ∀ a, s.stale a = false) : s.NoReuse E :=
  fun _ _ _ _ a _ ↦ h a

section Primitives

variable {E : Env} {s t : Fs} {xs : List ℕ}

namespace CacheInv

/-- The links of the sentinels and of the members, and the members, are what matters. -/
theorem congr (h : CacheInv s xs)
    (htags : ∀ a, a = openHead ∨ a = openTail ∨ a ∈ xs →
      t.tags.next a = s.tags.next a ∧ t.tags.prev a = s.tags.prev a)
    (hheap : ∀ a ∈ xs, t.heap a = s.heap a) (hstale : ∀ a ∈ xs, t.stale a = s.stale a)
    (hno : ∀ a ∈ xs, (t.inode a).iNo = (s.inode a).iNo) : CacheInv t xs := by
  refine ⟨h.list.congr ?_ ?_, h.ge, ?_, ?_⟩
  · intro a ha
    rcases List.mem_cons.mp ha with rfl | ha
    · exact (htags _ (Or.inl rfl)).1
    · exact (htags a (Or.inr (Or.inr ha))).1
  · intro a ha
    rcases List.mem_append.mp ha with ha | ha
    · exact (htags a (Or.inr (Or.inr ha))).2
    · obtain rfl := List.mem_singleton.mp ha
      exact (htags _ (Or.inr (Or.inl rfl))).2
  · intro a ha
    rw [hheap a ha, hstale a ha, hno a ha]
    exact h.elem a ha
  · intro a ha b hb
    rw [hheap a ha, hheap b hb, hno a ha, hno b hb]
    exact h.inj a ha b hb

theorem ne_sentinel (h : CacheInv s xs) {a : ℕ} (ha : userVaddrStart ≤ a) :
    openHead ≠ a ∧ openTail ≠ a := by
  rw [userVaddrStart] at ha
  exact ⟨by rw [openHead]; omega, by rw [openTail]; omega⟩

/-- A change of one block that is not a member. -/
theorem of_notMem {b : ℕ} (h : CacheInv s xs) (hb : b ∉ xs) (hge : userVaddrStart ≤ b)
    (htags : ∀ a ≠ b, t.tags.next a = s.tags.next a ∧ t.tags.prev a = s.tags.prev a)
    (hheap : ∀ a ≠ b, t.heap a = s.heap a) (hstale : ∀ a ≠ b, t.stale a = s.stale a)
    (hno : ∀ a ≠ b, (t.inode a).iNo = (s.inode a).iNo) : CacheInv t xs := by
  have hne : ∀ a ∈ xs, a ≠ b := fun a ha heq ↦ hb (heq ▸ ha)
  obtain ⟨h1, h2⟩ := h.ne_sentinel hge
  refine h.congr ?_ (fun a ha ↦ hheap a (hne a ha)) (fun a ha ↦ hstale a (hne a ha))
    fun a ha ↦ hno a (hne a ha)
  rintro a (rfl | rfl | ha)
  · exact htags _ h1
  · exact htags _ h2
  · exact htags a (hne a ha)

/-- A block that is not live, and not left behind, is not a member. -/
theorem notMem_of_none {b : ℕ} (h : CacheInv s xs) (hb : s.heap b = none)
    (hst : s.stale b = false) : b ∉ xs := by
  intro hmem
  rcases h.elem b hmem with hlive | ⟨-, hstale, -⟩
  · rw [hb] at hlive
    cases hlive
  · rw [hst] at hstale
    cases hstale

/-- A live block of another kind is not a member. -/
theorem notMem_of_blk {b : ℕ} {k : Blk} (h : CacheInv s xs) (hb : s.heap b = some k)
    (hk : k ≠ Blk.inode) : b ∉ xs := by
  intro hmem
  rcases h.elem b hmem with hlive | ⟨hnone, -, -⟩
  · rw [hb] at hlive
    exact hk (Option.some.inj hlive)
  · rw [hb] at hnone
    cases hnone

theorem alloc {b : ℕ} {k : Blk} (h : CacheInv s xs) (hb : b ∉ xs) (hge : userVaddrStart ≤ b) :
    CacheInv (s.alloc b k) xs := by
  refine h.of_notMem hb hge ?_ ?_ ?_ ?_
  · exact fun a ha ↦ ⟨Function.update_of_ne ha .., Function.update_of_ne ha ..⟩
  · exact fun a ha ↦ Function.update_of_ne ha ..
  · exact fun a ha ↦ Function.update_of_ne ha ..
  · exact fun a ha ↦ congrArg Inode.iNo (Function.update_of_ne ha ..)

theorem free {b : ℕ} (h : CacheInv s xs) (hb : b ∉ xs) : CacheInv (s.free E b) xs := by
  have hne : ∀ a ∈ xs, a ≠ b := fun a ha heq ↦ hb (heq ▸ ha)
  refine h.congr (fun _ _ ↦ ⟨rfl, rfl⟩) ?_ (fun _ _ ↦ rfl) ?_
  · exact fun a ha ↦ Function.update_of_ne (hne a ha) ..
  · exact fun a ha ↦ congrArg Inode.iNo (Function.update_of_ne (hne a ha) ..)

theorem setInode {a : ℕ} {ino : Inode} (h : CacheInv s xs) (hno : ino.iNo = (s.inode a).iNo) :
    CacheInv (s.setInode a ino) xs := by
  refine h.congr (fun _ _ ↦ ⟨rfl, rfl⟩) (fun _ _ ↦ rfl) (fun _ _ ↦ rfl) fun b _ ↦ ?_
  rw [Fs.setInode_inode]
  by_cases hb : b = a
  · rw [hb, Function.update_self, hno]
  · rw [Function.update_of_ne hb]

/-- A new inode with a number of its own enters the list. -/
theorem push {a : ℕ} (h : CacheInv s xs) (ha : a ∉ xs) (hge : userVaddrStart ≤ a)
    (hlive : s.heap a = some Blk.inode)
    (hno : ∀ b ∈ xs, s.heap b = some Blk.inode → (s.inode b).iNo ≠ (s.inode a).iNo) :
    CacheInv (s.pushOpen a) (a :: xs) := by
  obtain ⟨h1, h2⟩ := h.ne_sentinel hge
  refine ⟨?_, ?_, ?_, ?_⟩
  · have hmem : a ∉ openHead :: openTail :: ([] ++ xs) := by
      simp only [List.nil_append, List.mem_cons, not_or]
      exact ⟨h1.symm, h2.symm, ha⟩
    have hins := Links.IsList.insertBefore (show s.tags.IsList _ _ ([] ++ xs) from h.list) hmem
    rwa [← h.list.next_head] at hins
  · intro b hb
    rcases List.mem_cons.mp hb with rfl | hb
    · exact hge
    · exact h.ge b hb
  · intro b hb
    rcases List.mem_cons.mp hb with rfl | hb
    · exact Or.inl hlive
    · exact h.elem b hb
  · intro b hb c hc hlb hlc heq
    rcases List.mem_cons.mp hb with hba | hb
    · rcases List.mem_cons.mp hc with hca | hc
      · exact hba.trans hca.symm
      · exact absurd (hba ▸ heq.symm) (hno c hc hlc)
    · rcases List.mem_cons.mp hc with hca | hc
      · exact absurd (hca ▸ heq) (hno b hb hlb)
      · exact h.inj b hb c hc hlb hlc heq

/-- A member is given back and stays linked. -/
theorem close {a : ℕ} (h : CacheInv s xs) :
    CacheInv { s.free E a with stale := Function.update s.stale a true } xs := by
  have hheap : ∀ b ≠ a, (s.free E a).heap b = s.heap b := fun b hb ↦ Function.update_of_ne hb ..
  have hself : (s.free E a).heap a = none := Function.update_self ..
  have hino : ∀ b ≠ a, (s.free E a).inode b = s.inode b := fun b hb ↦ Function.update_of_ne hb ..
  refine ⟨h.list, h.ge, ?_, ?_⟩
  · intro b hb
    by_cases hba : b = a
    · subst hba
      refine Or.inr ⟨hself, Function.update_self .., ?_⟩
      have hno : ((s.free E b).inode b).iNo = (E.freeLink s.tick).1 := by
        simp only [Fs.free, Function.update_self]
      exact (E.freeLink_ge s.tick).trans_eq hno.symm
    · dsimp only
      rw [hheap b hba, hino b hba, Function.update_of_ne hba]
      exact h.elem b hb
  · intro b hb c hc
    dsimp only
    by_cases hba : b = a
    · rw [hba, hself]
      intro heq
      cases heq
    · by_cases hca : c = a
      · rw [hca, hself]
        intro _ heq
        cases heq
      · rw [hheap b hba, hheap c hca, hino b hba, hino c hca]
        exact h.inj b hb c hc

/-- The walk of `inode_open` finds the first member with the number. -/
theorem findOpen_eq {n : ℕ} {r : Option ℕ} (h : CacheInv s xs) (hr : s.findOpen n = some r) :
    r = xs.find? fun a ↦ (s.inode a).iNo == n := h.list.find_eq hr

/-- A block that was given back has no inode number. -/
theorem findOpen_some {n a : ℕ} (h : CacheInv s xs)
    (hn : n < userVaddrStart ∨ ∀ b, s.stale b = false) (hr : s.findOpen n = some (some a)) :
    a ∈ xs ∧ s.heap a = some Blk.inode ∧ (s.inode a).iNo = n := by
  have hfind := h.findOpen_eq hr
  have hmem := List.mem_of_find?_eq_some hfind.symm
  have hno : (s.inode a).iNo = n := by simpa using List.find?_some hfind.symm
  refine ⟨hmem, ?_, hno⟩
  rcases h.elem a hmem with hlive | ⟨-, hst, hge⟩
  · exact hlive
  · rcases hn with hn | hn
    · omega
    · rw [hn a] at hst
      cases hst

theorem findOpen_none {n : ℕ} (h : CacheInv s xs) (hr : s.findOpen n = some none) :
    ∀ a ∈ xs, (s.inode a).iNo ≠ n := by
  intro a ha heq
  have hfind := List.find?_eq_none.mp (h.findOpen_eq hr).symm a ha
  simp [heq] at hfind

end CacheInv

end Primitives

end GlowOS
