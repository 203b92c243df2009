import Mathlib
import GlowOS.Kernel.Heap
import GlowOS.Lib.Ranges
import GlowOS.Lib.WordLinks

/-!
# Blocks, arenas and free lists

What the words of the heap mean. `HeapShape` is the heap without memory: the pages that were cut into
blocks, the runs of pages that are one large block each, the free blocks of every size, and the count
of every arena. `Sound` says that its parts lie where they can lie, and `Stored` that the words in
memory say the same: the descriptors, the headers of the arenas, and the links in the free blocks.

Each assignment of the heap to memory has one lemma here: what it does to the shape, and which bytes
it leaves alone. `Own` are the bytes that belong to the heap itself; a block that was handed out has
none of them.
-/

namespace GlowOS

open Bytes Links Program Ranges

/-! ## Sizes -/

/-- `block_size` of a descriptor. -/
def sizeOf (c : Fin 7) : ℕ := 16 * 2 ^ c.val

/-- `block_per_arena` of a descriptor. -/
def perArena (c : Fin 7) : ℕ := (4096 - 12) / sizeOf c

theorem sizeOf_bounds (c : Fin 7) : 16 ≤ sizeOf c ∧ sizeOf c ≤ 1024 := by
  fin_cases c <;> decide

theorem perArena_pos (c : Fin 7) : 0 < perArena c := by
  fin_cases c <;> decide

theorem perArena_lt (c : Fin 7) : perArena c < 256 := by
  fin_cases c <;> decide

/-- The blocks of an arena fill its page. -/
theorem perArena_mul_le (c : Fin 7) : perArena c * sizeOf c ≤ 4084 :=
  Nat.div_mul_le_self (4096 - 12) (sizeOf c)

/-- Block `k` of the arena at `a`. -/
def blockAt (a : ℕ) (c : Fin 7) (k : ℕ) : ℕ := arena2block a k (sizeOf c)

theorem blockAt_eq (a : ℕ) (c : Fin 7) (k : ℕ) : blockAt a c k = a + 12 + k * sizeOf c := rfl

/-- A block lies behind the header of its arena, and within the page. -/
theorem blockAt_within {a k : ℕ} {c : Fin 7} (hk : k < perArena c) :
    a + 12 ≤ blockAt a c k ∧ blockAt a c k + sizeOf c ≤ a + 4096 := by
  have hmul := perArena_mul_le c
  have hle : (k + 1) * sizeOf c ≤ perArena c * sizeOf c := Nat.mul_le_mul_right _ hk
  rw [Nat.succ_mul] at hle
  rw [blockAt_eq]
  omega

/-- Two blocks of an arena do not overlap. -/
theorem blockAt_apart {a k l : ℕ} {c : Fin 7} (h : k < l) :
    blockAt a c k + sizeOf c ≤ blockAt a c l := by
  have hle : (k + 1) * sizeOf c ≤ l * sizeOf c := Nat.mul_le_mul_right _ h
  rw [Nat.succ_mul] at hle
  rw [blockAt_eq, blockAt_eq]
  omega

theorem blockAt_inj {a k l : ℕ} {c : Fin 7} (h : blockAt a c k = blockAt a c l) : k = l := by
  have hpos := (sizeOf_bounds c).1
  rcases lt_trichotomy k l with hlt | heq | hlt
  · have := blockAt_apart (a := a) (c := c) hlt
    omega
  · exact heq
  · have := blockAt_apart (a := a) (c := c) hlt
    omega

/-- The page of a block is its arena. -/
theorem block2arena_of_within {a p : ℕ} (ha : a % 4096 = 0) (h1 : a ≤ p) (h2 : p < a + 4096) :
    block2arena p = a := by
  rw [block2arena]
  omega

/-! ## The shape of the heap -/

/-- The heap without memory. -/
structure HeapShape where
  /-- The pages cut into blocks, each with its descriptor. -/
  small : List (ℕ × Fin 7)
  /-- The runs that are one block each, with their numbers of pages. -/
  large : List (ℕ × ℕ)
  /-- The `free_list` of each descriptor. -/
  free : Fin 7 → List ℕ
  /-- The field `cnt` of each arena that is not large. -/
  cnt : ℕ → ℕ

namespace HeapShape

variable (g : HeapShape) (descs : ℕ)

/-- The runs of pages that the heap has: the first address and the number of pages. -/
def runs : List (ℕ × ℕ) := g.small.map (fun r ↦ (r.1, 1)) ++ g.large

/-- The bytes of a run. -/
def bytesOf (r : ℕ × ℕ) : ℕ × ℕ := (r.1, r.2 * 4096)

/-- There is a block of the size of `c` at `b`. -/
def Block (c : Fin 7) (b : ℕ) : Prop := ∃ a k, (a, c) ∈ g.small ∧ k < perArena c ∧ b = blockAt a c k

/-- The parts of the heap lie where they can lie. -/
structure Sound : Prop where
  descsPos : 0 < descs
  descsEnd : descs + 168 ≤ 2 ^ 32
  aligned : ∀ r ∈ g.runs, r.1 % 4096 = 0
  pos : ∀ r ∈ g.runs, 0 < r.1 ∧ 0 < r.2
  fits : ∀ r ∈ g.runs, r.1 + r.2 * 4096 ≤ 2 ^ 32
  offDescs : ∀ r ∈ g.runs, descs + 168 ≤ r.1 ∨ r.1 + r.2 * 4096 ≤ descs
  apart : Apart (g.runs.map bytesOf)
  free : ∀ c, ∀ b ∈ g.free c, g.Block c b

/-- The sentinels of a `free_list`. -/
def headAt (descs : ℕ) (c : Fin 7) : ℕ := freeList (descAt descs c)

@[inherit_doc headAt] def tailAt (descs : ℕ) (c : Fin 7) : ℕ := freeList (descAt descs c) + 8

/-- The words in memory say what the shape says. -/
structure Stored (f : Image) : Prop where
  size : ∀ c : Fin 7, le32 f (descAt descs c) = sizeOf c
  per : ∀ c : Fin 7, le32 f (descAt descs c + 4) = perArena c
  lists : Represents (wordLinks f) (headAt descs) (tailAt descs) g.free
  small : ∀ r ∈ g.small, le32 f r.1 = descAt descs r.2 ∧ le32 f (r.1 + 4) = g.cnt r.1 ∧
    f (r.1 + 8) = 0
  large : ∀ r ∈ g.large, le32 f r.1 = 0 ∧ le32 f (r.1 + 4) = r.2 ∧ f (r.1 + 8) = 1

/-- The byte belongs to the heap: to a descriptor, a header, or a free block. -/
def Own (i : ℕ) : Prop :=
  (descs ≤ i ∧ i < descs + 168) ∨ (∃ r ∈ g.runs, r.1 ≤ i ∧ i < r.1 + 12) ∨
    ∃ c, ∃ b ∈ g.free c, b ≤ i ∧ i < b + sizeOf c

/-- The possible nodes of free lists. -/
def Node (x : ℕ) : Prop := ∃ c, x = headAt descs c ∨ x = tailAt descs c ∨ g.Block c x

/-! ## Where the parts lie -/

variable {g descs} {a b b' i x y : ℕ} {c c' : Fin 7} {f : Image}

theorem mem_runs_small (h : (a, c) ∈ g.small) : (a, 1) ∈ g.runs :=
  List.mem_append_left _ (List.mem_map.mpr ⟨_, h, rfl⟩)

theorem mem_runs_large {r : ℕ × ℕ} (h : r ∈ g.large) : r ∈ g.runs := List.mem_append_right _ h

namespace Sound

variable (h : g.Sound descs)
include h

/-- Two runs are the same or do not meet. -/
theorem runs_apart {r r' : ℕ × ℕ} (hr : r ∈ g.runs) (hr' : r' ∈ g.runs) :
    r = r' ∨ r.1 + r.2 * 4096 ≤ r'.1 ∨ r'.1 + r'.2 * 4096 ≤ r.1 := by
  by_cases heq : r = r'
  · exact .inl heq
  · exact .inr (h.apart.of_map hr hr' heq)

/-- An arena of blocks is at an address of its own. -/
theorem arena_eq (hr : (a, c) ∈ g.small) (hr' : (b, c') ∈ g.small) :
    (a = b ∧ c = c') ∨ a + 4096 ≤ b ∨ b + 4096 ≤ a := by
  by_cases heq : (a, c) = (b, c')
  · obtain ⟨rfl, rfl⟩ := Prod.mk.inj heq
    exact .inl ⟨rfl, rfl⟩
  · have happ := h.apart
    rw [runs, List.map_append, List.map_map] at happ
    have := Apart.of_map (List.pairwise_append.mp happ).1 hr hr' heq
    dsimp only [Function.comp_apply, bytesOf] at this
    omega

theorem small_large {r : ℕ × ℕ} (hr : (a, c) ∈ g.small) (hr' : r ∈ g.large) :
    a + 4096 ≤ r.1 ∨ r.1 + r.2 * 4096 ≤ a := by
  have hpair := List.pairwise_append.mp (List.pairwise_map.mp h.apart)
  have := hpair.2.2 (a, 1) (List.mem_map.mpr ⟨_, hr, rfl⟩) r hr'
  dsimp only [bytesOf] at this
  omega

/-- Two blocks are the same or do not overlap. -/
theorem block_apart (hb : g.Block c b) (hb' : g.Block c' b') :
    (b = b' ∧ c = c') ∨ b + sizeOf c ≤ b' ∨ b' + sizeOf c' ≤ b := by
  obtain ⟨a, k, hr, hk, rfl⟩ := hb
  obtain ⟨a', k', hr', hk', rfl⟩ := hb'
  rcases h.arena_eq hr hr' with ⟨rfl, rfl⟩ | hout
  · rcases lt_trichotomy k k' with hlt | rfl | hlt
    · exact .inr (.inl (blockAt_apart hlt))
    · exact .inl ⟨rfl, rfl⟩
    · exact .inr (.inr (blockAt_apart hlt))
  · have h1 := blockAt_within (a := a) hk
    have h2 := blockAt_within (a := a') hk'
    omega

omit h in
/-- A block lies behind the header of an arena, whose page it does not leave. -/
theorem block_within (hb : g.Block c b) :
    ∃ a, (a, c) ∈ g.small ∧ a + 12 ≤ b ∧ b + sizeOf c ≤ a + 4096 := by
  obtain ⟨a, k, hr, hk, rfl⟩ := hb
  exact ⟨a, hr, blockAt_within hk⟩

theorem block_off_descs (hb : g.Block c b) : descs + 168 ≤ b ∨ b + sizeOf c ≤ descs := by
  obtain ⟨a, hr, h1, h2⟩ := block_within hb
  have := h.offDescs _ (mem_runs_small hr)
  dsimp only at this
  omega

/-- No block lies in a header. -/
theorem block_off_header {r : ℕ × ℕ} (hb : g.Block c b) (hr : r ∈ g.runs) :
    r.1 + 12 ≤ b ∨ b + sizeOf c ≤ r.1 := by
  obtain ⟨a, ha, h1, h2⟩ := block_within hb
  have hpos := (h.pos r hr).2
  rcases h.runs_apart (mem_runs_small ha) hr with heq | hout
  · rw [← heq]
    exact .inl h1
  · dsimp only at hout
    omega

/-- No two nodes overlap. -/
theorem spaced : Spaced {x | g.Node descs x} := by
  have hend := h.descsEnd
  have hsent : ∀ c : Fin 7, headAt descs c = descs + 24 * c.val + 8 ∧
      tailAt descs c = descs + 24 * c.val + 16 := fun c ↦ ⟨rfl, rfl⟩
  constructor
  · rintro x ⟨c, rfl | rfl | hx⟩
    · have := (hsent c).1
      omega
    · have := (hsent c).2
      omega
    · obtain ⟨a, hr, h1, h2⟩ := block_within hx
      have := h.fits _ (mem_runs_small hr)
      have := (sizeOf_bounds c).1
      dsimp only at *
      omega
  · rintro x ⟨c, hx⟩ y ⟨c', hy⟩ hne
    have hc := hsent c
    have hc' := hsent c'
    have hs := (sizeOf_bounds c).1
    have hs' := (sizeOf_bounds c').1
    rcases hx with rfl | rfl | hx <;> rcases hy with rfl | rfl | hy
    · omega
    · omega
    · have := h.block_off_descs hy
      omega
    · omega
    · omega
    · have := h.block_off_descs hy
      omega
    · have := h.block_off_descs hx
      omega
    · have := h.block_off_descs hx
      omega
    · rcases h.block_apart hx hy with ⟨rfl, -⟩ | hout
      · exact absurd rfl hne
      · omega

theorem node_of_mem (hx : x ∈ nodes (headAt descs) (tailAt descs) g.free c) : g.Node descs x := by
  rw [nodes] at hx
  rcases List.mem_cons.mp hx with rfl | hx
  · exact ⟨c, .inl rfl⟩
  rcases List.mem_cons.mp hx with rfl | hx
  · exact ⟨c, .inr (.inl rfl)⟩
  · exact ⟨c, .inr (.inr (h.free c x hx))⟩

theorem allNodes_subset : allNodes (headAt descs) (tailAt descs) g.free ⊆ {x | g.Node descs x} :=
  fun _ ⟨_, hx⟩ ↦ h.node_of_mem hx

/-- The size and the number of blocks in a descriptor, and the headers, are no part of a node. -/
theorem node_off (hx : g.Node descs x)
    (hi : (∃ c : Fin 7, descAt descs c ≤ i ∧ i < descAt descs c + 8) ∨
      ∃ r ∈ g.runs, r.1 ≤ i ∧ i < r.1 + 12) : i < x ∨ x + 8 ≤ i := by
  have hdesc : ∀ c : Fin 7, descAt descs c = descs + 24 * c.val := fun _ ↦ rfl
  obtain ⟨c, hx⟩ := hx
  have hc := hdesc c
  have hs := (sizeOf_bounds c).1
  have hhead : headAt descs c = descs + 24 * c.val + 8 := rfl
  have htail : tailAt descs c = descs + 24 * c.val + 16 := rfl
  rcases hi with ⟨c', hi⟩ | ⟨r, hr, hi⟩
  · have hc' := hdesc c'
    rcases hx with rfl | rfl | hx
    · omega
    · omega
    · have := h.block_off_descs hx
      omega
  · have hpos := (h.pos r hr).2
    have hoff := h.offDescs r hr
    rcases hx with rfl | rfl | hx
    · omega
    · omega
    · have := h.block_off_header hx hr
      omega

end Sound

/-! ## The bytes of the heap -/

/-- The bytes that assignments to the nodes leave alone. -/
def Fixed (g : HeapShape) (descs i : ℕ) : Prop :=
  (∃ c : Fin 7, descAt descs c ≤ i ∧ i < descAt descs c + 8) ∨ ∃ r ∈ g.runs, r.1 ≤ i ∧ i < r.1 + 12

theorem descAt_within (descs : ℕ) (c : Fin 7) :
    descs ≤ descAt descs c ∧ descAt descs c + 24 ≤ descs + 168 := by
  have hdesc : descAt descs c = descs + 24 * c.val := rfl
  omega

theorem Fixed.own (h : g.Fixed descs i) : g.Own descs i := by
  rcases h with ⟨c, hc⟩ | hr
  · have := descAt_within descs c
    exact .inl (by omega)
  · exact .inr (.inl hr)

/-- The bytes of a node in a list belong to the heap. -/
theorem own_of_node (hx : x ∈ nodes (headAt descs) (tailAt descs) g.free c) (h1 : x ≤ i)
    (h2 : i < x + 8) : g.Own descs i := by
  have hdesc := descAt_within descs c
  have hhead : headAt descs c = descAt descs c + 8 := rfl
  have htail : tailAt descs c = descAt descs c + 16 := rfl
  rw [nodes] at hx
  rcases List.mem_cons.mp hx with rfl | hx
  · exact .inl (by omega)
  rcases List.mem_cons.mp hx with rfl | hx
  · exact .inl (by omega)
  · have hs := (sizeOf_bounds c).1
    exact .inr (.inr ⟨c, x, hx, h1, by omega⟩)

/-- A byte that is not the heap's is in no node. -/
theorem off_node (hi : ¬g.Own descs i) (hx : x ∈ allNodes (headAt descs) (tailAt descs) g.free) :
    i < x ∨ x + 8 ≤ i := by
  obtain ⟨c, hx⟩ := hx
  by_contra hin
  exact hi (own_of_node hx (by omega) (by omega))

/-- The bytes of a block that is not free are not the heap's. -/
theorem Sound.own_off_block (h : g.Sound descs) (hb : g.Block c b) (hnot : b ∉ g.free c)
    (hi : g.Own descs i) : i < b ∨ b + sizeOf c ≤ i := by
  rcases hi with hi | ⟨r, hr, hi⟩ | ⟨c', b', hb', hi⟩
  · have := h.block_off_descs hb
    omega
  · have := h.block_off_header hb hr
    omega
  · rcases h.block_apart hb (h.free c' b' hb') with ⟨rfl, rfl⟩ | hout
    · exact absurd hb' hnot
    · omega

/-- The run of pages is new to the heap. -/
structure Fresh (g : HeapShape) (descs : ℕ) (r : ℕ × ℕ) : Prop where
  aligned : r.1 % 4096 = 0
  pos : 0 < r.1 ∧ 0 < r.2
  fits : r.1 + r.2 * 4096 ≤ 2 ^ 32
  offDescs : descs + 168 ≤ r.1 ∨ r.1 + r.2 * 4096 ≤ descs
  apart : ∀ r' ∈ g.runs, r.1 + r.2 * 4096 ≤ r'.1 ∨ r'.1 + r'.2 * 4096 ≤ r.1

theorem Fresh.own_off {r : ℕ × ℕ} (hr : g.Fresh descs r) (h : g.Sound descs)
    (hi : g.Own descs i) : i < r.1 ∨ r.1 + r.2 * 4096 ≤ i := by
  have hoff := hr.offDescs
  rcases hi with hi | ⟨r', hr', hi⟩ | ⟨c, b, hb, hi⟩
  · omega
  · have := hr.apart r' hr'
    have := (h.pos r' hr').2
    omega
  · obtain ⟨a, ha, h1, h2⟩ := Sound.block_within (h.free c b hb)
    have := hr.apart _ (mem_runs_small ha)
    dsimp only at this
    omega

/-! ## Operations on the shape -/

/-- Assign a `free_list`. -/
def setFree (g : HeapShape) (c : Fin 7) (l : List ℕ) : HeapShape :=
  { g with free := Function.update g.free c l }

/-- Assign the count of an arena. -/
def setCnt (g : HeapShape) (a n : ℕ) : HeapShape := { g with cnt := Function.update g.cnt a n }

/-- The heap with one more arena of blocks. -/
def addSmall (g : HeapShape) (a : ℕ) (c : Fin 7) : HeapShape :=
  { g with small := (a, c) :: g.small, cnt := Function.update g.cnt a (perArena c) }

/-- The heap with one more large block. -/
def addLarge (g : HeapShape) (r : ℕ × ℕ) : HeapShape := { g with large := r :: g.large }

/-- The heap without an arena. -/
def eraseSmall (g : HeapShape) (a : ℕ) (c : Fin 7) : HeapShape :=
  { g with small := g.small.erase (a, c) }

/-- The heap without a large block. -/
def eraseLarge (g : HeapShape) (r : ℕ × ℕ) : HeapShape := { g with large := g.large.erase r }

section Operations

variable {l : List ℕ} {n : ℕ} {r : ℕ × ℕ}

@[simp] theorem setFree_free_self : (g.setFree c l).free c = l := Function.update_self ..

theorem setFree_free_of_ne (h : c' ≠ c) : (g.setFree c l).free c' = g.free c' :=
  Function.update_of_ne h ..

theorem runs_addLarge : ((g.addLarge r).runs).Perm (r :: g.runs) := List.perm_middle

theorem runs_eraseSmall (h : (a, c) ∈ g.small) : g.runs.Perm ((a, 1) :: (g.eraseSmall a c).runs) :=
  ((List.perm_cons_erase h).map _).append_right g.large

theorem runs_eraseLarge (h : r ∈ g.large) : g.runs.Perm (r :: (g.eraseLarge r).runs) :=
  ((List.perm_cons_erase h).append_left _).trans List.perm_middle

theorem Sound.setFree (h : g.Sound descs) (hl : ∀ b ∈ l, g.Block c b) :
    (g.setFree c l).Sound descs := by
  refine ⟨h.descsPos, h.descsEnd, h.aligned, h.pos, h.fits, h.offDescs, h.apart, ?_⟩
  intro c' b hb
  by_cases hc : c' = c
  · subst hc
    rw [setFree_free_self] at hb
    exact hl b hb
  · rw [setFree_free_of_ne hc] at hb
    exact h.free c' b hb

theorem Sound.setCnt (h : g.Sound descs) : (g.setCnt a n).Sound descs :=
  ⟨h.descsPos, h.descsEnd, h.aligned, h.pos, h.fits, h.offDescs, h.apart, h.free⟩

/-- The parts still lie where they can lie when the runs are among these and the blocks stay. -/
theorem Sound.of_runs {g' : HeapShape} (h : g.Sound descs) (rs : List (ℕ × ℕ))
    (hperm : rs.Perm g'.runs) (hrs : ∀ r ∈ rs, r ∈ g.runs ∨ g.Fresh descs r)
    (hapart : Apart (rs.map bytesOf)) (hfree : ∀ c, ∀ b ∈ g'.free c, g'.Block c b) :
    g'.Sound descs := by
  have hmem : ∀ r ∈ g'.runs, r ∈ g.runs ∨ g.Fresh descs r :=
    fun r hr ↦ hrs r (hperm.mem_iff.mpr hr)
  refine ⟨h.descsPos, h.descsEnd, ?_, ?_, ?_, ?_, hapart.perm (hperm.map _), hfree⟩
  · exact fun r hr ↦ (hmem r hr).elim (h.aligned r) Fresh.aligned
  · exact fun r hr ↦ (hmem r hr).elim (h.pos r) Fresh.pos
  · exact fun r hr ↦ (hmem r hr).elim (h.fits r) Fresh.fits
  · exact fun r hr ↦ (hmem r hr).elim (h.offDescs r) Fresh.offDescs

/-- A new run stands apart from the others. -/
theorem Fresh.apart_cons (hr : g.Fresh descs r) (h : g.Sound descs) :
    Apart ((r :: g.runs).map bytesOf) := by
  refine List.pairwise_cons.mpr ⟨?_, h.apart⟩
  intro s hs
  obtain ⟨r', hr', rfl⟩ := List.mem_map.mp hs
  exact hr.apart r' hr'

theorem Sound.addSmall (h : g.Sound descs) (hr : g.Fresh descs (a, 1)) :
    (g.addSmall a c).Sound descs := by
  refine h.of_runs ((a, 1) :: g.runs) (List.Perm.refl _) ?_ (hr.apart_cons h) ?_
  · intro r hmem
    rcases List.mem_cons.mp hmem with rfl | hmem
    · exact .inr hr
    · exact .inl hmem
  · intro c' b hb
    obtain ⟨a', k, ha', hk, hb'⟩ := h.free c' b hb
    exact ⟨a', k, List.mem_cons_of_mem _ ha', hk, hb'⟩

theorem Sound.addLarge (h : g.Sound descs) (hr : g.Fresh descs r) :
    (g.addLarge r).Sound descs := by
  refine h.of_runs (r :: g.runs) runs_addLarge.symm ?_ (hr.apart_cons h) h.free
  intro r' hmem
  rcases List.mem_cons.mp hmem with rfl | hmem
  · exact .inr hr
  · exact .inl hmem

theorem Sound.eraseSmall (h : g.Sound descs) (hr : (a, c) ∈ g.small)
    (hused : ∀ k < perArena c, blockAt a c k ∉ g.free c) : (g.eraseSmall a c).Sound descs := by
  have hperm := runs_eraseSmall hr
  have hapart := h.apart.perm (hperm.map bytesOf)
  refine h.of_runs (g.eraseSmall a c).runs (List.Perm.refl _) ?_
    (List.pairwise_cons.mp hapart).2 ?_
  · exact fun r hmem ↦ .inl (hperm.mem_iff.mpr (List.mem_cons_of_mem _ hmem))
  · intro c' b hb
    obtain ⟨a', k, ha', hk, rfl⟩ := h.free c' b hb
    refine ⟨a', k, (List.mem_erase_of_ne ?_).mpr ha', hk, rfl⟩
    intro heq
    obtain ⟨rfl, rfl⟩ := Prod.mk.inj heq
    exact hused k hk hb

theorem Sound.eraseLarge (h : g.Sound descs) (hr : r ∈ g.large) :
    (g.eraseLarge r).Sound descs := by
  have hperm := runs_eraseLarge hr
  have hapart := h.apart.perm (hperm.map bytesOf)
  refine h.of_runs (g.eraseLarge r).runs (List.Perm.refl _) ?_
    (List.pairwise_cons.mp hapart).2 h.free
  exact fun r hmem ↦ .inl (hperm.mem_iff.mpr (List.mem_cons_of_mem _ hmem))

end Operations

/-! ## Assignments to memory -/

namespace Stored

variable {f' : Image} {xs ys : List ℕ} {n : ℕ} {r : ℕ × ℕ}

/-- The lists may change when the other words stay. -/
theorem of_lists {free : Fin 7 → List ℕ} (hs : g.Stored descs f)
    (hlists : Represents (wordLinks f') (headAt descs) (tailAt descs) free)
    (hkeep : ∀ i, g.Fixed descs i → f' i = f i) : ({ g with free := free }).Stored descs f' := by
  have hword : ∀ a, (∀ i < 4, g.Fixed descs (a + i)) → le32 f' a = le32 f a :=
    fun a ha ↦ le32_congr fun i hi ↦ hkeep _ (ha i hi)
  have hdesc : ∀ c : Fin 7, ∀ o i, o + i < 8 → g.Fixed descs (descAt descs c + o + i) :=
    fun c o i hi ↦ .inl ⟨c, by omega⟩
  have hrun : ∀ r ∈ g.runs, ∀ o i, o + i < 12 → g.Fixed descs (r.1 + o + i) :=
    fun r hr o i hi ↦ .inr ⟨r, hr, by omega⟩
  refine ⟨fun c ↦ ?_, fun c ↦ ?_, hlists, ?_, ?_⟩
  · exact (hword _ fun i hi ↦ hdesc c 0 i (by omega)).trans (hs.size c)
  · exact (hword _ fun i hi ↦ hdesc c 4 i (by omega)).trans (hs.per c)
  · rintro ⟨a, c⟩ hr
    have hmem := mem_runs_small hr
    obtain ⟨h1, h2, h3⟩ := hs.small _ hr
    exact ⟨(hword _ fun i hi ↦ hrun _ hmem 0 i (by omega)).trans h1,
      (hword _ fun i hi ↦ hrun _ hmem 4 i (by omega)).trans h2,
      (hkeep _ (hrun _ hmem 8 0 (by omega))).trans h3⟩
  · intro r hr
    have hmem := mem_runs_large hr
    obtain ⟨h1, h2, h3⟩ := hs.large _ hr
    exact ⟨(hword _ fun i hi ↦ hrun _ hmem 0 i (by omega)).trans h1,
      (hword _ fun i hi ↦ hrun _ hmem 4 i (by omega)).trans h2,
      (hkeep _ (hrun _ hmem 8 0 (by omega))).trans h3⟩

/-- What the heap is depends on the bytes that belong to it. -/
theorem congr (hs : g.Stored descs f) (hkeep : ∀ i, g.Own descs i → f' i = f i) :
    g.Stored descs f' := by
  refine hs.of_lists (hs.lists.congr ?_) fun i hi ↦ hkeep i hi.own
  refine sameOn_of_agree ?_
  rintro x ⟨c, hx⟩ i hi
  exact hkeep _ (own_of_node hx (by omega) (by omega))

/-- `list_append` of a block to its `free_list`. -/
theorem append (hs : g.Stored descs f) (h : g.Sound descs) (hb : g.Block c b)
    (hnew : b ∉ g.free c) :
    (g.setFree c (g.free c ++ [b])).Stored descs (insertWords f (tailAt descs c) b) ∧
      ∀ i, ¬(g.setFree c (g.free c ++ [b])).Own descs i →
        insertWords f (tailAt descs c) b i = f i := by
  have hnode : g.Node descs b := ⟨c, .inr (.inr hb)⟩
  have hfresh : ∀ q, b ∉ nodes (headAt descs) (tailAt descs) g.free q := by
    intro q hq
    have hoff := h.block_off_descs hb
    have hdesc := descAt_within descs q
    have hhead : headAt descs q = descAt descs q + 8 := rfl
    have htail : tailAt descs q = descAt descs q + 16 := rfl
    have hsize := (sizeOf_bounds c).1
    rw [nodes] at hq
    rcases List.mem_cons.mp hq with hq | hq
    · omega
    rcases List.mem_cons.mp hq with hq | hq
    · omega
    · rcases h.block_apart hb (h.free q b hq) with ⟨-, rfl⟩ | hout
      · exact hnew hq
      · have := (sizeOf_bounds q).1
        omega
  have hsub : insert b (allNodes (headAt descs) (tailAt descs) g.free) ⊆
      {x | g.Node descs x} := by
    rintro x (rfl | hx)
    · exact hnode
    · exact h.allNodes_subset hx
  obtain ⟨hrep, hout⟩ := hs.lists.appendWords (q := c) hfresh (h.spaced.mono hsub)
  refine ⟨hs.of_lists hrep fun i hi ↦ hout i fun x hx ↦ h.node_off (hsub hx) hi, ?_⟩
  intro i hi
  refine hout i ?_
  rintro x (rfl | hx)
  · refine off_node hi ⟨c, ?_⟩
    simp [nodes]
  · obtain ⟨q, hq⟩ := hx
    refine off_node hi ⟨q, ?_⟩
    rw [nodes] at hq ⊢
    rcases List.mem_cons.mp hq with rfl | hq
    · simp
    rcases List.mem_cons.mp hq with rfl | hq
    · simp
    · by_cases hqc : q = c
      · subst hqc
        simp [hq]
      · simp [setFree_free_of_ne hqc, hq]

/-- `list_remove` of a block. -/
theorem remove (hs : g.Stored descs f) (h : g.Sound descs) (hq : g.free c = xs ++ x :: ys) :
    (g.setFree c (xs ++ ys)).Stored descs (removeWords f x) ∧
      ∀ i, ¬g.Own descs i → removeWords f x i = f i := by
  obtain ⟨hrep, hout⟩ := hs.lists.removeWords hq (h.spaced.mono h.allNodes_subset)
  refine ⟨hs.of_lists hrep fun i hi ↦ hout i fun x hx ↦ h.node_off (h.allNodes_subset hx) hi, ?_⟩
  exact fun i hi ↦ hout i fun x hx ↦ off_node hi hx

/-- An assignment to the count of an arena. -/
theorem setCnt (hs : g.Stored descs f) (h : g.Sound descs) (hr : (a, c) ∈ g.small)
    (hn : n < 2 ^ 32) : (g.setCnt a n).Stored descs (setWord f (a + 4) n) ∧
      ∀ i, ¬g.Own descs i → setWord f (a + 4) n i = f i := by
  have hmem := mem_runs_small hr
  have hoff := h.offDescs _ hmem
  dsimp only at hoff
  have hdesc := fun c ↦ descAt_within descs c
  refine ⟨⟨fun c' ↦ ?_, fun c' ↦ ?_, hs.lists.congr (sameOn_of_agree ?_), ?_, ?_⟩, fun i hi ↦ ?_⟩
  · have := hdesc c'
    exact (le32_splice_of_disjoint (by omega)).trans (hs.size c')
  · have := hdesc c'
    exact (le32_splice_of_disjoint (by omega)).trans (hs.per c')
  · intro x hx
    refine agree_splice ?_
    have h1 := h.node_off (i := a + 4) (h.allNodes_subset hx) (.inr ⟨_, hmem, by dsimp only; omega⟩)
    have h2 := h.node_off (i := a + 7) (h.allNodes_subset hx) (.inr ⟨_, hmem, by dsimp only; omega⟩)
    omega
  · rintro ⟨a', c'⟩ hr'
    obtain ⟨h1, h2, h3⟩ := hs.small _ hr'
    rcases h.arena_eq hr hr' with ⟨rfl, rfl⟩ | hout
    · refine ⟨(le32_splice_of_disjoint (by omega)).trans h1, ?_,
        (splice_of_disjoint (by dsimp only; omega)).trans h3⟩
      dsimp only [HeapShape.setCnt]
      rw [le32_setWord hn, Function.update_self]
    · dsimp only at h1 h2 h3 ⊢
      refine ⟨(le32_splice_of_disjoint (by omega)).trans h1, ?_,
        (splice_of_disjoint (by omega)).trans h3⟩
      dsimp only [HeapShape.setCnt]
      rw [Function.update_of_ne (by omega), ← h2]
      exact le32_splice_of_disjoint (by omega)
  · intro r hr'
    obtain ⟨h1, h2, h3⟩ := hs.large _ hr'
    have hout := h.small_large hr hr'
    have hpos := (h.pos r (mem_runs_large hr')).2
    exact ⟨(le32_splice_of_disjoint (by omega)).trans h1,
      (le32_splice_of_disjoint (by omega)).trans h2,
      (splice_of_disjoint (by omega)).trans h3⟩
  · refine setWord_of_outside ?_
    by_contra hin
    exact hi (.inr (.inl ⟨_, hmem, by dsimp only; omega⟩))

/-- The words that make a new page an arena. -/
theorem addSmall (hs : g.Stored descs f) (h : g.Sound descs) (hr : g.Fresh descs (a, 1))
    (hkeep : ∀ i, i < a ∨ a + 4096 ≤ i → f' i = f i) (h1 : le32 f' a = descAt descs c)
    (h2 : le32 f' (a + 4) = perArena c) (h3 : f' (a + 8) = 0) :
    (g.addSmall a c).Stored descs f' := by
  have hold : g.Stored descs f' := hs.congr fun i hi ↦ hkeep i (by
    have := hr.own_off h hi
    dsimp only at this
    omega)
  refine ⟨hold.size, hold.per, hold.lists, ?_, hold.large⟩
  intro r' hr'
  rcases List.mem_cons.mp hr' with rfl | hr'
  · refine ⟨h1, ?_, h3⟩
    dsimp only [HeapShape.addSmall]
    rw [Function.update_self]
    exact h2
  · obtain ⟨h4, h5, h6⟩ := hold.small r' hr'
    refine ⟨h4, ?_, h6⟩
    have := hr.apart _ (mem_runs_small hr')
    dsimp only at this
    dsimp only [HeapShape.addSmall]
    rw [Function.update_of_ne (by omega)]
    exact h5

/-- The words that make new pages one large block. -/
theorem addLarge (hs : g.Stored descs f) (h : g.Sound descs) (hr : g.Fresh descs r)
    (hkeep : ∀ i, i < r.1 ∨ r.1 + r.2 * 4096 ≤ i → f' i = f i) (h1 : le32 f' r.1 = 0)
    (h2 : le32 f' (r.1 + 4) = r.2) (h3 : f' (r.1 + 8) = 1) : (g.addLarge r).Stored descs f' := by
  have hold : g.Stored descs f' := hs.congr fun i hi ↦ hkeep i (hr.own_off h hi)
  refine ⟨hold.size, hold.per, hold.lists, hold.small, ?_⟩
  intro r' hr'
  rcases List.mem_cons.mp hr' with rfl | hr'
  · exact ⟨h1, h2, h3⟩
  · exact hold.large r' hr'

theorem eraseSmall (hs : g.Stored descs f) : (g.eraseSmall a c).Stored descs f :=
  ⟨hs.size, hs.per, hs.lists, fun r hr ↦ hs.small r (List.mem_of_mem_erase hr), hs.large⟩

theorem eraseLarge (hs : g.Stored descs f) : (g.eraseLarge r).Stored descs f :=
  ⟨hs.size, hs.per, hs.lists, hs.small, fun r hr ↦ hs.large r (List.mem_of_mem_erase hr)⟩

end Stored

end HeapShape

end GlowOS
