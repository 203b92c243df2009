import Mathlib
import GlowOS.Kernel.HeapCalls
import GlowOS.Lib.Fuel
import GlowOS.Userprog.Fork

/-!
# Runs of the heap

A context starts with the descriptors that `block_desc_init` wrote and goes on with `sys_malloc`,
`sys_free` of blocks it holds, and assignments to bytes of these blocks, in any order. Between the
calls the blocks it holds never overlap, and the pages of the heap are those with a block that is
held.
-/

namespace GlowOS

open Bytes Links Program Ranges HeapShape Relation

variable {μ : Type} {P : Pages μ} {pf : PoolFlags} {running descs : ℕ}

/-! ## Steps -/

/-- A context with the blocks it holds, by address and size. -/
abbrev HeapUse (μ : Type) := HeapSys μ × List (ℕ × ℕ)

/-- What a context does with its heap. -/
inductive HeapStep (P : Pages μ) : HeapUse μ → HeapUse μ → Prop
  | malloc {s s' live size b} : Returns (heapMalloc P size) s (some b) s' →
      HeapStep P (s, live) (s', (b, size) :: live)
  | full {s s' live size} : Returns (heapMalloc P size) s none s' →
      HeapStep P (s, live) (s', live)
  | free {s s' live p} : p ∈ live → Returns (heapFree P p.1) s () s' →
      HeapStep P (s, live) (s', live.erase p)
  | write {s live f} : (∀ i, (∀ p ∈ live, i < p.1 ∨ p.1 + p.2 ≤ i) → f i = s.vm i) →
      HeapStep P (s, live) ({ s with vm := f }, live)

/-- The context holds nothing yet. -/
structure HeapStart (S : PageSpec P pf running descs) (s : HeapSys μ) : Prop where
  owns : S.Owns s.mem []
  running : s.running = running
  lock : s.lock pf = ⟨none, 0⟩
  descsPos : 0 < descs
  descsEnd : descs + 168 ≤ 2 ^ 32
  vm : ∃ f, s.vm = blockDescInit f descs

/-- A state that a context can come to, with the blocks that it holds then. -/
def HeapReachable (S : PageSpec P pf running descs) (s : HeapSys μ) (live : List (ℕ × ℕ)) : Prop :=
  ∃ s₀, HeapStart S s₀ ∧ ReflTransGen (HeapStep P) (s₀, []) (s, live)

/-! ## The start -/

/-- A heap without pages. -/
def HeapShape.empty : HeapShape := ⟨[], [], fun _ ↦ [], fun _ ↦ 0⟩

/-- What one round of `block_desc_init` writes. -/
theorem initDesc_words (f : Image) (c : Fin 7) (hend : descs + 168 ≤ 2 ^ 32) :
    le32 (initDesc descs f c) (descAt descs c) = sizeOf c ∧
      le32 (initDesc descs f c) (descAt descs c + 4) = perArena c ∧
      le32 (initDesc descs f c) (headAt descs c + 4) = tailAt descs c ∧
      le32 (initDesc descs f c) (tailAt descs c) = headAt descs c := by
  have hdesc := descAt_within descs c
  have hsize := (sizeOf_bounds c).2
  have hper := perArena_lt c
  have hhead : headAt descs c = descAt descs c + 8 := rfl
  have htail : tailAt descs c = descAt descs c + 8 + 8 := rfl
  have hinit : initDesc descs f c = listInit (setWord (setWord f (descAt descs c) (sizeOf c))
      (descAt descs c + 4) (perArena c)) (descAt descs c + 8) := rfl
  rw [hinit, listInit]
  refine ⟨?_, ?_, ?_, ?_⟩
  · rw [le32_setWord_of_disjoint (by omega), le32_setWord_of_disjoint (by omega),
      le32_setWord_of_disjoint (by omega), le32_setWord_of_disjoint (by omega),
      le32_setWord_of_disjoint (by omega), le32_setWord (by omega)]
  · rw [le32_setWord_of_disjoint (by omega), le32_setWord_of_disjoint (by omega),
      le32_setWord_of_disjoint (by omega), le32_setWord_of_disjoint (by omega),
      le32_setWord (by omega)]
  · rw [hhead, htail, le32_setWord_of_disjoint (by omega), le32_setWord_of_disjoint (by omega),
      le32_setWord (by omega)]
  · rw [hhead, htail, le32_setWord_of_disjoint (by omega), le32_setWord (by omega)]

/-- A round leaves the other descriptors alone. -/
theorem initDesc_differsIn (descs : ℕ) (f : Image) (k : ℕ) :
    DiffersIn (descAt descs k) (descAt descs k + 24) f (initDesc descs f k) := by
  have hinit : initDesc descs f k = listInit (setWord (setWord f (descAt descs k) (16 * 2 ^ k))
      (descAt descs k + 4) ((4096 - 12) / (16 * 2 ^ k))) (descAt descs k + 8) := rfl
  rw [hinit]
  exact ((DiffersIn.setWord (le_refl _) (by omega)).trans
    (DiffersIn.setWord (by omega) (by omega))).trans (listInit_differsIn (by omega) (by omega))

/-- `block_desc_init` makes a heap without pages. -/
theorem blockDescInit_stored (f : Image) (hend : descs + 168 ≤ 2 ^ 32) :
    HeapShape.empty.Stored descs (blockDescInit f descs) := by
  have hrun : ∀ n ≤ 7, ∀ c : Fin 7, c.val < n →
      le32 ((List.range n).foldl (initDesc descs) f) (descAt descs c) = sizeOf c ∧
        le32 ((List.range n).foldl (initDesc descs) f) (descAt descs c + 4) = perArena c ∧
        le32 ((List.range n).foldl (initDesc descs) f) (headAt descs c + 4) = tailAt descs c ∧
        le32 ((List.range n).foldl (initDesc descs) f) (tailAt descs c) = headAt descs c := by
    intro n
    induction n with
    | zero => exact fun _ c hc ↦ absurd hc (Nat.not_lt_zero _)
    | succ n ih =>
      intro hn c hc
      rw [List.range_succ, List.foldl_append, List.foldl_cons, List.foldl_nil]
      by_cases heq : c.val = n
      · rw [← heq]
        exact initDesc_words _ c hend
      · obtain ⟨h1, h2, h3, h4⟩ := ih (by omega) c (by omega)
        have hdiff := initDesc_differsIn descs ((List.range n).foldl (initDesc descs) f) n
        have hc : descAt descs c = descs + 24 * c.val := rfl
        have hn : descAt descs n = descs + 24 * n := rfl
        have hhead : headAt descs c = descAt descs c + 8 := rfl
        have htail : tailAt descs c = descAt descs c + 8 + 8 := rfl
        have hagree := hdiff.agree (o := descAt descs c) (n := 24) (by omega)
        exact ⟨(hagree.le32 (by omega) (by omega)).trans h1,
          (hagree.le32 (by omega) (by omega)).trans h2,
          (hagree.le32 (by omega) (by omega)).trans h3,
          (hagree.le32 (by omega) (by omega)).trans h4⟩
  have hsent : ∀ c : Fin 7, headAt descs c = descs + 24 * c.val + 8 ∧
      tailAt descs c = descs + 24 * c.val + 16 := fun c ↦ ⟨rfl, rfl⟩
  have hwords := fun c : Fin 7 ↦ hrun 7 (le_refl 7) c c.isLt
  refine ⟨fun c ↦ (hwords c).1, fun c ↦ (hwords c).2.1, ⟨fun c ↦ ?_, ?_⟩, ?_, ?_⟩
  · refine isList_nil ?_ (hwords c).2.2.1 (hwords c).2.2.2
    have := hsent c
    omega
  · intro c c' hne x hx hx'
    have hval : c.val ≠ c'.val := fun heq ↦ hne (Fin.ext heq)
    have hc := hsent c
    have hc' := hsent c'
    simp only [nodes, HeapShape.empty, List.mem_cons, List.not_mem_nil, or_false] at hx hx'
    omega
  · intro r hr
    cases hr
  · intro r hr
    cases hr

/-- A context that starts holds nothing, and its heap has no pages. -/
theorem HeapStart.ok {S : PageSpec P pf running descs} {s : HeapSys μ} (h : HeapStart S s) :
    HeapOk S s HeapShape.empty [] := by
  obtain ⟨f, hf⟩ := h.vm
  have hnone : ∀ {α : Type} {q : Prop} {x : α}, x ∈ ([] : List α) → q :=
    fun hx ↦ absurd hx List.not_mem_nil
  refine ⟨h.owns, h.running, h.lock, ⟨h.descsPos, h.descsEnd, fun r hr ↦ hnone hr,
    fun r hr ↦ hnone hr, fun r hr ↦ hnone hr, fun r hr ↦ hnone hr, List.Pairwise.nil,
    fun c b hb ↦ hnone hb⟩, hf ▸ blockDescInit_stored f h.descsEnd, fun a c hr ↦ hnone hr,
    fun p hp ↦ hnone hp, ?_, fun r hr ↦ hnone hr, List.nodup_nil⟩
  rintro c b ⟨a, k, hr, -⟩
  exact hnone hr

/-! ## The run -/

section Run

variable {S : PageSpec P pf running descs} {s s' : HeapSys μ} {live live' : List (ℕ × ℕ)}
  {g : HeapShape}

/-- An assignment to blocks that are held is none to the heap. -/
theorem HeapOk.write {f : Image} (h : HeapOk S s g live)
    (hf : ∀ i, (∀ p ∈ live, i < p.1 ∨ p.1 + p.2 ≤ i) → f i = s.vm i) :
    HeapOk S { s with vm := f } g live := by
  refine ⟨h.owns, h.running, h.lock, h.sound, h.stored.congr fun i hi ↦ hf i fun p hp ↦ ?_,
    h.counts, h.lends⟩
  by_contra hin
  exact (h.off hp (by omega) (by omega)).1 hi

/-- Every step leaves a heap. -/
theorem HeapOk.step (h : HeapOk S s g live) (hstep : HeapStep P (s, live) (s', live')) :
    ∃ g', HeapOk S s' g' live' := by
  cases hstep with
  | malloc hret =>
    rcases h.heapMalloc _ with ⟨e, -, hstop⟩ | ⟨r, t, hret', hdone⟩
    · exact absurd hstop hret.ne_error
    · obtain ⟨rfl, rfl⟩ := hret.unique hret'
      exact hdone.2.1
  | full hret =>
    rcases h.heapMalloc _ with ⟨e, -, hstop⟩ | ⟨r, t, hret', hdone⟩
    · exact absurd hstop hret.ne_error
    · obtain ⟨rfl, rfl⟩ := hret.unique hret'
      exact hdone.2.1
  | free hp hret =>
    obtain ⟨t, g', hret', hok, -⟩ := h.heapFree hp
    obtain ⟨-, rfl⟩ := hret.unique hret'
    exact ⟨g', hok⟩
  | write hf => exact ⟨g, h.write hf⟩

/-- Between the calls of a run there is a heap. -/
theorem HeapReachable.ok (h : HeapReachable S s live) : ∃ g, HeapOk S s g live := by
  obtain ⟨s₀, hstart, hrun⟩ := h
  have key : ∀ u : HeapUse μ, ReflTransGen (HeapStep P) (s₀, []) u → ∃ g, HeapOk S u.1 g u.2 := by
    intro u hu
    induction hu with
    | refl => exact ⟨_, hstart.ok⟩
    | tail _ hstep ih =>
      obtain ⟨g, hok⟩ := ih
      exact hok.step hstep
  exact key (s, live) hrun

/-- The blocks do not overlap; each lies behind the header of a run of pages that the heap has, within
the run; and the heap has no run without such a block. -/
def BlocksSound (S : PageSpec P pf running descs) (s : HeapSys μ) (live : List (ℕ × ℕ)) : Prop :=
  Apart live ∧ ∃ rs, S.Owns s.mem rs ∧ Apart (rs.map bytesOf) ∧
    (∀ p ∈ live, ∃ r ∈ rs, r.1 + 12 ≤ p.1 ∧ p.1 + p.2 ≤ r.1 + r.2 * 4096) ∧
      ∀ r ∈ rs, ∃ p ∈ live, r.1 < p.1 ∧ p.1 < r.1 + 4096

/-- The blocks of a context are sound in every state it comes to. -/
theorem heapRun_sound (h : HeapReachable S s live) : BlocksSound S s live := by
  obtain ⟨g, hok⟩ := h.ok
  have hso := hok.sound
  have hl := hok.lends
  have hplace : ∀ p ∈ live, ∃ r ∈ g.runs, r.1 + 12 ≤ p.1 ∧ p.1 + p.2 ≤ r.1 + r.2 * 4096 := by
    intro p hp
    rcases hl.block p hp with ⟨c, hb, hnot, hle⟩ | ⟨r, hr, heq, hle⟩
    · obtain ⟨a, ha, h1, h2⟩ := Sound.block_within hb
      exact ⟨_, mem_runs_small ha, h1, by dsimp only; omega⟩
    · exact ⟨r, mem_runs_large hr, by omega, by omega⟩
  refine ⟨?_, g.runs, hok.owns, hso.apart, hplace, ?_⟩
  · refine List.Pairwise.imp_of_mem ?_ (List.pairwise_map.mp hl.nodup)
    intro p q hp hq hne
    rcases hl.block p hp with ⟨c, hb, hnot, hle⟩ | ⟨r, hr, heq, hle⟩ <;>
      rcases hl.block q hq with ⟨c', hb', hnot', hle'⟩ | ⟨r', hr', heq', hle'⟩
    · rcases hso.block_apart hb hb' with ⟨hpq, -⟩ | hout
      · exact absurd hpq hne
      · omega
    · obtain ⟨a, ha, h1, h2⟩ := Sound.block_within hb
      have := hso.small_large ha hr'
      omega
    · obtain ⟨a, ha, h1, h2⟩ := Sound.block_within hb'
      have := hso.small_large ha hr
      omega
    · rcases hso.runs_apart (mem_runs_large hr) (mem_runs_large hr') with rfl | hout
      · exact absurd (heq.trans heq'.symm) hne
      · omega
  · intro r hr
    rcases List.mem_append.mp hr with hr | hr
    · obtain ⟨⟨a, c⟩, ha, rfl⟩ := List.mem_map.mp hr
      obtain ⟨-, hlt⟩ := hok.counts a c ha
      -- a block of the arena is not free
      obtain ⟨k, hk, hnot⟩ : ∃ k < perArena c, blockAt a c k ∉ g.free c := by
        by_contra hno
        push Not at hno
        have hall : g.freeIn a c = Finset.range (perArena c) := by
          ext k
          rw [mem_freeIn, Finset.mem_range]
          exact ⟨And.left, fun hk ↦ ⟨hk, hno k hk⟩⟩
        rw [hall, Finset.card_range] at hlt
        exact lt_irrefl _ hlt
      obtain ⟨p, hp, heq⟩ := hl.small c _ ⟨a, k, ha, hk, rfl⟩ hnot
      have hwithin := blockAt_within (a := a) hk
      have := (sizeOf_bounds c).1
      refine ⟨p, hp, ?_, ?_⟩
      · dsimp only
        omega
      · dsimp only
        omega
    · obtain ⟨p, hp, heq⟩ := hl.large r hr
      exact ⟨p, hp, by omega, by omega⟩

/-- `sys_malloc` stops only where `malloc_page` stops. It leaves the blocks that are held alone, byte
by byte; a block that it returns is zero, and apart from all others; and there is none only if the
size is none of a block or `malloc_page` has no pages. -/
def MallocSafe (P : Pages μ) (pf : PoolFlags) (s : HeapSys μ) (live : List (ℕ × ℕ)) (size : ℕ) :
    Prop :=
  (∃ e, P.mallocPage pf (pagesFor size) s.mem = .error e ∧ heapMalloc P size s = .error e) ∨
    ∃ r s', Returns (heapMalloc P size) s r s' ∧
      (∀ p ∈ live, ∀ i, p.1 ≤ i → i < p.1 + p.2 → s'.vm i = s.vm i) ∧
        (∀ b, r = some b → Apart ((b, size) :: live) ∧ ∀ j < size, s'.vm (b + j) = 0) ∧
          (r = none → ¬(0 < size ∧ size < P.poolSize s.mem pf) ∨
            ∃ m', Returns (P.mallocPage pf (pagesFor size)) s.mem none m')

/-- `sys_malloc` is safe in every state a context comes to, for every size. -/
theorem heapRun_malloc (h : HeapReachable S s live) (size : ℕ) : MallocSafe P pf s live size := by
  obtain ⟨g, hok⟩ := h.ok
  rcases hok.heapMalloc size with hstop | ⟨r, s', hret, hsame, hdone⟩
  · exact .inl hstop
  · refine .inr ⟨r, s', hret, hsame, ?_, ?_⟩
    · rintro b rfl
      obtain ⟨s₀, hstart, hrun⟩ := h
      exact ⟨(heapRun_sound ⟨s₀, hstart, hrun.tail (.malloc hret)⟩).1, hdone.2⟩
    · rintro rfl
      exact hdone.2

/-- `sys_free` of the block does not stop, and leaves the other blocks alone, byte by byte. -/
def FreeSafe (S : PageSpec P pf running descs) (s : HeapSys μ) (live : List (ℕ × ℕ)) (p : ℕ × ℕ) :
    Prop :=
  ∃ s', Returns (heapFree P p.1) s () s' ∧ HeapReachable S s' (live.erase p) ∧
    ∀ q ∈ live, q ≠ p → ∀ i, q.1 ≤ i → i < q.1 + q.2 → s'.vm i = s.vm i

/-- `sys_free` is safe in every state a context comes to, for every block that it holds. -/
theorem heapRun_free (h : HeapReachable S s live) {p : ℕ × ℕ} (hp : p ∈ live) :
    FreeSafe S s live p := by
  obtain ⟨g, hok⟩ := h.ok
  obtain ⟨s', g', hret, -, hsame⟩ := hok.heapFree hp
  obtain ⟨s₀, hstart, hrun⟩ := h
  exact ⟨s', hret, ⟨s₀, hstart, hrun.tail (.free hp hret)⟩, hsame⟩

end Run

end GlowOS
