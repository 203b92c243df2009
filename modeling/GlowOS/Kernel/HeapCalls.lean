import Mathlib
import GlowOS.Kernel.HeapBlocks

/-!
# The calls of the heap

What the loops and the calls of the heap do, started in memory that says what some `HeapShape` says:
each one returns, in memory that says what another shape says, and it writes no byte that is not the
heap's. The page level is taken as it is described by `PageSpec`.
-/

namespace GlowOS

open Bytes Links Program Ranges HeapShape

variable {μ : Type} {s : HeapSys μ} {g : HeapShape} {descs a b i n : ℕ} {c : Fin 7}

/-! ## Lists -/

/-- Assign memory. -/
def HeapSys.setVm (s : HeapSys μ) (f : Image) : HeapSys μ := { s with vm := f }

@[simp] theorem HeapSys.setVm_vm (s : HeapSys μ) (f : Image) : (s.setVm f).vm = f := rfl

@[simp] theorem HeapSys.setVm_setVm (s : HeapSys μ) (f f' : Image) :
    (s.setVm f).setVm f' = s.setVm f' := rfl

theorem returns_storeWord (a w : ℕ) :
    Returns (storeWord a w) s () (s.setVm (setWord s.vm a w)) := rfl

theorem returns_storeLarge (a : ℕ) (large : Bool) : Returns (storeLarge a large) s ()
    (s.setVm (Function.update s.vm (a + 8) (if large then 1 else 0))) := rfl

theorem returns_loadWord (a : ℕ) : Returns (loadWord a) s (le32 s.vm a) s := rfl

theorem returns_loadWord_of {w : ℕ} (h : le32 s.vm a = w) : Returns (loadWord a) s w s := by
  rw [← h]
  exact returns_loadWord a

theorem returns_clear (ha : a ≠ 0) (n : ℕ) :
    Returns (clear a n) s () (s.setVm (splice s.vm a n fun _ ↦ 0)) :=
  returns_check_bind.mpr ⟨ha, returns_modify.mpr rfl⟩

theorem returns_listAppend (plist e : ℕ) :
    Returns (listAppend plist e) s () (s.setVm (insertWords s.vm (plist + 8) e)) := rfl

theorem returns_listRemove (x : ℕ) :
    Returns (listRemove x) s () (s.setVm (removeWords s.vm x)) := rfl

/-- The walk along a path finds the nodes that are on it. -/
theorem returns_elemFindFrom {plist obj x : ℕ} {xs : List ℕ} {fuel : ℕ}
    (hp : Path (wordLinks s.vm) x xs (plist + 8)) (ht : plist + 8 ∉ xs) (hfuel : xs.length < fuel) :
    Returns (elemFindFrom plist obj fuel (front xs (plist + 8))) s (decide (obj ∈ xs)) s := by
  induction xs generalizing x fuel with
  | nil =>
    obtain ⟨fuel, rfl⟩ := Nat.exists_eq_add_of_lt hfuel
    rw [elemFindFrom, front_nil, if_pos rfl]
    exact returns_pure.mpr ⟨by simp, rfl⟩
  | cons y ys ih =>
    obtain ⟨fuel, rfl⟩ : ∃ k, fuel = k + 1 := ⟨fuel - 1, by omega⟩
    rw [List.mem_cons, not_or] at ht
    rw [elemFindFrom, front_cons, if_neg (Ne.symm ht.1)]
    split_ifs with hy
    · exact returns_pure.mpr ⟨by simp [hy], rfl⟩
    · have hnext : le32 s.vm (y + 4) = front ys (plist + 8) := hp.2.2.next_eq
      refine returns_bind.mpr ⟨_, s, returns_loadWord _, ?_⟩
      rw [hnext]
      have hdec : decide (obj ∈ y :: ys) = decide (obj ∈ ys) := by
        simp [Ne.symm hy]
      rw [hdec]
      refine ih hp.2.2 ht.2 ?_
      rw [List.length_cons] at hfuel
      omega

/-- A free list has fewer elements than there are addresses. -/
theorem HeapShape.Stored.length_lt (hs : g.Stored descs s.vm) (h : g.Sound descs) (c : Fin 7) :
    (g.free c).length < 2 ^ 32 := by
  have hnodup := (hs.lists.list c).nodup
  have hsub : headAt descs c :: tailAt descs c :: g.free c ⊆ List.range (2 ^ 32) :=
    fun x hx ↦ List.mem_range.mpr (h.spaced.lt x (h.node_of_mem hx))
  have hle := (hnodup.subperm hsub).length_le
  rw [List.length_range, List.length_cons, List.length_cons] at hle
  omega

theorem HeapShape.Stored.returns_elemFind (hs : g.Stored descs s.vm) (h : g.Sound descs)
    (c : Fin 7) (b : ℕ) : Returns (elemFind (freeList (descAt descs c)) b) s
      (decide (b ∈ g.free c)) s := by
  have hlist := hs.lists.list c
  refine returns_bind.mpr ⟨_, s, returns_loadWord _, ?_⟩
  have hfirst : le32 s.vm (freeList (descAt descs c) + 4) =
      front (g.free c) (freeList (descAt descs c) + 8) := hlist.next_head
  rw [hfirst]
  exact returns_elemFindFrom hlist.path hlist.tail_notMem (hs.length_lt h c)

theorem HeapShape.Stored.returns_listEmpty (hs : g.Stored descs s.vm) (c : Fin 7) :
    Returns (listEmpty (freeList (descAt descs c))) s (decide (g.free c = [])) s := by
  have hiff : le32 s.vm (freeList (descAt descs c) + 4) = freeList (descAt descs c) + 8 ↔
      g.free c = [] := (hs.lists.list c).next_head_eq_tail_iff
  refine returns_bind.mpr ⟨_, s, returns_loadWord _, returns_pure.mpr ⟨?_, rfl⟩⟩
  rw [Bool.eq_iff_iff, decide_eq_true_iff, beq_iff_eq]
  exact hiff.symm

/-- `list_pop` takes the first element of a list that has one. -/
theorem HeapShape.Stored.returns_listPop (hs : g.Stored descs s.vm) {rest : List ℕ}
    (hfree : g.free c = b :: rest) : Returns (listPop (freeList (descAt descs c))) s b
      (s.setVm (removeWords s.vm b)) := by
  have hlist := hs.lists.list c
  have hfirst : le32 s.vm (freeList (descAt descs c) + 4) = b := by
    have hnext := hlist.next_head
    rw [hfree] at hnext
    exact hnext
  have hne : b ≠ freeList (descAt descs c) + 8 := by
    intro heq
    refine hlist.tail_notMem ?_
    rw [hfree]
    exact List.mem_cons.mpr (.inl heq.symm)
  refine returns_bind.mpr ⟨_, s, returns_loadWord _, ?_⟩
  rw [hfirst]
  refine returns_check_bind.mpr ⟨hne, ?_⟩
  exact returns_bind.mpr ⟨_, _, returns_listRemove b, returns_pure.mpr ⟨rfl, rfl⟩⟩

/-! ## Locks -/

theorem lockAcquire_returns {pf : PoolFlags} (h : s.lock pf = ⟨none, 0⟩) :
    Returns (lockAcquire pf) s () (s.setLock pf ⟨some s.running, 1⟩) := by
  rw [lockAcquire, returns_get_bind, if_pos (by rw [h]; simp)]
  refine returns_check_bind.mpr ⟨by rw [h], returns_check_bind.mpr ⟨by rw [h], ?_⟩⟩
  exact returns_modify.mpr rfl

theorem returns_lockRelease {pf : PoolFlags} (h : s.lock pf = ⟨some s.running, 1⟩) :
    Returns (lockRelease pf) s () (s.setLock pf ⟨none, 0⟩) := by
  rw [lockRelease, returns_get_bind]
  refine returns_check_bind.mpr ⟨by rw [h], ?_⟩
  rw [h, if_neg (lt_irrefl 1)]
  exact returns_check_bind.mpr ⟨rfl, returns_modify.mpr rfl⟩

/-! ## The search for a size -/

/-- The descriptor that is found is one of a size that is large enough. -/
theorem HeapShape.Stored.returns_findDesc (hs : g.Stored descs s.vm) {size : ℕ}
    (hsize : size ≤ 1024) : ∃ c : Fin 7, Returns (findDesc descs size descCnt 0) s c.val s ∧
      size ≤ sizeOf c := by
  have hrun : ∀ left i, i + left = 7 → 0 < left → ∃ c : Fin 7,
      Returns (findDesc descs size left i) s c.val s ∧ size ≤ sizeOf c := by
    intro left
    induction left with
    | zero => exact fun i _ hpos ↦ absurd hpos (lt_irrefl 0)
    | succ left ih =>
      intro i hi hpos
      have hword : le32 s.vm (descAt descs i) = sizeOf ⟨i, by omega⟩ := hs.size ⟨i, by omega⟩
      by_cases hle : size ≤ sizeOf ⟨i, by omega⟩
      · refine ⟨⟨i, by omega⟩, ?_, hle⟩
        refine returns_bind.mpr ⟨_, s, returns_loadWord _, ?_⟩
        rw [hword, if_pos hle]
        exact returns_pure.mpr ⟨rfl, rfl⟩
      · -- the last size is 1024
        have hleft : 0 < left := by
          by_contra hno
          obtain rfl : i = 6 := by omega
          exact hle hsize
        obtain ⟨c, hret, hc⟩ := ih (i + 1) (by omega) hleft
        refine ⟨c, ?_, hc⟩
        refine returns_bind.mpr ⟨_, s, returns_loadWord _, ?_⟩
        rw [hword, if_neg hle]
        exact hret
  exact hrun 7 0 rfl (by decide)

/-! ## Cutting an arena, and taking it together -/

@[simp] theorem HeapShape.setFree_setFree (l l' : List ℕ) :
    (g.setFree c l).setFree c l' = g.setFree c l' := by
  rw [HeapShape.setFree, HeapShape.setFree, HeapShape.setFree, Function.update_idem]

theorem HeapShape.setFree_self : g.setFree c (g.free c) = g := by
  rw [HeapShape.setFree, Function.update_eq_self]

/-- With more free blocks the heap has more bytes. -/
theorem HeapShape.own_setFree {l : List ℕ} (hl : ∀ b ∈ g.free c, b ∈ l) (h : g.Own descs i) :
    (g.setFree c l).Own descs i := by
  rcases h with hd | hr | ⟨c', b, hb, hi⟩
  · exact .inl hd
  · exact .inr (.inl hr)
  · refine .inr (.inr ⟨c', b, ?_, hi⟩)
    by_cases hc : c' = c
    · subst hc
      rw [setFree_free_self]
      exact hl b hb
    · rw [setFree_free_of_ne hc]
      exact hb

/-- With fewer free blocks it has fewer. -/
theorem HeapShape.own_of_setFree {l : List ℕ} (hl : ∀ b ∈ l, b ∈ g.free c)
    (h : (g.setFree c l).Own descs i) : g.Own descs i := by
  have h' := own_setFree (c := c) (l := g.free c) (fun b hb ↦ hl b (by simpa using hb)) h
  rwa [setFree_setFree, setFree_self] at h'

/-- The loop of `sys_malloc` appends the blocks of the arena, one after the other. -/
theorem returns_splitArena {left : ℕ} (h : g.Sound descs) (hs : g.Stored descs s.vm)
    (hr : (a, c) ∈ g.small) (hi : i + left = perArena c)
    (hnew : ∀ k, i ≤ k → blockAt a c k ∉ g.free c) : ∃ f',
      Returns (splitArena a left i) s () (s.setVm f') ∧
      (g.setFree c (g.free c ++ (List.range' i left).map (blockAt a c))).Stored descs f' ∧
      ∀ j, ¬(g.setFree c (g.free c ++ (List.range' i left).map (blockAt a c))).Own descs j →
        f' j = s.vm j := by
  induction left generalizing i g s with
  | zero =>
    refine ⟨s.vm, returns_pure.mpr ⟨rfl, rfl⟩, ?_, fun _ _ ↦ rfl⟩
    rw [List.range'_zero, List.map_nil, List.append_nil, setFree_self]
    exact hs
  | succ left ih =>
    have hblock : g.Block c (blockAt a c i) := ⟨a, i, hr, by omega, rfl⟩
    obtain ⟨hstored, hsame⟩ := hs.append h hblock (hnew i (le_refl i))
    have hsound : (g.setFree c (g.free c ++ [blockAt a c i])).Sound descs := by
      refine h.setFree fun b hb ↦ ?_
      rcases List.mem_append.mp hb with hb | hb
      · exact h.free c b hb
      · rw [List.mem_singleton.mp hb]
        exact hblock
    obtain ⟨f', hret, hstored', hsame'⟩ := ih (i := i + 1)
      (s := s.setVm (insertWords s.vm (tailAt descs c) (blockAt a c i))) hsound hstored hr
      (by omega) (by
        intro k hk hmem
        rw [setFree_free_self] at hmem
        rcases List.mem_append.mp hmem with hmem | hmem
        · exact hnew k (by omega) hmem
        · have := blockAt_inj (List.mem_singleton.mp hmem)
          omega)
    have hlist : (g.setFree c (g.free c ++ [blockAt a c i])).free c ++
        (List.range' (i + 1) left).map (blockAt a c) =
          g.free c ++ (List.range' i (left + 1)).map (blockAt a c) := by
      rw [setFree_free_self, List.range'_succ, List.map_cons, List.append_assoc,
        List.singleton_append]
    rw [setFree_setFree, hlist] at hstored' hsame'
    refine ⟨f', ?_, hstored', fun j hj ↦ (hsame' j hj).trans (hsame j fun hown ↦ hj ?_)⟩
    · obtain ⟨h1, -, -⟩ := hs.small _ hr
      refine returns_bind.mpr ⟨_, s, returns_loadWord a, ?_⟩
      rw [h1]
      refine returns_bind.mpr ⟨_, s, returns_loadWord _, ?_⟩
      rw [hs.size c]
      refine returns_bind.mpr ⟨_, s, hs.returns_elemFind h c _, ?_⟩
      refine returns_check_bind.mpr ⟨decide_eq_false (hnew i (le_refl i)), ?_⟩
      exact returns_bind.mpr ⟨_, _, returns_listAppend _ _, hret⟩
    · have hmono := own_setFree (c := c) (l := g.free c ++ (List.range' i (left + 1)).map
        (blockAt a c)) (fun b hb ↦ ?_) hown
      · rwa [setFree_setFree] at hmono
      · rw [setFree_free_self] at hb
        rw [List.range'_succ, List.map_cons]
        rcases List.mem_append.mp hb with hb | hb
        · exact List.mem_append_left _ hb
        · exact List.mem_append_right _ (List.mem_cons.mpr (.inl (List.mem_singleton.mp hb)))

/-- The loop of `sys_free` takes the blocks of an arena off the list. -/
theorem returns_unlinkArena {left : ℕ} (h : g.Sound descs) (hs : g.Stored descs s.vm)
    (hr : (a, c) ∈ g.small) (hi : i + left = perArena c)
    (hall : ∀ k, i ≤ k → k < perArena c → blockAt a c k ∈ g.free c) : ∃ f' l,
      Returns (unlinkArena a left i) s () (s.setVm f') ∧ (g.setFree c l).Stored descs f' ∧
      (∀ b, b ∈ l ↔ b ∈ g.free c ∧ ∀ k, i ≤ k → k < perArena c → b ≠ blockAt a c k) ∧
      ∀ j, ¬g.Own descs j → f' j = s.vm j := by
  induction left generalizing i g s with
  | zero =>
    refine ⟨s.vm, g.free c, returns_pure.mpr ⟨rfl, rfl⟩, ?_, fun b ↦ ?_, fun _ _ ↦ rfl⟩
    · rw [setFree_self]
      exact hs
    · exact ⟨fun hb ↦ ⟨hb, fun k h1 h2 ↦ by omega⟩, And.left⟩
  | succ left ih =>
    have hin := hall i (le_refl i) (by omega)
    obtain ⟨xs, ys, hq⟩ := List.append_of_mem hin
    obtain ⟨hstored, hsame⟩ := hs.remove h hq
    have hnodup := (hs.lists.list c).nodup_members
    rw [hq] at hnodup
    have hmem : ∀ b, b ∈ xs ++ ys ↔ b ∈ g.free c ∧ b ≠ blockAt a c i := by
      intro b
      have hnot := List.nodup_middle.mp hnodup
      rw [hq, List.mem_append, List.mem_append, List.mem_cons]
      constructor
      · intro hb
        refine ⟨hb.imp_right .inr, ?_⟩
        rintro rfl
        exact (List.nodup_cons.mp hnot).1 (List.mem_append.mpr hb)
      · rintro ⟨hb | rfl | hb, hne⟩
        · exact .inl hb
        · exact absurd rfl hne
        · exact .inr hb
    have hsound : (g.setFree c (xs ++ ys)).Sound descs :=
      h.setFree fun b hb ↦ h.free c b ((hmem b).mp hb).1
    obtain ⟨f', l, hret, hstored', hl, hsame'⟩ := ih (i := i + 1)
      (s := s.setVm (removeWords s.vm (blockAt a c i))) hsound hstored hr (by omega) (by
        intro k h1 h2
        rw [setFree_free_self]
        refine (hmem _).mpr ⟨hall k (by omega) h2, fun heq ↦ ?_⟩
        have := blockAt_inj heq
        omega)
    rw [setFree_setFree] at hstored'
    refine ⟨f', l, ?_, hstored', fun b ↦ (hl b).trans ?_, fun j hj ↦ ?_⟩
    · obtain ⟨h1, -, -⟩ := hs.small _ hr
      refine returns_bind.mpr ⟨_, s, returns_loadWord a, ?_⟩
      rw [h1]
      refine returns_bind.mpr ⟨_, s, returns_loadWord _, ?_⟩
      rw [hs.size c]
      refine returns_bind.mpr ⟨_, s, hs.returns_elemFind h c _, ?_⟩
      refine returns_check_bind.mpr ⟨decide_eq_true hin, ?_⟩
      exact returns_bind.mpr ⟨_, _, returns_listRemove _, hret⟩
    · rw [setFree_free_self, hmem]
      constructor
      · rintro ⟨⟨hb, hne⟩, hrest⟩
        refine ⟨hb, fun k h1 h2 ↦ ?_⟩
        by_cases hk : k = i
        · rw [hk]
          exact hne
        · exact hrest k (by omega) h2
      · rintro ⟨hb, hrest⟩
        exact ⟨⟨hb, hrest i (le_refl i) (by omega)⟩, fun k h1 h2 ↦ hrest k (by omega) h2⟩
    · refine (hsame' j fun hown ↦ hj ?_).trans (hsame j hj)
      exact own_of_setFree (fun b hb ↦ ((hmem b).mp hb).1) hown

/-! ## The page level -/

/-- What the heap of a context relies on: `malloc_page` hands out runs of pages that are new, and
`mfree_page` takes them back. `Owns m rs` says that the runs `rs` are handed out. -/
structure PageSpec (P : Pages μ) (pf : PoolFlags) (running descs : ℕ) where
  Owns : μ → List (ℕ × ℕ) → Prop
  perm : ∀ {m rs rs'}, Owns m rs → rs.Perm rs' → Owns m rs'
  flag : ∀ {m rs}, Owns m rs → P.flag m = pf
  table : ∀ {m rs}, Owns m rs → (if P.kernelThread m then P.kBlockDescs else P.uBlockDesc running) =
    descs
  lowest : ∀ {m rs}, Owns m rs → pf = .kernel → ∀ r ∈ rs, 0xc0100000 ≤ r.1
  malloc : ∀ {m m' rs n a}, Owns m rs → 0 < n → Returns (P.mallocPage pf n) m (some a) m' →
    Owns m' ((a, n) :: rs) ∧ a % 4096 = 0 ∧ 0 < a ∧ a + n * 4096 ≤ 2 ^ 32 ∧
      (descs + 168 ≤ a ∨ a + n * 4096 ≤ descs) ∧
      ∀ r ∈ rs, a + n * 4096 ≤ r.1 ∨ r.1 + r.2 * 4096 ≤ a
  mallocNone : ∀ {m m' rs n}, Owns m rs → 0 < n → Returns (P.mallocPage pf n) m none m' → Owns m' rs
  free : ∀ {m rs a n}, Owns m ((a, n) :: rs) →
    ∃ m', Returns (P.mfreePage pf a n) m () m' ∧ Owns m' rs

section Calls

variable {P : Pages μ} {pf : PoolFlags} {running : ℕ} (S : PageSpec P pf running descs)

/-- Assign the state of the page level. -/
def HeapSys.setMem (s : HeapSys μ) (m : μ) : HeapSys μ := { s with mem := m }

theorem onPages_returns {α : Type} {p : StateT μ (Except Fault) α} {r : α} {m : μ}
    (h : Returns p s.mem r m) : Returns (onPages p) s r (s.setMem m) := by
  rw [onPages, returns_get_bind, show p s.mem = .ok (r, m) from h]
  rfl

theorem onPages_stops {α : Type} {p : StateT μ (Except Fault) α} {e : Fault}
    (h : p s.mem = .error e) : (onPages p : HeapM μ α) s = .error e := by
  rw [onPages, get_run, h]
  rfl

/-! ## Between calls -/

/-- The blocks of an arena that are free. -/
def HeapShape.freeIn (g : HeapShape) (a : ℕ) (c : Fin 7) : Finset ℕ :=
  (Finset.range (perArena c)).filter fun k ↦ blockAt a c k ∈ g.free c

/-- The blocks that were handed out, by address and size, are those of the shape that are not
free. -/
structure HeapShape.Lends (g : HeapShape) (live : List (ℕ × ℕ)) : Prop where
  block : ∀ p ∈ live, (∃ c, g.Block c p.1 ∧ p.1 ∉ g.free c ∧ p.2 ≤ sizeOf c) ∨
    ∃ r ∈ g.large, p.1 = r.1 + 12 ∧ p.2 + 12 ≤ r.2 * 4096
  small : ∀ c b, g.Block c b → b ∉ g.free c → ∃ p ∈ live, p.1 = b
  large : ∀ r ∈ g.large, ∃ p ∈ live, p.1 = r.1 + 12
  nodup : (live.map Prod.fst).Nodup

/-- The heap between two calls. -/
structure HeapOk (s : HeapSys μ) (g : HeapShape) (live : List (ℕ × ℕ)) : Prop where
  owns : S.Owns s.mem g.runs
  running : s.running = running
  lock : s.lock pf = ⟨none, 0⟩
  sound : g.Sound descs
  stored : g.Stored descs s.vm
  counts : ∀ a c, (a, c) ∈ g.small → g.cnt a = (g.freeIn a c).card ∧
    (g.freeIn a c).card < perArena c
  lends : g.Lends live

variable {S} {live : List (ℕ × ℕ)} {p : ℕ × ℕ}

/-- The bytes of a block that was handed out are in a run of the heap, and not the heap's. -/
theorem HeapOk.off (h : HeapOk S s g live) (hp : p ∈ live) (h1 : p.1 ≤ i) (h2 : i < p.1 + p.2) :
    ¬g.Own descs i ∧ ∃ r ∈ g.runs, r.1 + 12 ≤ p.1 ∧ p.1 + p.2 ≤ r.1 + r.2 * 4096 := by
  rcases h.lends.block p hp with ⟨c, hb, hnot, hle⟩ | ⟨r, hr, heq, hle⟩
  · refine ⟨fun hown ↦ ?_, ?_⟩
    · have := h.sound.own_off_block hb hnot hown
      omega
    · obtain ⟨a, ha, h3, h4⟩ := Sound.block_within hb
      exact ⟨_, mem_runs_small ha, h3, by dsimp only; omega⟩
  · refine ⟨?_, r, mem_runs_large hr, by omega, by omega⟩
    have hoff := h.sound.offDescs r (mem_runs_large hr)
    rintro (hd | ⟨r', hr', hi⟩ | ⟨c, b, hb, hi⟩)
    · omega
    · have := (h.sound.pos r' hr').2
      rcases h.sound.runs_apart (mem_runs_large hr) hr' with rfl | hout
      · omega
      · omega
    · obtain ⟨a, ha, h3, h4⟩ := Sound.block_within (h.sound.free c b hb)
      have := h.sound.small_large ha hr
      omega

/-- A run that the page level hands out is new to the heap. -/
theorem HeapOk.fresh (h : HeapOk S s g live) (hn : 0 < n) {m : μ}
    (hret : Returns (P.mallocPage pf n) s.mem (some a) m) : g.Fresh descs (a, n) := by
  obtain ⟨-, h1, h2, h3, h4, h5⟩ := S.malloc h.owns hn hret
  exact ⟨h1, ⟨h2, hn⟩, h3, h4, h5⟩

theorem setLock_setLock (s : HeapSys μ) {l l' : PoolLock} (h : s.lock pf = l') :
    (s.setLock pf l).setLock pf l' = s := by
  subst h
  rw [HeapSys.setLock, HeapSys.setLock, Function.update_idem, Function.update_eq_self]

/-! ## Taking a block -/

section Taking

variable {k : ℕ} {rest l : List ℕ} {size : ℕ}

theorem HeapShape.freeIn_congr {g' : HeapShape}
    (h : ∀ k < perArena c, blockAt a c k ∈ g'.free c ↔ blockAt a c k ∈ g.free c) :
    g'.freeIn a c = g.freeIn a c :=
  Finset.filter_congr fun k hk ↦ h k (Finset.mem_range.mp hk)

theorem HeapShape.mem_freeIn : k ∈ g.freeIn a c ↔ k < perArena c ∧ blockAt a c k ∈ g.free c := by
  rw [freeIn, Finset.mem_filter, Finset.mem_range]

theorem HeapShape.card_freeIn_le : (g.freeIn a c).card ≤ perArena c := by
  refine (Finset.card_filter_le _ _).trans ?_
  rw [Finset.card_range]

/-- All blocks of an arena are free when as many are free as there are. -/
theorem HeapShape.all_free (h : (g.freeIn a c).card = perArena c) (hk : k < perArena c) :
    blockAt a c k ∈ g.free c := by
  have hall : g.freeIn a c = Finset.range (perArena c) :=
    Finset.eq_of_subset_of_card_le (Finset.filter_subset _ _) (by rw [h, Finset.card_range])
  exact (mem_freeIn.mp (hall ▸ Finset.mem_range.mpr hk)).2

/-- The blocks of another arena are free or not as before. -/
theorem HeapShape.Sound.freeIn_other (h : g.Sound descs) {a' : ℕ} {c' : Fin 7}
    (hr : (a, c) ∈ g.small) (hr' : (a', c') ∈ g.small) (hne : a' ≠ a)
    (hl : ∀ x, (∀ k < perArena c, x ≠ blockAt a c k) → (x ∈ l ↔ x ∈ g.free c)) :
    (g.setFree c l).freeIn a' c' = g.freeIn a' c' := by
  refine freeIn_congr fun k hk ↦ ?_
  by_cases hc : c' = c
  · subst hc
    rw [setFree_free_self]
    refine hl _ fun k' hk' heq ↦ ?_
    have h1 := blockAt_within (a := a') hk
    have h2 := blockAt_within (a := a) hk'
    have := h.arena_eq hr hr'
    omega
  · rw [setFree_free_of_ne hc]

/-- The heap between the search for a block and taking it: the lock is held, and the arena at `a`
may have free blocks only. -/
structure HeapReady (S : PageSpec P pf running descs) (s : HeapSys μ) (g : HeapShape)
    (live : List (ℕ × ℕ)) (a : ℕ) : Prop where
  owns : S.Owns s.mem g.runs
  running : s.running = running
  lock : s.lock pf = ⟨some s.running, 1⟩
  sound : g.Sound descs
  stored : g.Stored descs s.vm
  counts : ∀ a c, (a, c) ∈ g.small → g.cnt a = (g.freeIn a c).card
  others : ∀ a' c, (a', c) ∈ g.small → a' ≠ a → (g.freeIn a' c).card < perArena c
  lends : g.Lends live

/-- The blocks that are lent after a free one was taken. -/
theorem HeapShape.Lends.take (hl : g.Lends live) (h : g.Sound descs) (hfree : g.free c = b :: rest)
    (hnodup : (b :: rest).Nodup) (hsize : size ≤ sizeOf c) :
    (g.setFree c rest).Lends ((b, size) :: live) := by
  have hin : b ∈ g.free c := hfree ▸ List.mem_cons_self
  have hb := h.free c b hin
  have hnot := (List.nodup_cons.mp hnodup).1
  have hsub : ∀ c' x, x ∈ (g.setFree c rest).free c' → x ∈ g.free c' := by
    intro c' x hx
    by_cases hc : c' = c
    · subst hc
      rw [setFree_free_self] at hx
      exact hfree ▸ List.mem_cons_of_mem _ hx
    · rwa [setFree_free_of_ne hc] at hx
  refine ⟨?_, ?_, ?_, ?_⟩
  · intro p hp
    rcases List.mem_cons.mp hp with rfl | hp
    · exact .inl ⟨c, hb, by rwa [setFree_free_self], hsize⟩
    · rcases hl.block p hp with ⟨c', hb', hnot', hle⟩ | hlarge
      · exact .inl ⟨c', hb', fun hx ↦ hnot' (hsub c' _ hx), hle⟩
      · exact .inr hlarge
  · intro c' x hx hxfree
    by_cases hxin : x ∈ g.free c'
    · refine ⟨(b, size), List.mem_cons_self, ?_⟩
      by_cases hc : c' = c
      · subst hc
        rw [setFree_free_self] at hxfree
        rw [hfree] at hxin
        exact ((List.mem_cons.mp hxin).resolve_right hxfree).symm
      · rw [setFree_free_of_ne hc] at hxfree
        exact absurd hxin hxfree
    · obtain ⟨p, hp, heq⟩ := hl.small c' x hx hxin
      exact ⟨p, List.mem_cons_of_mem _ hp, heq⟩
  · intro r hr
    obtain ⟨p, hp, heq⟩ := hl.large r hr
    exact ⟨p, List.mem_cons_of_mem _ hp, heq⟩
  · rw [List.map_cons, List.nodup_cons]
    refine ⟨fun hmem ↦ ?_, hl.nodup⟩
    obtain ⟨p, hp, heq⟩ := List.mem_map.mp hmem
    dsimp only at heq
    rcases hl.block p hp with ⟨c', hb', hnot', -⟩ | ⟨r, hr, heq', -⟩
    · rw [heq] at hb' hnot'
      have := (sizeOf_bounds c).1
      have := (sizeOf_bounds c').1
      rcases h.block_apart hb hb' with ⟨-, rfl⟩ | hout
      · exact hnot' hin
      · omega
    · obtain ⟨a, ha, h1, h2⟩ := Sound.block_within hb
      have := h.small_large ha hr
      have := (h.pos r (mem_runs_large hr)).2
      omega

/-- The part of `sys_malloc` that takes a block from a list that has one. -/
theorem HeapReady.pop (h : HeapReady S s g live a) (hfree : g.free c = b :: rest)
    (hr : (a, c) ∈ g.small) (hk : k < perArena c) (hb : b = blockAt a c k)
    (hsize : size ≤ sizeOf c) : ∃ s' g', Returns (sysMallocPop pf (descAt descs c)) s (some b) s' ∧
      HeapOk S s' g' ((b, size) :: live) ∧ (∀ j < sizeOf c, s'.vm (b + j) = 0) ∧
      ∀ j, ¬g.Own descs j → s'.vm j = s.vm j := by
  have hnodup := (h.stored.lists.list c).nodup_members
  rw [hfree] at hnodup
  have hnot := (List.nodup_cons.mp hnodup).1
  have hin : b ∈ g.free c := hfree ▸ List.mem_cons_self
  have hblock := h.sound.free c b hin
  have hrun := mem_runs_small hr
  have hwithin := blockAt_within (a := a) hk
  rw [← hb] at hwithin
  -- the block comes off the list
  have hq : g.free c = [] ++ b :: rest := hfree
  obtain ⟨hst₁, hsame₁⟩ := h.stored.remove h.sound hq
  rw [List.nil_append] at hst₁
  have hso₁ : (g.setFree c rest).Sound descs :=
    h.sound.setFree fun x hx ↦ h.sound.free c x (hfree ▸ List.mem_cons_of_mem _ hx)
  -- it is cleared
  have hst₂ : (g.setFree c rest).Stored descs
      (splice (removeWords s.vm b) b (sizeOf c) fun _ ↦ 0) := by
    refine hst₁.congr fun i hi ↦ splice_of_disjoint ?_
    exact hso₁.own_off_block hblock (by rwa [setFree_free_self]) hi
  -- the count goes down by one
  have hcard : (g.freeIn a c).card ≤ perArena c := card_freeIn_le
  have hper := perArena_lt c
  have hpos : 0 < (g.freeIn a c).card := Finset.card_pos.mpr ⟨k, mem_freeIn.mpr ⟨hk, hb ▸ hin⟩⟩
  have hcnt := h.counts a c hr
  have hdec : (g.cnt a + 2 ^ 32 - 1) % 2 ^ 32 = g.cnt a - 1 := by omega
  obtain ⟨hst₃, hsame₃⟩ := hst₂.setCnt hso₁ hr (n := g.cnt a - 1) (by omega)
  have hfreeIn : (g.setFree c rest).freeIn a c = (g.freeIn a c).erase k := by
    ext x
    rw [mem_freeIn, Finset.mem_erase, mem_freeIn, setFree_free_self, hfree, List.mem_cons]
    constructor
    · rintro ⟨hx, hmem⟩
      exact ⟨fun hxk ↦ hnot (by rwa [hxk, ← hb] at hmem), hx, .inr hmem⟩
    · rintro ⟨hne, hx, heq | hmem⟩
      · exact absurd (blockAt_inj (heq.trans hb)) hne
      · exact ⟨hx, hmem⟩
  have hpage : block2arena b = a := block2arena_of_within (h.sound.aligned _ hrun) (by omega) (by
    have := (sizeOf_bounds c).1
    omega)
  refine ⟨(s.setVm (setWord (splice (removeWords s.vm b) b (sizeOf c) fun _ ↦ 0) (a + 4)
    (g.cnt a - 1))).setLock pf ⟨none, 0⟩, (g.setFree c rest).setCnt a (g.cnt a - 1), ?_,
    ⟨h.owns, h.running, Function.update_self .., hso₁.setCnt, hst₃, ?_, ?_⟩, ?_, ?_⟩
  · refine returns_bind.mpr ⟨_, _, h.stored.returns_listPop hfree, ?_⟩
    refine returns_bind.mpr ⟨_, _, returns_loadWord _, ?_⟩
    rw [HeapSys.setVm_vm, hst₁.size c]
    have hpos := (h.sound.pos _ hrun).1
    dsimp only at hpos
    refine returns_bind.mpr ⟨_, _, returns_clear (by omega) _, ?_⟩
    refine returns_bind.mpr ⟨_, _, returns_loadWord _, ?_⟩
    rw [HeapSys.setVm_vm, HeapSys.setVm_vm, HeapSys.setVm_setVm, hpage, (hst₂.small _ hr).2.1]
    refine returns_bind.mpr ⟨_, _, returns_storeWord _ _, ?_⟩
    refine returns_bind.mpr ⟨_, _, returns_lockRelease h.lock, returns_pure.mpr ⟨rfl, ?_⟩⟩
    rw [← hdec]
    rfl
  · intro a' c' hr'
    by_cases hne : a' = a
    · subst hne
      obtain ⟨-, rfl⟩ : a' = a' ∧ c = c' := by
        rcases h.sound.arena_eq hr hr' with heq | hout
        · exact heq
        · omega
      have hcard' : ((g.freeIn a' c).erase k).card = (g.freeIn a' c).card - 1 :=
        Finset.card_erase_of_mem (mem_freeIn.mpr ⟨hk, hb ▸ hin⟩)
      change Function.update g.cnt a' (g.cnt a' - 1) a' = ((g.setFree c rest).freeIn a' c).card ∧
        ((g.setFree c rest).freeIn a' c).card < perArena c
      rw [Function.update_self, hfreeIn, hcard']
      omega
    · have hother : (g.setFree c rest).freeIn a' c' = g.freeIn a' c' := by
        refine h.sound.freeIn_other hr hr' hne fun x hx ↦ ?_
        rw [hfree, List.mem_cons]
        exact ⟨.inr, fun hmem ↦ hmem.resolve_left fun heq ↦ hx k hk (heq.trans hb)⟩
      change Function.update g.cnt a (g.cnt a - 1) a' = ((g.setFree c rest).freeIn a' c').card ∧
        ((g.setFree c rest).freeIn a' c').card < perArena c'
      rw [Function.update_of_ne hne, hother]
      exact ⟨h.counts a' c' hr', h.others a' c' hr' hne⟩
  · have hl := h.lends.take h.sound hfree hnodup hsize
    exact ⟨hl.block, hl.small, hl.large, hl.nodup⟩
  · intro j hj
    change setWord _ (a + 4) _ (b + j) = 0
    rw [setWord_of_outside (by omega), splice_of_mem (by omega) (by omega)]
  · intro j hj
    have hj₁ : ¬(g.setFree c rest).Own descs j := fun hown ↦
      hj (own_of_setFree (fun x hx ↦ hfree ▸ List.mem_cons_of_mem _ hx) hown)
    have hjb : j < b ∨ b + sizeOf c ≤ j := by
      by_contra hin'
      exact hj (.inr (.inr ⟨c, b, hin, by omega, by omega⟩))
    exact (hsame₃ j hj₁).trans ((splice_of_disjoint hjb).trans (hsame₁ j hj))

end Taking

/-! ## A new arena -/

section Arena

variable {m : μ} {k size : ℕ} {rest l : List ℕ}

/-- Memory after the header of a new arena was written. -/
def arenaWords (f : Image) (a desc per : ℕ) : Image :=
  setWord (Function.update (setWord (splice f a 4096 fun _ ↦ 0) a desc) (a + 8) 0) (a + 4) per

theorem arenaWords_of_outside {f : Image} {a desc per i : ℕ} (h : i < a ∨ a + 4096 ≤ i) :
    arenaWords f a desc per i = f i := by
  rw [arenaWords, setWord_of_outside (by omega), Function.update_of_ne (by omega),
    setWord_of_outside (by omega), splice_of_disjoint h]

/-- A byte that is no part of a word is not read with it. -/
theorem le32_update {f : Image} {a o : ℕ} {v : UInt8} (h : o < a ∨ a + 4 ≤ o) :
    le32 (Function.update f o v) a = le32 f a :=
  le32_congr fun i hi ↦ Function.update_of_ne (by omega) ..

/-- The blocks that are lent when an arena was added, all blocks of which are free. -/
theorem HeapShape.Lends.addArena (hl : g.Lends live) (h : g.Sound descs)
    (hr : g.Fresh descs (a, 1)) (hfree : g.free c = [])
    (hall : ∀ x, x ∈ l ↔ ∃ k < perArena c, x = blockAt a c k) :
    ((g.addSmall a c).setFree c l).Lends live := by
  have hold : ∀ c' x, g.Block c' x → (x ∈ ((g.addSmall a c).setFree c l).free c' ↔
      x ∈ g.free c') := by
    intro c' x hx
    by_cases hc : c' = c
    · subst hc
      rw [setFree_free_self, hall, hfree]
      refine iff_of_false ?_ (List.not_mem_nil)
      rintro ⟨k, hk, rfl⟩
      obtain ⟨a', ha', h1, h2⟩ := Sound.block_within hx
      have h3 := blockAt_within (a := a) hk
      have hsize := (sizeOf_bounds c').1
      have := hr.apart _ (mem_runs_small ha')
      dsimp only at this
      omega
    · rw [setFree_free_of_ne hc]
      exact Iff.rfl
  refine ⟨?_, ?_, hl.large, hl.nodup⟩
  · intro p hp
    rcases hl.block p hp with ⟨c', hb, hnot, hle⟩ | hlarge
    · refine .inl ⟨c', ?_, fun hx ↦ hnot ((hold c' _ hb).mp hx), hle⟩
      obtain ⟨a', k, ha', hk, heq⟩ := hb
      exact ⟨a', k, List.mem_cons_of_mem _ ha', hk, heq⟩
    · exact .inr hlarge
  · rintro c' x ⟨a', k, ha', hk, rfl⟩ hnot
    rcases List.mem_cons.mp ha' with heq | ha'
    · obtain ⟨rfl, rfl⟩ := Prod.mk.inj heq
      rw [setFree_free_self] at hnot
      exact absurd ((hall _).mpr ⟨k, hk, rfl⟩) hnot
    · have hb : g.Block c' (blockAt a' c' k) := ⟨a', k, ha', hk, rfl⟩
      exact hl.small c' _ hb fun hx ↦ hnot ((hold c' _ hb).mpr hx)

/-- A new page is made an arena and cut into blocks. -/
theorem HeapReady.split (h : HeapReady S s g live a) (hfree : g.free c = [])
    (hret : Returns (P.mallocPage pf 1) s.mem (some a) m) : ∃ f' g',
      Returns (splitArena a (perArena c) 0)
        ((s.setMem m).setVm (arenaWords s.vm a (descAt descs c) (perArena c))) ()
        ((s.setMem m).setVm f') ∧
      HeapReady S ((s.setMem m).setVm f') g' live a ∧ (a, c) ∈ g'.small ∧
      g'.free c = (List.range' 0 (perArena c)).map (blockAt a c) ∧
      ∀ j, ¬g.Own descs j → (j < a ∨ a + 4096 ≤ j) → f' j = s.vm j ∧ ¬g'.Own descs j := by
  obtain ⟨howns, h1, h2, h3, h4, h5⟩ := S.malloc h.owns Nat.one_pos hret
  have hfresh : g.Fresh descs (a, 1) := ⟨h1, ⟨h2, Nat.one_pos⟩, h3, h4, h5⟩
  have hdesc := h.sound.descsEnd
  have hdescLt : descAt descs c < 2 ^ 32 := by
    have := descAt_within descs c
    omega
  have hper := perArena_lt c
  have hstored : (g.addSmall a c).Stored descs
      (arenaWords s.vm a (descAt descs c) (perArena c)) := by
    refine h.stored.addSmall h.sound hfresh (fun i hi ↦ arenaWords_of_outside hi) ?_ ?_ ?_
    · rw [arenaWords, setWord, le32_splice_of_disjoint (by omega), le32_update (by omega),
        le32_setWord hdescLt]
    · exact le32_setWord (by omega)
    · rw [arenaWords, setWord_of_outside (by omega), Function.update_self]
  have hsound := h.sound.addSmall (c := c) hfresh
  have hmem : (a, c) ∈ (g.addSmall a c).small := List.mem_cons_self
  have hnil : (g.addSmall a c).free c = [] := hfree
  obtain ⟨f', hsplit, hst', hsame'⟩ := returns_splitArena
    (s := (s.setMem m).setVm (arenaWords s.vm a (descAt descs c) (perArena c))) (i := 0)
    hsound hstored hmem (Nat.zero_add _) (fun k _ hin ↦ by
      rw [hnil] at hin
      cases hin)
  rw [hnil, List.nil_append] at hst' hsame'
  have hall : ∀ x, x ∈ (List.range' 0 (perArena c)).map (blockAt a c) ↔
      ∃ k < perArena c, x = blockAt a c k := by
    intro x
    rw [List.mem_map]
    constructor
    · rintro ⟨k, hk, rfl⟩
      rw [List.mem_range'_1] at hk
      exact ⟨k, by omega, rfl⟩
    · rintro ⟨k, hk, rfl⟩
      exact ⟨k, List.mem_range'_1.mpr ⟨Nat.zero_le k, by omega⟩, rfl⟩
  refine ⟨f', (g.addSmall a c).setFree c ((List.range' 0 (perArena c)).map (blockAt a c)), hsplit,
    ⟨howns, h.running, h.lock, hsound.setFree fun x hx ↦ ?_, hst', ?_, ?_,
    h.lends.addArena h.sound hfresh hfree hall⟩, hmem, setFree_free_self, ?_⟩
  · obtain ⟨k, hk, rfl⟩ := (hall x).mp hx
    exact ⟨a, k, hmem, hk, rfl⟩
  · intro a' c' hr'
    rcases List.mem_cons.mp hr' with heq | hold
    · obtain ⟨rfl, rfl⟩ := Prod.mk.inj heq
      have hfull : ((g.addSmall a' c').setFree c'
          ((List.range' 0 (perArena c')).map (blockAt a' c'))).freeIn a' c' =
            Finset.range (perArena c') := by
        ext k
        rw [mem_freeIn, setFree_free_self, hall, Finset.mem_range]
        exact ⟨And.left, fun hk ↦ ⟨hk, k, hk, rfl⟩⟩
      rw [hfull, Finset.card_range]
      exact Function.update_self ..
    · have hne : a' ≠ a := by
        have := hfresh.apart _ (mem_runs_small hold)
        dsimp only at this
        omega
      rw [hsound.freeIn_other hmem hr' hne fun x hx ↦ ?_]
      · exact (Function.update_of_ne hne ..).trans (h.counts a' c' hold)
      · rw [hall, hnil]
        refine iff_of_false ?_ List.not_mem_nil
        rintro ⟨k, hk, heq⟩
        exact hx k hk heq
  · intro a' c' hr' hne
    rcases List.mem_cons.mp hr' with heq | hold
    · exact absurd (Prod.mk.inj heq).1 hne
    · rw [hsound.freeIn_other hmem hr' hne fun x hx ↦ ?_]
      · exact h.others a' c' hold hne
      · rw [hall, hnil]
        refine iff_of_false ?_ List.not_mem_nil
        rintro ⟨k, hk, heq⟩
        exact hx k hk heq
  · intro j hj hout
    have hown : ¬((g.addSmall a c).setFree c
        ((List.range' 0 (perArena c)).map (blockAt a c))).Own descs j := by
      rintro (hd | ⟨r, hr, hi⟩ | ⟨c', b, hb, hi⟩)
      · exact hj (.inl hd)
      · rcases List.mem_cons.mp hr with rfl | hr
        · dsimp only at hi
          omega
        · exact hj (.inr (.inl ⟨r, hr, hi⟩))
      · by_cases hc : c' = c
        · subst hc
          rw [setFree_free_self] at hb
          obtain ⟨k, hk, rfl⟩ := (hall b).mp hb
          have := blockAt_within (a := a) hk
          omega
        · rw [setFree_free_of_ne hc] at hb
          exact hj (.inr (.inr ⟨c', b, hb, hi⟩))
    exact ⟨(hsame' j hown).trans (arenaWords_of_outside hout), hown⟩

end Arena

/-! ## `sys_malloc` -/

section Malloc

variable {size : ℕ}

/-- The number of pages that `sys_malloc` asks for when it needs pages. -/
def pagesFor (size : ℕ) : ℕ := if 1024 < size then (size + arenaSize + pgSize - 1) / pgSize else 1

/-- What a call that returns has done: the blocks that were held are held, with their bytes, and a
block that is returned is cleared. There is none only for a size that is no size of a block, and
where the page level has no page. -/
def MallocDone (S : PageSpec P pf running descs) (s s' : HeapSys μ) (live : List (ℕ × ℕ))
    (size : ℕ) (r : Option ℕ) : Prop :=
  (∀ p ∈ live, ∀ i, p.1 ≤ i → i < p.1 + p.2 → s'.vm i = s.vm i) ∧
    match r with
    | none => (∃ g', HeapOk S s' g' live) ∧ (¬(0 < size ∧ size < P.poolSize s.mem pf) ∨
        ∃ m', Returns (P.mallocPage pf (pagesFor size)) s.mem none m')
    | some b => (∃ g', HeapOk S s' g' ((b, size) :: live)) ∧ ∀ j < size, s'.vm (b + j) = 0

/-- With the lock held, and no arena that is all free. -/
theorem HeapOk.locked (h : HeapOk S s g live) (a : ℕ) :
    HeapReady S (s.setLock pf ⟨some s.running, 1⟩) g live a :=
  ⟨h.owns, h.running, Function.update_self .., h.sound, h.stored,
    fun a c hr ↦ (h.counts a c hr).1, fun a c hr _ ↦ (h.counts a c hr).2, h.lends⟩

/-- A call for which the page level has no page changes nothing. -/
theorem HeapOk.unsupplied (h : HeapOk S s g live) {m : μ} (hn : 0 < n)
    (hret : Returns (P.mallocPage pf n) s.mem none m) :
    HeapOk S (((s.setLock pf ⟨some s.running, 1⟩).setMem m).setLock pf ⟨none, 0⟩) g live :=
  ⟨S.mallocNone h.owns hn hret, h.running, Function.update_self .., h.sound, h.stored, h.counts,
    h.lends⟩

/-- The bytes of a block that is held, when a run of pages is new. -/
theorem HeapOk.off_fresh (h : HeapOk S s g live) {r p : ℕ × ℕ} (hr : g.Fresh descs r)
    (hp : p ∈ live) (h1 : p.1 ≤ i) (h2 : i < p.1 + p.2) :
    ¬g.Own descs i ∧ (i < r.1 ∨ r.1 + r.2 * 4096 ≤ i) := by
  obtain ⟨hown, r', hr', h3, h4⟩ := h.off hp h1 h2
  have := hr.apart r' hr'
  exact ⟨hown, by omega⟩

/-- The part of `sys_malloc` for at most 1024 bytes. -/
theorem HeapOk.mallocSmall (h : HeapOk S s g live) (hsize : size ≤ 1024) :
    (∃ e, P.mallocPage pf (pagesFor size) s.mem = .error e ∧
      sysMallocSmall P pf descs size (s.setLock pf ⟨some s.running, 1⟩) = .error e) ∨
    ∃ r s', Returns (sysMallocSmall P pf descs size) (s.setLock pf ⟨some s.running, 1⟩) r s' ∧
      MallocDone S s s' live size r := by
  have hready := fun a ↦ h.locked a
  have hst := h.stored
  have hpages : pagesFor size = 1 := if_neg (by omega)
  obtain ⟨c, hfind, hle⟩ := HeapShape.Stored.returns_findDesc (s := s.setLock pf ⟨some s.running, 1⟩)
    hst hsize
  have hempty := HeapShape.Stored.returns_listEmpty (s := s.setLock pf ⟨some s.running, 1⟩) hst c
  cases hfree : g.free c with
  | cons b rest =>
    refine .inr ?_
    obtain ⟨a, k, hr, hk, hb⟩ := h.sound.free c b (hfree ▸ List.mem_cons_self)
    obtain ⟨s', g', hret, hok, hzero, hsame⟩ := (hready a).pop hfree hr hk hb hle
    refine ⟨some b, s', ?_, ?_, ⟨g', hok⟩, fun j hj ↦ hzero j (by omega)⟩
    · refine returns_bind.mpr ⟨_, _, hfind, returns_bind.mpr ⟨_, _, hempty, ?_⟩⟩
      rw [hfree, decide_eq_false (List.cons_ne_nil b rest), if_neg (by decide)]
      exact hret
    · exact fun p hp i h1 h2 ↦ hsame i (h.off hp h1 h2).1
  | nil =>
    rw [hfree, decide_eq_true rfl] at hempty
    cases hpage : P.mallocPage pf 1 s.mem with
    | error e =>
      refine .inl ⟨e, hpages ▸ hpage, ?_⟩
      rw [sysMallocSmall, hfind.bind_run, hempty.bind_run, if_pos rfl]
      exact bind_stop (onPages_stops hpage)
    | ok res =>
      obtain ⟨r, m⟩ := res
      have hpage' : Returns (P.mallocPage pf 1) (s.setLock pf ⟨some s.running, 1⟩).mem r m := hpage
      refine .inr ?_
      cases r with
      | none =>
        refine ⟨none, ((s.setLock pf ⟨some s.running, 1⟩).setMem m).setLock pf ⟨none, 0⟩, ?_,
          fun p hp i h1 h2 ↦ rfl, ⟨g, h.unsupplied Nat.one_pos hpage⟩, .inr ⟨m, hpages ▸ hpage⟩⟩
        refine returns_bind.mpr ⟨_, _, hfind, returns_bind.mpr ⟨_, _, hempty, ?_⟩⟩
        rw [if_pos rfl]
        refine returns_bind.mpr ⟨_, _, onPages_returns hpage', ?_⟩
        exact returns_bind.mpr ⟨_, _, returns_lockRelease (hready 0).lock,
          returns_pure.mpr ⟨rfl, rfl⟩⟩
      | some a =>
        have hfresh := h.fresh Nat.one_pos hpage
        obtain ⟨f', g', hsplit, hready', hr', hfree', hsame'⟩ := (hready a).split hfree hpage'
        have hcons : g'.free c = blockAt a c 0 ::
            (List.range' 1 (perArena c - 1)).map (blockAt a c) := by
          have hsucc : perArena c = perArena c - 1 + 1 := by
            have := perArena_pos c
            omega
          rw [hfree', hsucc, List.range'_succ, List.map_cons]
          rfl
        obtain ⟨s', g'', hret, hok, hzero, hsame⟩ :=
          hready'.pop hcons hr' (perArena_pos c) rfl hle
        refine ⟨some (blockAt a c 0), s', ?_, ?_, ⟨g'', hok⟩, fun j hj ↦ hzero j (by omega)⟩
        · refine returns_bind.mpr ⟨_, _, hfind, returns_bind.mpr ⟨_, _, hempty, ?_⟩⟩
          rw [if_pos rfl]
          refine returns_bind.mpr ⟨_, _, onPages_returns hpage', ?_⟩
          have hpos := hfresh.pos.1
          dsimp only at hpos
          refine returns_bind.mpr ⟨_, _, returns_clear (by omega) _, ?_⟩
          refine returns_bind.mpr ⟨_, _, returns_storeWord _ _, ?_⟩
          refine returns_bind.mpr ⟨_, _, returns_storeLarge _ _, ?_⟩
          -- the descriptor is elsewhere
          have hper : le32 (Function.update (setWord (splice s.vm a pgSize fun _ ↦ 0) a
              (descAt descs c)) (a + 8) 0) (descAt descs c + 4) = perArena c := by
            have hoff := hfresh.offDescs
            have hdesc := descAt_within descs c
            dsimp only at hoff
            rw [le32_update (by omega), setWord, le32_splice_of_disjoint (by omega),
              le32_splice_of_disjoint (by rw [pgSize]; omega)]
            exact h.stored.per c
          refine returns_bind.mpr ⟨_, _, returns_loadWord_of hper, ?_⟩
          refine returns_bind.mpr ⟨_, _, returns_storeWord _ _, ?_⟩
          exact returns_bind.mpr ⟨_, _, hsplit, hret⟩
        · intro p hp i h1 h2
          obtain ⟨hown, hout⟩ := h.off_fresh hfresh hp h1 h2
          obtain ⟨h3, h4⟩ := hsame' i hown (by
            dsimp only at hout
            omega)
          exact (hsame i h4).trans h3

/-- The blocks that are lent when a large one was added. -/
theorem HeapShape.Lends.addLarge {r : ℕ × ℕ} {size : ℕ} (hl : g.Lends live) (h : g.Sound descs)
    (hr : g.Fresh descs r) (hsize : size + 12 ≤ r.2 * 4096) :
    (g.addLarge r).Lends ((r.1 + 12, size) :: live) := by
  refine ⟨?_, ?_, ?_, ?_⟩
  · intro p hp
    rcases List.mem_cons.mp hp with rfl | hp
    · exact .inr ⟨r, List.mem_cons_self, rfl, hsize⟩
    · rcases hl.block p hp with hsmall | ⟨r', hr', heq⟩
      · exact .inl hsmall
      · exact .inr ⟨r', List.mem_cons_of_mem _ hr', heq⟩
  · intro c x hx hnot
    obtain ⟨p, hp, heq⟩ := hl.small c x hx hnot
    exact ⟨p, List.mem_cons_of_mem _ hp, heq⟩
  · intro r' hr'
    rcases List.mem_cons.mp hr' with rfl | hr'
    · exact ⟨_, List.mem_cons_self, rfl⟩
    · obtain ⟨p, hp, heq⟩ := hl.large r' hr'
      exact ⟨p, List.mem_cons_of_mem _ hp, heq⟩
  · rw [List.map_cons, List.nodup_cons]
    refine ⟨fun hmem ↦ ?_, hl.nodup⟩
    obtain ⟨p, hp, heq⟩ := List.mem_map.mp hmem
    dsimp only at heq
    rcases hl.block p hp with ⟨c, hb, -, -⟩ | ⟨r', hr', heq', -⟩
    · obtain ⟨a, ha, h1, h2⟩ := Sound.block_within hb
      have hout := hr.apart _ (mem_runs_small ha)
      have := (sizeOf_bounds c).1
      dsimp only at hout
      omega
    · have hout := hr.apart _ (mem_runs_large hr')
      have := (h.pos r' (mem_runs_large hr')).2
      omega

/-- The part of `sys_malloc` for more than 1024 bytes. -/
theorem HeapOk.mallocLarge {size : ℕ} (h : HeapOk S s g live) (hsize : 1024 < size) :
    (∃ e, P.mallocPage pf (pagesFor size) s.mem = .error e ∧
      sysMallocLarge P pf size (s.setLock pf ⟨some s.running, 1⟩) = .error e) ∨
    ∃ r s', Returns (sysMallocLarge P pf size) (s.setLock pf ⟨some s.running, 1⟩) r s' ∧
      MallocDone S s s' live size r := by
  obtain ⟨n, hn⟩ : ∃ n, n = (size + arenaSize + pgSize - 1) / pgSize := ⟨_, rfl⟩
  have hpages : pagesFor size = n := (if_pos hsize).trans hn.symm
  have hpos : 0 < n := by
    rw [hn, arenaSize, pgSize]
    omega
  have hroom : size + 12 ≤ n * 4096 := by
    rw [hn, arenaSize, pgSize]
    omega
  have hlock := (h.locked 0).lock
  cases hpage : P.mallocPage pf n s.mem with
  | error e =>
    refine .inl ⟨e, hpages ▸ hpage, ?_⟩
    rw [sysMallocLarge, ← hn]
    exact bind_stop (onPages_stops hpage)
  | ok res =>
    obtain ⟨r, m⟩ := res
    have hpage' : Returns (P.mallocPage pf n) (s.setLock pf ⟨some s.running, 1⟩).mem r m := hpage
    refine .inr ?_
    cases r with
    | none =>
      refine ⟨none, ((s.setLock pf ⟨some s.running, 1⟩).setMem m).setLock pf ⟨none, 0⟩, ?_,
        fun p hp i h1 h2 ↦ rfl, ⟨g, h.unsupplied hpos hpage⟩, .inr ⟨m, hpages ▸ hpage⟩⟩
      rw [sysMallocLarge, ← hn]
      refine returns_bind.mpr ⟨_, _, onPages_returns hpage', ?_⟩
      exact returns_bind.mpr ⟨_, _, returns_lockRelease hlock, returns_pure.mpr ⟨rfl, rfl⟩⟩
    | some a =>
      have hfresh := h.fresh hpos hpage
      have hapos := hfresh.pos.1
      have hfits := hfresh.fits
      dsimp only at hapos hfits
      obtain ⟨f, hf⟩ : ∃ f, f = Function.update (setWord (setWord (splice s.vm a (n * pgSize)
        fun _ ↦ 0) a 0) (a + 4) n) (a + 8) 1 := ⟨_, rfl⟩
      have houtside : ∀ i, i < a ∨ a + n * 4096 ≤ i → f i = s.vm i := by
        intro i hi
        rw [hf, Function.update_of_ne (by omega), setWord_of_outside (by omega),
          setWord_of_outside (by omega), splice_of_disjoint (by rw [pgSize]; omega)]
      refine ⟨some (a + arenaSize), (((s.setLock pf ⟨some s.running, 1⟩).setMem m).setVm f).setLock
        pf ⟨none, 0⟩, ?_, ?_, ⟨g.addLarge (a, n), ?_, h.running, Function.update_self ..,
          h.sound.addLarge hfresh, ?_, h.counts, h.lends.addLarge h.sound hfresh hroom⟩, ?_⟩
      · rw [sysMallocLarge, ← hn]
        refine returns_bind.mpr ⟨_, _, onPages_returns hpage', ?_⟩
        refine returns_bind.mpr ⟨_, _, returns_clear (by omega) _, ?_⟩
        refine returns_bind.mpr ⟨_, _, returns_storeWord _ _, ?_⟩
        refine returns_bind.mpr ⟨_, _, returns_storeWord _ _, ?_⟩
        refine returns_bind.mpr ⟨_, _, returns_storeLarge _ _, ?_⟩
        refine returns_bind.mpr ⟨_, _, returns_lockRelease hlock, returns_pure.mpr ⟨rfl, ?_⟩⟩
        rw [hf]
        rfl
      · intro p hp i h1 h2
        exact houtside i (h.off_fresh hfresh hp h1 h2).2
      · exact S.perm (S.malloc h.owns hpos hpage).1 runs_addLarge.symm
      · refine h.stored.addLarge h.sound hfresh houtside ?_ ?_ ?_
        · change le32 f a = 0
          rw [hf, le32_update (by omega), setWord, le32_splice_of_disjoint (by omega),
            le32_setWord (by decide)]
        · change le32 f (a + 4) = n
          rw [hf, le32_update (by omega), le32_setWord (by omega)]
        · change f (a + 8) = 1
          rw [hf, Function.update_self]
      · intro j hj
        change f (a + arenaSize + j) = 0
        rw [hf, arenaSize, Function.update_of_ne (by omega), setWord_of_outside (by omega),
          setWord_of_outside (by omega), splice_of_mem (by omega) (by rw [pgSize]; omega)]

/-- `sys_malloc` does what it is there for, unless the page level stops. -/
theorem HeapOk.heapMalloc (h : HeapOk S s g live) (size : ℕ) :
    (∃ e, P.mallocPage pf (pagesFor size) s.mem = .error e ∧ heapMalloc P size s = .error e) ∨
    ∃ r s', Returns (heapMalloc P size) s r s' ∧ MallocDone S s s' live size r := by
  have hflag : P.flag s.mem = pf := S.flag h.owns
  have hdescs : P.descs s = descs := by
    rw [Pages.descs, h.running]
    exact S.table h.owns
  have hacquire := lockAcquire_returns h.lock
  by_cases hsize : 0 < size ∧ size < P.poolSize s.mem pf
  · by_cases hlarge : 1024 < size
    · have hrun : GlowOS.heapMalloc P size s =
          sysMallocLarge P pf size (s.setLock pf ⟨some s.running, 1⟩) := by
        rw [GlowOS.heapMalloc, get_run, hflag, if_neg (not_not.mpr hsize), hacquire.bind_run,
          if_pos hlarge]
      rcases h.mallocLarge hlarge with ⟨e, hpage, hstop⟩ | ⟨r, s', hret, hdone⟩
      · exact .inl ⟨e, hpage, hrun.trans hstop⟩
      · exact .inr ⟨r, s', hrun.trans hret, hdone⟩
    · have hrun : GlowOS.heapMalloc P size s =
          sysMallocSmall P pf descs size (s.setLock pf ⟨some s.running, 1⟩) := by
        rw [GlowOS.heapMalloc, get_run, hflag, hdescs, if_neg (not_not.mpr hsize),
          hacquire.bind_run, if_neg hlarge]
      rcases h.mallocSmall (not_lt.mp hlarge) with ⟨e, hpage, hstop⟩ | ⟨r, s', hret, hdone⟩
      · exact .inl ⟨e, hpage, hrun.trans hstop⟩
      · exact .inr ⟨r, s', hrun.trans hret, hdone⟩
  · refine .inr ⟨none, s, ?_, fun p hp i h1 h2 ↦ rfl, ⟨g, h⟩, .inl hsize⟩
    rw [Returns, GlowOS.heapMalloc, get_run, hflag, if_pos hsize]
    rfl

end Malloc

/-! ## `sys_free` -/

section Free

variable {k : ℕ} {l : List ℕ}

theorem HeapShape.Lends.fst_ne (hl : g.Lends live) {q : ℕ × ℕ} (hp : p ∈ live) (hq : q ∈ live)
    (hne : q ≠ p) : q.1 ≠ p.1 := by
  intro heq
  exact hne (List.inj_on_of_nodup_map hl.nodup hq hp heq)

theorem HeapShape.Lends.mem_erase (hl : g.Lends live) {q : ℕ × ℕ} :
    q ∈ live.erase p ↔ q ≠ p ∧ q ∈ live := (List.Nodup.of_map _ hl.nodup).mem_erase_iff

theorem HeapShape.Lends.nodup_erase (hl : g.Lends live) :
    ((live.erase p).map Prod.fst).Nodup :=
  hl.nodup.sublist (List.Sublist.map _ List.erase_sublist)

/-- The blocks that are lent after one was given back to its list. -/
theorem HeapShape.Lends.give (hl : g.Lends live) (h : g.Sound descs) (hp : p ∈ live)
    (hb : g.Block c p.1) : (g.setFree c (g.free c ++ [p.1])).Lends (live.erase p) := by
  have hfree : ∀ c' x, g.Block c' x → (x ∈ (g.setFree c (g.free c ++ [p.1])).free c' ↔
      x ∈ g.free c' ∨ x = p.1) := by
    intro c' x hx
    by_cases hc : c' = c
    · subst hc
      rw [setFree_free_self, List.mem_append, List.mem_singleton]
    · rw [setFree_free_of_ne hc]
      refine (or_iff_left ?_).symm
      rintro rfl
      rcases h.block_apart hx hb with ⟨-, heq⟩ | hout
      · exact hc heq
      · have := (sizeOf_bounds c).1
        have := (sizeOf_bounds c').1
        omega
  refine ⟨?_, ?_, ?_, hl.nodup_erase⟩
  · intro q hq
    obtain ⟨hne, hq⟩ := hl.mem_erase.mp hq
    rcases hl.block q hq with ⟨c', hb', hnot, hle⟩ | hlarge
    · refine .inl ⟨c', hb', fun hx ↦ ?_, hle⟩
      exact ((hfree c' _ hb').mp hx).elim hnot (hl.fst_ne hp hq hne)
    · exact .inr hlarge
  · intro c' x hx hnot
    obtain ⟨hnot, hne⟩ := not_or.mp fun hor ↦ hnot ((hfree c' x hx).mpr hor)
    obtain ⟨q, hq, rfl⟩ := hl.small c' x hx hnot
    exact ⟨q, hl.mem_erase.mpr ⟨fun heq ↦ hne (congrArg Prod.fst heq), hq⟩, rfl⟩
  · intro r hr
    obtain ⟨q, hq, heq⟩ := hl.large r hr
    refine ⟨q, hl.mem_erase.mpr ⟨fun hqp ↦ ?_, hq⟩, heq⟩
    subst hqp
    obtain ⟨a, ha, h1, h2⟩ := Sound.block_within hb
    have hout := h.small_large ha hr
    have := (h.pos r (mem_runs_large hr)).2
    have := (sizeOf_bounds c).1
    omega

/-- An arena stands once in the list. -/
theorem HeapShape.Sound.mem_eraseSmall (h : g.Sound descs) (hr : (a, c) ∈ g.small) {a' : ℕ}
    {c' : Fin 7} (hr' : (a', c') ∈ (g.eraseSmall a c).small) : a' ≠ a ∧ (a', c') ∈ g.small := by
  have hnodup : g.small.Nodup := by
    have happ := h.apart
    rw [runs, List.map_append, List.map_map] at happ
    have hpair := List.pairwise_map.mp (List.pairwise_append.mp happ).1
    refine hpair.imp fun hxy heq ↦ ?_
    subst heq
    dsimp only [Function.comp_apply, bytesOf] at hxy
    omega
  obtain ⟨hne, hmem⟩ := hnodup.mem_erase_iff.mp hr'
  refine ⟨fun heq ↦ hne ?_, hmem⟩
  rcases h.arena_eq hr hmem with ⟨rfl, rfl⟩ | hout
  · rfl
  · omega

/-- The blocks that are lent after an arena was taken away, all blocks of which were free. -/
theorem HeapShape.Lends.eraseArena (hl : g.Lends live) (h : g.Sound descs) (hr : (a, c) ∈ g.small)
    (hall : ∀ k < perArena c, blockAt a c k ∈ g.free c)
    (hmem : ∀ x, x ∈ l ↔ x ∈ g.free c ∧ ∀ k < perArena c, x ≠ blockAt a c k) :
    ((g.setFree c l).eraseSmall a c).Lends live := by
  have hsub : ∀ c' x, x ∈ (g.setFree c l).free c' → x ∈ g.free c' := by
    intro c' x hx
    by_cases hc : c' = c
    · subst hc
      rw [setFree_free_self] at hx
      exact ((hmem x).mp hx).1
    · rwa [setFree_free_of_ne hc] at hx
  refine ⟨?_, ?_, hl.large, hl.nodup⟩
  · intro q hq
    rcases hl.block q hq with ⟨c', ⟨a', k, ha', hk, heq⟩, hnot, hle⟩ | hlarge
    · refine .inl ⟨c', ⟨a', k, (List.mem_erase_of_ne ?_).mpr ha', hk, heq⟩,
        fun hx ↦ hnot (hsub c' _ hx), hle⟩
      intro hpair
      obtain ⟨rfl, rfl⟩ := Prod.mk.inj hpair
      exact hnot (heq ▸ hall k hk)
    · exact .inr hlarge
  · rintro c' x ⟨a', k, ha', hk, rfl⟩ hnot
    obtain ⟨hne, hold⟩ := h.mem_eraseSmall hr ha'
    refine hl.small c' _ ⟨a', k, hold, hk, rfl⟩ fun hx ↦ hnot ?_
    by_cases hc : c' = c
    · subst hc
      change _ ∈ (g.setFree c' l).free c'
      rw [setFree_free_self, hmem]
      refine ⟨hx, fun k' hk' heq ↦ ?_⟩
      have h1 := blockAt_within (a := a') hk
      have h2 := blockAt_within (a := a) hk'
      have := h.arena_eq hr hold
      omega
    · change _ ∈ (g.setFree c l).free c'
      rwa [setFree_free_of_ne hc]

/-- The blocks that are lent after a large one was given back. -/
theorem HeapShape.Lends.eraseLarge (hl : g.Lends live) (h : g.Sound descs) {r : ℕ × ℕ}
    (hr : r ∈ g.large) (hp : p ∈ live) (heq : p.1 = r.1 + 12) :
    (g.eraseLarge r).Lends (live.erase p) := by
  refine ⟨?_, ?_, ?_, hl.nodup_erase⟩
  · intro q hq
    obtain ⟨hne, hq⟩ := hl.mem_erase.mp hq
    rcases hl.block q hq with hsmall | ⟨r', hr', heq', hle⟩
    · exact .inl hsmall
    · refine .inr ⟨r', (List.mem_erase_of_ne fun hrr ↦ ?_).mpr hr', heq', hle⟩
      subst hrr
      exact hl.fst_ne hp hq hne (heq'.trans heq.symm)
  · intro c x hx hnot
    obtain ⟨q, hq, rfl⟩ := hl.small c x hx hnot
    refine ⟨q, hl.mem_erase.mpr ⟨fun hqp ↦ ?_, hq⟩, rfl⟩
    subst hqp
    obtain ⟨a, ha, h1, h2⟩ := Sound.block_within hx
    have hout := h.small_large ha hr
    have := (h.pos r (mem_runs_large hr)).2
    have := (sizeOf_bounds c).1
    omega
  · intro r' hr'
    obtain ⟨q, hq, heq'⟩ := hl.large r' (List.mem_of_mem_erase hr')
    refine ⟨q, hl.mem_erase.mpr ⟨fun hqp ↦ ?_, hq⟩, heq'⟩
    subst hqp
    -- two runs with one address would overlap
    have hnodup : g.large.Nodup := by
      have happ := h.apart
      rw [runs, List.map_append] at happ
      have hpair := List.pairwise_map.mp (List.pairwise_append.mp happ).2.1
      refine hpair.imp_of_mem fun {x y} hx hy hxy heq ↦ ?_
      subst heq
      have := (h.pos x (mem_runs_large hx)).2
      dsimp only [bytesOf] at hxy
      omega
    obtain ⟨hne, hmem⟩ := hnodup.mem_erase_iff.mp hr'
    have hpos := (h.pos r (mem_runs_large hr)).2
    have hpos' := (h.pos r' (mem_runs_large hmem)).2
    rcases h.runs_apart (mem_runs_large hr) (mem_runs_large hmem) with hrr | hout
    · exact hne hrr.symm
    · omega

/-- A block of the list that is given back: what the heap is then. -/
theorem HeapOk.freeSmall (h : HeapOk S s g live) (hp : p ∈ live) (hb : g.Block c p.1)
    (hnot : p.1 ∉ g.free c) : ∃ s' g',
      Returns (sysFreeSmall P pf (block2arena p.1) p.1) (s.setLock pf ⟨some s.running, 1⟩) ()
        (s'.setLock pf ⟨some s.running, 1⟩) ∧ HeapOk S s' g' (live.erase p) ∧
      ∀ j, ¬g.Own descs j → (j < p.1 ∨ p.1 + sizeOf c ≤ j) → s'.vm j = s.vm j := by
  obtain ⟨a, k, hr, hk, hpa⟩ := hb
  have hb : g.Block c p.1 := ⟨a, k, hr, hk, hpa⟩
  have hrun := mem_runs_small hr
  have hwithin := blockAt_within (a := a) hk
  rw [← hpa] at hwithin
  have hsz := (sizeOf_bounds c).1
  have hpage : block2arena p.1 = a :=
    block2arena_of_within (h.sound.aligned _ hrun) (by omega) (by omega)
  -- the block goes to the end of its list
  obtain ⟨hst₁, hsame₁⟩ := h.stored.append h.sound hb hnot
  have hso₁ : (g.setFree c (g.free c ++ [p.1])).Sound descs := by
    refine h.sound.setFree fun x hx ↦ ?_
    rcases List.mem_append.mp hx with hx | hx
    · exact h.sound.free c x hx
    · rw [List.mem_singleton.mp hx]
      exact hb
  have hl₁ := h.lends.give h.sound hp hb
  have hfreeIn : (g.setFree c (g.free c ++ [p.1])).freeIn a c = insert k (g.freeIn a c) := by
    ext x
    rw [mem_freeIn, Finset.mem_insert, mem_freeIn, setFree_free_self, List.mem_append,
      List.mem_singleton, hpa]
    constructor
    · rintro ⟨hx, hmem | heq⟩
      · exact .inr ⟨hx, hmem⟩
      · exact .inl (blockAt_inj heq)
    · rintro (rfl | ⟨hx, hmem⟩)
      · exact ⟨hk, .inr rfl⟩
      · exact ⟨hx, .inl hmem⟩
  have hcard : ((g.setFree c (g.free c ++ [p.1])).freeIn a c).card = (g.freeIn a c).card + 1 := by
    rw [hfreeIn]
    exact Finset.card_insert_of_notMem fun hmem ↦ hnot (hpa ▸ (mem_freeIn.mp hmem).2)
  have hother : ∀ a' c', (a', c') ∈ g.small → a' ≠ a →
      (g.setFree c (g.free c ++ [p.1])).freeIn a' c' = g.freeIn a' c' := by
    intro a' c' hr' hne
    refine h.sound.freeIn_other hr hr' hne fun x hx ↦ ?_
    rw [List.mem_append, List.mem_singleton]
    exact or_iff_left fun heq ↦ hx k hk (heq.trans hpa)
  have hown : ∀ j, ¬g.Own descs j → (j < p.1 ∨ p.1 + sizeOf c ≤ j) →
      ¬(g.setFree c (g.free c ++ [p.1])).Own descs j := by
    rintro j hj hout (hd | hrs | ⟨c', x, hx, hi⟩)
    · exact hj (.inl hd)
    · exact hj (.inr (.inl hrs))
    · by_cases hc : c' = c
      · subst hc
        rw [setFree_free_self] at hx
        rcases List.mem_append.mp hx with hx | hx
        · exact hj (.inr (.inr ⟨c', x, hx, hi⟩))
        · rw [List.mem_singleton.mp hx] at hi
          omega
      · rw [setFree_free_of_ne hc] at hx
        exact hj (.inr (.inr ⟨c', x, hx, hi⟩))
  -- the count goes up by one
  obtain ⟨hcnt, hlt⟩ := h.counts a c hr
  have hper := perArena_lt c
  have hinc : (g.cnt a + 1) % 2 ^ 32 = g.cnt a + 1 := by omega
  obtain ⟨hst₂, hsame₂⟩ := hst₁.setCnt hso₁ hr (n := g.cnt a + 1) (by omega)
  have hso₂ : ((g.setFree c (g.free c ++ [p.1])).setCnt a (g.cnt a + 1)).Sound descs := hso₁.setCnt
  have hdesc : le32 s.vm a = descAt descs c := (h.stored.small _ hr).1
  have hword : le32 (insertWords s.vm (tailAt descs c) p.1) (a + 4) = g.cnt a :=
    (hst₁.small _ hr).2.1
  have hperWord : le32 (setWord (insertWords s.vm (tailAt descs c) p.1) (a + 4) (g.cnt a + 1))
      (descAt descs c + 4) = perArena c := hst₂.per c
  have hret : ∀ s', Returns (if g.cnt a + 1 = perArena c then do
        unlinkArena a (perArena c) 0
        onPages (P.mfreePage pf a 1)
      else pure ()) ((s.setVm (setWord (insertWords s.vm (tailAt descs c) p.1) (a + 4)
        (g.cnt a + 1))).setLock pf ⟨some s.running, 1⟩) () s' →
      Returns (sysFreeSmall P pf (block2arena p.1) p.1) (s.setLock pf ⟨some s.running, 1⟩) () s' := by
    intro s' hrest
    rw [hpage]
    refine returns_bind.mpr ⟨_, _, returns_loadWord_of hdesc, ?_⟩
    refine returns_bind.mpr ⟨_, _, returns_listAppend _ _, ?_⟩
    refine returns_bind.mpr ⟨_, _, returns_loadWord_of hword, ?_⟩
    rw [hinc]
    refine returns_bind.mpr ⟨_, _, returns_storeWord _ _, ?_⟩
    exact returns_bind.mpr ⟨_, _, returns_loadWord_of hperWord, hrest⟩
  by_cases hfull : g.cnt a + 1 = perArena c
  · rw [if_pos hfull] at hret
    -- the arena is all free: its blocks leave the list, and its page goes back
    have hall : ∀ x < perArena c, blockAt a c x ∈ (g.setFree c (g.free c ++ [p.1])).free c :=
      fun x hx ↦ all_free (by omega) hx
    obtain ⟨f', l, hunlink, hst₃, hl₃, hsame₃⟩ := returns_unlinkArena
      (s := (s.setVm (setWord (insertWords s.vm (tailAt descs c) p.1) (a + 4)
        (g.cnt a + 1))).setLock pf ⟨some s.running, 1⟩) hso₂ hst₂ hr (Nat.zero_add _)
      (fun x _ hx ↦ hall x hx)
    have hmem : ∀ x, x ∈ l ↔ x ∈ (g.setFree c (g.free c ++ [p.1])).free c ∧
        ∀ k < perArena c, x ≠ blockAt a c k := by
      intro x
      rw [hl₃]
      exact and_congr_right fun _ ↦ ⟨fun hx k hk ↦ hx k (Nat.zero_le k) hk,
        fun hx k _ hk ↦ hx k hk⟩
    have hso₃ : (((g.setFree c (g.free c ++ [p.1])).setCnt a (g.cnt a + 1)).setFree c l).Sound
        descs := hso₂.setFree fun x hx ↦ hso₁.free c x ((hmem x).mp hx).1
    have hused : ∀ k < perArena c, blockAt a c k ∉
        (((g.setFree c (g.free c ++ [p.1])).setCnt a (g.cnt a + 1)).setFree c l).free c := by
      intro k hk hin
      rw [setFree_free_self] at hin
      exact ((hmem _).mp hin).2 k hk rfl
    obtain ⟨m', hmfree, howns⟩ := S.free (S.perm h.owns (runs_eraseSmall hr))
    have hmfree' : Returns (P.mfreePage pf a 1) s.mem () m' := hmfree
    refine ⟨(s.setMem m').setVm f',
      (((g.setFree c (g.free c ++ [p.1])).setCnt a (g.cnt a + 1)).setFree c l).eraseSmall a c,
      hret _ (returns_bind.mpr ⟨_, _, hunlink, onPages_returns hmfree'⟩),
      ⟨howns, h.running, h.lock, hso₃.eraseSmall hr hused, hst₃.eraseSmall, ?_, ?_⟩, ?_⟩
    · intro a' c' hr'
      obtain ⟨hne, hr'⟩ := h.sound.mem_eraseSmall hr hr'
      have hsame : (((g.setFree c (g.free c ++ [p.1])).setCnt a (g.cnt a + 1)).setFree c l).freeIn
          a' c' = g.freeIn a' c' := by
        have hrest := hso₂.freeIn_other (l := l) hr hr' hne fun x hx ↦ by
          rw [hmem]
          exact and_iff_left hx
        exact hrest.trans (hother a' c' hr' hne)
      change Function.update g.cnt a (g.cnt a + 1) a' = _ ∧ _
      rw [Function.update_of_ne hne]
      have hcounts := h.counts a' c' hr'
      rw [← hsame] at hcounts
      exact hcounts
    · have hlend := hl₁.eraseArena hso₁ hr hall hmem
      rw [setFree_setFree] at hlend
      have hshape : ((g.setFree c (g.free c ++ [p.1])).setCnt a (g.cnt a + 1)).setFree c l =
          (g.setFree c l).setCnt a (g.cnt a + 1) := by
        rw [HeapShape.setFree, HeapShape.setCnt, HeapShape.setFree, HeapShape.setCnt,
          HeapShape.setFree, Function.update_idem]
      rw [hshape]
      exact ⟨hlend.block, hlend.small, hlend.large, hlend.nodup⟩
    · intro j hj hout
      have hj₁ := hown j hj hout
      exact (hsame₃ j hj₁).trans ((hsame₂ j hj₁).trans (hsame₁ j hj₁))
  · rw [if_neg hfull] at hret
    refine ⟨s.setVm (setWord (insertWords s.vm (tailAt descs c) p.1) (a + 4) (g.cnt a + 1)),
      (g.setFree c (g.free c ++ [p.1])).setCnt a (g.cnt a + 1), hret _ (returns_pure.mpr ⟨rfl, rfl⟩),
      ⟨h.owns, h.running, h.lock, hso₂, hst₂, ?_, ?_⟩, ?_⟩
    · intro a' c' hr'
      by_cases hne : a' = a
      · subst hne
        obtain ⟨-, rfl⟩ : a' = a' ∧ c = c' := by
          rcases h.sound.arena_eq hr hr' with heq | hout
          · exact heq
          · omega
        change Function.update g.cnt a' (g.cnt a' + 1) a' =
          ((g.setFree c (g.free c ++ [p.1])).freeIn a' c).card ∧
            ((g.setFree c (g.free c ++ [p.1])).freeIn a' c).card < perArena c
        rw [Function.update_self, hcard]
        omega
      · change Function.update g.cnt a (g.cnt a + 1) a' =
          ((g.setFree c (g.free c ++ [p.1])).freeIn a' c').card ∧
            ((g.setFree c (g.free c ++ [p.1])).freeIn a' c').card < perArena c'
        rw [Function.update_of_ne hne, hother a' c' hr' hne]
        exact h.counts a' c' hr'
    · exact ⟨hl₁.block, hl₁.small, hl₁.large, hl₁.nodup⟩
    · intro j hj hout
      have hj₁ := hown j hj hout
      exact (hsame₂ j hj₁).trans (hsame₁ j hj₁)

/-- `sys_free` of a block that is held gives it back, and nothing else. -/
theorem HeapOk.heapFree (h : HeapOk S s g live) (hp : p ∈ live) : ∃ s' g',
    Returns (heapFree P p.1) s () s' ∧ HeapOk S s' g' (live.erase p) ∧
      ∀ q ∈ live, q ≠ p → ∀ i, q.1 ≤ i → i < q.1 + q.2 → s'.vm i = s.vm i := by
  have hflag : P.flag s.mem = pf := S.flag h.owns
  have hacquire := lockAcquire_returns h.lock
  -- what is common to both kinds of block
  have hstart : ∀ r ∈ g.runs, r.1 + 12 ≤ p.1 → ∀ t s', Returns (sysFreeLocked P pf p.1)
      (s.setLock pf ⟨some s.running, 1⟩) () t → Returns (lockRelease pf) t () s' →
      Returns (GlowOS.heapFree P p.1) s () s' := by
    intro r hr hle t s' hfree hrelease
    have hpos := (h.sound.pos r hr).1
    refine returns_check_bind.mpr ⟨by omega, returns_get_bind.mpr ?_⟩
    rw [hflag]
    refine returns_check_bind.mpr ⟨fun hk ↦ ?_, ?_⟩
    · have := S.lowest h.owns hk r hr
      omega
    · refine returns_bind.mpr ⟨_, _, hacquire, returns_bind.mpr ⟨_, _, hfree, hrelease⟩⟩
  rcases h.lends.block p hp with ⟨c, hb, hnot, hle⟩ | ⟨r, hr, heq, hle⟩
  · obtain ⟨a, ha, h1, h2⟩ := Sound.block_within hb
    have hrun := mem_runs_small ha
    have hsz := (sizeOf_bounds c).1
    have hpage : block2arena p.1 = a :=
      block2arena_of_within (h.sound.aligned _ hrun) (by omega) (by omega)
    obtain ⟨s', g', hret, hok, hsame⟩ := h.freeSmall hp hb hnot
    obtain ⟨hdesc, -, hflagByte⟩ := h.stored.small _ ha
    have hpos := h.sound.descsPos
    have hne : descAt descs c ≠ 0 := by
      have := (descAt_within descs c).1
      omega
    refine ⟨s', g', hstart _ hrun h1 (s'.setLock pf ⟨some s.running, 1⟩) _ ?_ ?_, hok, ?_⟩
    · rw [sysFreeLocked, hpage]
      refine returns_get_bind.mpr (returns_check_bind.mpr ⟨.inl hflagByte, ?_⟩)
      refine returns_bind.mpr ⟨_, _, returns_loadWord_of hdesc, ?_⟩
      rw [if_neg fun hand ↦ hne hand.1, ← hpage]
      exact hret
    · have hrelease : Returns (lockRelease pf) (s'.setLock pf ⟨some s.running, 1⟩) ()
          ((s'.setLock pf ⟨some s.running, 1⟩).setLock pf ⟨none, 0⟩) := returns_lockRelease (by
        have hrun' : s.running = s'.running := h.running.trans hok.running.symm
        change Function.update s'.lock pf _ pf = ⟨some s'.running, 1⟩
        rw [Function.update_self, hrun'])
      rwa [setLock_setLock s' hok.lock] at hrelease
    · intro q hq hqp i hi1 hi2
      refine hsame i (h.off hq hi1 hi2).1 ?_
      rcases h.lends.block q hq with ⟨c', hb', -, hle'⟩ | ⟨r, hr, heq, hle'⟩
      · rcases h.sound.block_apart hb hb' with ⟨hpq, -⟩ | hout
        · exact absurd hpq.symm (h.lends.fst_ne hp hq hqp)
        · omega
      · have := h.sound.small_large ha hr
        omega
  · have hrun := mem_runs_large hr
    have hpos := (h.sound.pos r hrun).2
    have hpage : block2arena p.1 = r.1 :=
      block2arena_of_within (h.sound.aligned _ hrun) (by omega) (by omega)
    obtain ⟨hdesc, hcnt, hflagByte⟩ := h.stored.large _ hr
    obtain ⟨m', hmfree, howns⟩ := S.free (S.perm h.owns (runs_eraseLarge hr))
    refine ⟨s.setMem m', g.eraseLarge r,
      hstart _ hrun (by omega) ((s.setMem m').setLock pf ⟨some s.running, 1⟩) _ ?_ ?_,
      ⟨howns, h.running, h.lock, h.sound.eraseLarge hr, h.stored.eraseLarge, h.counts,
        h.lends.eraseLarge h.sound hr hp heq⟩, fun q hq hqp i hi1 hi2 ↦ rfl⟩
    · rw [sysFreeLocked, hpage]
      refine returns_get_bind.mpr (returns_check_bind.mpr ⟨.inr hflagByte, ?_⟩)
      refine returns_bind.mpr ⟨_, _, returns_loadWord_of hdesc, ?_⟩
      rw [if_pos ⟨rfl, hflagByte⟩]
      refine returns_bind.mpr ⟨_, _, returns_loadWord_of hcnt, ?_⟩
      exact onPages_returns hmfree
    · have hrelease : Returns (lockRelease pf) ((s.setMem m').setLock pf ⟨some s.running, 1⟩) ()
          (((s.setMem m').setLock pf ⟨some s.running, 1⟩).setLock pf ⟨none, 0⟩) :=
        returns_lockRelease (Function.update_self ..)
      rwa [setLock_setLock (s.setMem m') h.lock] at hrelease

end Free

end Calls

end GlowOS
