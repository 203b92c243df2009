import Mathlib
import GlowOS.Lib.Links

/-!
# Several queues over the same nodes

A system keeps many lists and moves its nodes from one to another, so that one `prev` and one `next`
field serve whichever list the node is in. `Holds l qs` says that the links represent a sequence
`qs q` for every queue `q`, and that no element is in two queues. An operation on one queue then
leaves the others alone, which is the content of the theorems below: appending and pushing an element
that is in no queue, popping the first one, testing for emptiness and searching.
-/

namespace Links

/-- The sentinels of the queues, the elements, and the null pointer. -/
inductive QNode (Q T : Type)
  | null
  | head (q : Q)
  | tail (q : Q)
  | elem (t : T)
  deriving DecidableEq, Repr

variable {Q T : Type}

/-- The links represent the sequence `qs q` for each queue `q`, and the queues are disjoint. -/
structure Holds (l : Links (QNode Q T)) (qs : Q → List T) : Prop where
  list : ∀ q, l.IsList (.head q) (.tail q) ((qs q).map .elem)
  disjoint : ∀ {q q' t}, t ∈ qs q → t ∈ qs q' → q = q'

variable {l l' : Links (QNode Q T)} {qs : Q → List T} {q : Q} {t : T} {ts : List T}

namespace Holds

theorem nodup (h : Holds l qs) (q : Q) : (qs q).Nodup :=
  (h.list q).nodup_members.of_map _

/-- Elements that are in no queue may be linked in any way. -/
theorem congr (h : Holds l qs)
    (hnext : ∀ x, (∀ t, x = .elem t → ∃ q, t ∈ qs q) → l'.next x = l.next x)
    (hprev : ∀ x, (∀ t, x = .elem t → ∃ q, t ∈ qs q) → l'.prev x = l.prev x) : Holds l' qs := by
  refine ⟨fun q ↦ (h.list q).congr ?_ ?_, h.disjoint⟩
  · intro x hx
    refine hnext x fun t ht ↦ ⟨q, ?_⟩
    subst ht
    simpa using hx
  · intro x hx
    refine hprev x fun t ht ↦ ⟨q, ?_⟩
    subst ht
    simpa using hx

theorem next_head (h : Holds l qs) (hq : qs q = t :: ts) :
    l.next (.head q) = .elem t := by
  rw [(h.list q).next_head, hq]
  rfl

theorem next_head_eq_tail_iff (h : Holds l qs) :
    l.next (.head q) = .tail q ↔ qs q = [] := by
  rw [(h.list q).next_head_eq_tail_iff, List.map_eq_nil_iff]

theorem mem_other (h : Holds l qs) (ht : ∀ q, t ∉ qs q) :
    ∀ q' ≠ q, ∀ u ∈ qs q', u ∉ t :: qs q := by
  intro q' hq u hu hmem
  rcases List.mem_cons.mp hmem with rfl | hmem
  · exact ht q' hu
  · exact hq (h.disjoint hu hmem)

end Holds

section Operations

variable [DecidableEq Q]

/-- One queue changes: only the links of its sentinels, of its elements and of elements that are in
no queue. -/
theorem Holds.replace (h : Holds l qs) (ms : List T)
    (hlist : l'.IsList (.head q) (.tail q) (ts.map .elem))
    (hms : ∀ q' ≠ q, ∀ t ∈ qs q', t ∉ ms) (hts : ∀ t ∈ ts, t ∈ ms)
    (hlinks : ∀ x, x ≠ .head q → x ≠ .tail q → (∀ t ∈ ms, x ≠ .elem t) →
      l'.next x = l.next x ∧ l'.prev x = l.prev x) :
    Holds l' (Function.update qs q ts) := by
  have hforeign : ∀ q' ≠ q, ∀ x, x = .head q' ∨ x = .tail q' ∨ (∃ t ∈ qs q', x = .elem t) →
      l'.next x = l.next x ∧ l'.prev x = l.prev x := by
    rintro q' hq x (rfl | rfl | ⟨t, ht, rfl⟩)
    · exact hlinks _ (by simpa using hq) (by simp) (by simp)
    · exact hlinks _ (by simp) (by simpa using hq) (by simp)
    · refine hlinks _ (by simp) (by simp) fun u hu ↦ ?_
      simp only [ne_eq, QNode.elem.injEq]
      rintro rfl
      exact hms q' hq t ht hu
  constructor
  · intro q'
    by_cases hq : q' = q
    · subst hq
      rwa [Function.update_self]
    · rw [Function.update_of_ne hq]
      refine (h.list q').congr ?_ ?_
      · intro x hx
        refine (hforeign q' hq x ?_).1
        rcases List.mem_cons.mp hx with rfl | hx
        · exact Or.inl rfl
        · obtain ⟨t, ht, rfl⟩ := List.mem_map.mp hx
          exact Or.inr (Or.inr ⟨t, ht, rfl⟩)
      · intro x hx
        refine (hforeign q' hq x ?_).2
        rcases List.mem_append.mp hx with hx | hx
        · obtain ⟨t, ht, rfl⟩ := List.mem_map.mp hx
          exact Or.inr (Or.inr ⟨t, ht, rfl⟩)
        · exact Or.inr (Or.inl (List.mem_singleton.mp hx))
  · intro q₁ q₂ t h₁ h₂
    by_cases hq₁ : q₁ = q <;> by_cases hq₂ : q₂ = q
    · rw [hq₁, hq₂]
    · rw [hq₁, Function.update_self] at h₁
      rw [Function.update_of_ne hq₂] at h₂
      exact absurd (hts t h₁) (hms q₂ hq₂ t h₂)
    · rw [hq₂, Function.update_self] at h₂
      rw [Function.update_of_ne hq₁] at h₁
      exact absurd (hts t h₂) (hms q₁ hq₁ t h₁)
    · rw [Function.update_of_ne hq₁] at h₁
      rw [Function.update_of_ne hq₂] at h₂
      exact h.disjoint h₁ h₂

variable [DecidableEq T]

/-! ## Making a queue empty -/

/-- Link the two sentinels of a queue with each other. -/
def initQueue (l : Links (QNode Q T)) (q : Q) : Links (QNode Q T) where
  prev := Function.update (Function.update l.prev (.head q) .null) (.tail q) (.head q)
  next := Function.update (Function.update l.next (.tail q) .null) (.head q) (.tail q)

theorem Holds.init (h : Holds l qs) (q : Q) : Holds (l.initQueue q) (Function.update qs q []) := by
  refine h.replace [] ?_ (by simp) (by simp) ?_
  · exact isList_nil (by simp) (Function.update_self ..) (Function.update_self ..)
  · intro x hh ht _
    simp only [initQueue]
    rw [Function.update_of_ne hh, Function.update_of_ne ht, Function.update_of_ne ht,
      Function.update_of_ne hh]
    exact ⟨rfl, rfl⟩

/-! ## Inserting -/

/-- Put an element behind the last one. -/
def appendQueue (l : Links (QNode Q T)) (q : Q) (t : T) : Links (QNode Q T) :=
  l.insertBefore (.tail q) (.elem t)

/-- Put an element in front of the first one. -/
def pushQueue (l : Links (QNode Q T)) (q : Q) (t : T) : Links (QNode Q T) :=
  l.insertBefore (l.next (.head q)) (.elem t)

/-- The links that an insertion changes belong to the queue or to the new element. -/
theorem insertBefore_other {b x : QNode Q T}
    (hb : b = .tail q ∨ ∃ u ∈ qs q, b = .elem u) (hprev : l.prev b = .head q ∨
      ∃ u ∈ qs q, l.prev b = .elem u) (hh : x ≠ .head q) (ht : x ≠ .tail q)
    (hx : ∀ u ∈ t :: qs q, x ≠ .elem u) :
    (l.insertBefore b (.elem t)).next x = l.next x ∧
      (l.insertBefore b (.elem t)).prev x = l.prev x := by
  have hxt : x ≠ .elem t := hx t (by simp)
  have hxb : x ≠ b := by
    rcases hb with rfl | ⟨u, hu, rfl⟩
    · exact ht
    · exact hx u (List.mem_cons_of_mem _ hu)
  have hxp : x ≠ l.prev b := by
    rcases hprev with hp | ⟨u, hu, hp⟩
    · rwa [hp]
    · rw [hp]
      exact hx u (List.mem_cons_of_mem _ hu)
  simp only [insertBefore]
  rw [Function.update_of_ne hxp, Function.update_of_ne hxt, Function.update_of_ne hxb,
    Function.update_of_ne hxt]
  exact ⟨rfl, rfl⟩

theorem Holds.append (h : Holds l qs) (ht : ∀ q, t ∉ qs q) :
    Holds (l.appendQueue q t) (Function.update qs q (qs q ++ [t])) := by
  have hlist := h.list q
  refine h.replace (t :: qs q) ?_ (h.mem_other ht) (by simp [or_comm]) ?_
  · have hins := IsList.insertBefore (e := QNode.elem t)
      (show l.IsList (.head q) (.tail q) ((qs q).map QNode.elem ++ []) by simpa using hlist)
      (by simpa using ht q)
    simpa [appendQueue] using hins
  · intro x hh htl hx
    refine insertBefore_other (Or.inl rfl) ?_ hh htl hx
    have hback := back_mem (.head q) ((qs q).map QNode.elem)
    rw [← hlist.prev_tail] at hback
    simpa [eq_comm] using hback

theorem Holds.push (h : Holds l qs) (ht : ∀ q, t ∉ qs q) :
    Holds (l.pushQueue q t) (Function.update qs q (t :: qs q)) := by
  have hlist := h.list q
  have hfront := hlist.next_head
  refine h.replace (t :: qs q) ?_ (h.mem_other ht) (by simp) ?_
  · have hins := IsList.insertBefore (e := QNode.elem t)
      (show l.IsList (.head q) (.tail q) ([] ++ (qs q).map QNode.elem) from hlist)
      (by simpa using ht q)
    rw [← hfront] at hins
    simpa [pushQueue] using hins
  · intro x hh htl hx
    refine insertBefore_other ?_ (Or.inl ?_) hh htl hx
    · rw [hfront]
      have hmem := front_mem ((qs q).map QNode.elem) (.tail q)
      simp only [List.mem_append, List.mem_map, List.mem_singleton] at hmem
      rcases hmem with ⟨u, hu, heq⟩ | heq
      · exact Or.inr ⟨u, hu, heq.symm⟩
      · exact Or.inl heq
    · rw [hfront]
      exact hlist.path.prev_front

/-! ## Taking the first element -/

theorem Holds.pop (h : Holds l qs) (hq : qs q = t :: ts) :
    Holds (l.remove (.elem t)) (Function.update qs q ts) := by
  have hlist := h.list q
  rw [hq, List.map_cons] at hlist
  refine h.replace (qs q) ?_ ?_ (by simp +contextual [hq]) ?_
  · simpa using IsList.remove
      (show l.IsList (.head q) (.tail q) ([] ++ QNode.elem t :: ts.map QNode.elem) from hlist)
  · exact fun q' hq' u hu hmem ↦ hq' (h.disjoint hu hmem)
  · intro x hh htl hx
    obtain ⟨-, hp, hpath⟩ := hlist.path
    have hn : l.next (.elem t) = front (ts.map .elem) (.tail q) := hpath.next_eq
    have hxn : x ≠ l.next (.elem t) := by
      rw [hn]
      have hmem := front_mem (ts.map QNode.elem) (.tail q)
      simp only [List.mem_append, List.mem_map, List.mem_singleton] at hmem
      rcases hmem with ⟨u, hu, heq⟩ | heq
      · rw [← heq]
        exact hx u (by simp [hq, hu])
      · rwa [heq]
    simp only [remove]
    rw [hp, Function.update_of_ne hh, Function.update_of_ne hxn]
    exact ⟨rfl, rfl⟩

/-! ## Searching -/

theorem Holds.find (h : Holds l qs) (t : T) {fuel : ℕ} (hfuel : (qs q).length < fuel) :
    (l.find (.tail q) (· == .elem t) fuel (l.next (.head q))).map Option.isSome =
      some (decide (t ∈ qs q)) := by
  rw [(h.list q).find (by simpa using hfuel), Option.map_some, Option.some.injEq]
  by_cases ht : t ∈ qs q
  · simp [ht]
  · have hnone : ∀ u ∈ qs q, u ≠ t := fun u hu heq ↦ ht (heq ▸ hu)
    simpa [ht] using hnone

end Operations

end Links
