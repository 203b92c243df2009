import Mathlib
import GlowOS.Lib.Links

/-!
# Several linked lists in one heap

A family of doubly linked lists whose sentinels are nodes like any others. That the links `Represents`
the sequences `qs` means that there is `qs q` between the sentinels `head q` and `tail q` for every
`q`, and that no node belongs to two lists.

The two rules below let one list change, by an insertion or by a removal. Each comes with its frame:
`SameOutside` says that all links are as before except those of the nodes of that one list and, for
an insertion, of the new node.
-/

namespace Links

variable {A Q : Type}

/-- The nodes of a list: its sentinels and its members. -/
def nodes (head tail : Q → A) (qs : Q → List A) (q : Q) : List A := head q :: tail q :: qs q

/-- The links represent the sequence `qs q` for each `q`, and the lists share no node. -/
structure Represents (l : Links A) (head tail : Q → A) (qs : Q → List A) : Prop where
  list : ∀ q, l.IsList (head q) (tail q) (qs q)
  disjoint : ∀ {q q'}, q ≠ q' → ∀ x ∈ nodes head tail qs q, x ∉ nodes head tail qs q'

/-- The links of the nodes that are not among `ms` are the same. -/
def SameOutside (ms : List A) (l l' : Links A) : Prop :=
  ∀ x ∉ ms, l'.next x = l.next x ∧ l'.prev x = l.prev x

variable {l l' : Links A} {head tail : Q → A} {qs : Q → List A} {q : Q} {xs ys zs : List A}

theorem SameOutside.mono {ms ns : List A} (h : SameOutside ms l l') (hsub : ms ⊆ ns) :
    SameOutside ns l l' :=
  fun x hx ↦ h x fun hm ↦ hx (hsub hm)

/-- The node in front of which something is inserted belongs to the list. -/
theorem front_mem_nodes (hq : qs q = xs ++ ys) : front ys (tail q) ∈ nodes head tail qs q := by
  have h := front_mem ys (tail q)
  rw [nodes, hq]
  rcases List.mem_append.mp h with h | h
  · simp [h]
  · simp [List.mem_singleton.mp h]

theorem back_mem_nodes (hq : qs q = xs ++ ys) : back (head q) xs ∈ nodes head tail qs q := by
  have h := back_mem (head q) xs
  rw [nodes, hq]
  rcases List.mem_cons.mp h with h | h
  · simp [h]
  · simp [h]

/-- One list changes: only the links of its nodes and of nodes that are in no list. -/
theorem Represents.replace [DecidableEq Q] (h : Represents l head tail qs)
    (hlist : l'.IsList (head q) (tail q) zs) {ms : List A} (hsame : SameOutside ms l l')
    (hms : ∀ q' ≠ q, ∀ x ∈ nodes head tail qs q', x ∉ ms) (hzs : ∀ x ∈ zs, x ∈ ms) :
    Represents l' head tail (Function.update qs q zs) := by
  have hother : ∀ q' ≠ q,
      nodes head tail (Function.update qs q zs) q' = nodes head tail qs q' := by
    intro q' hq
    rw [nodes, nodes, Function.update_of_ne hq]
  have hself : ∀ q' ≠ q, ∀ x ∈ nodes head tail qs q',
      x ∉ nodes head tail (Function.update qs q zs) q := by
    intro q' hq x hx hmem
    rw [nodes, Function.update_self] at hmem
    have hdis := h.disjoint hq x hx
    simp only [nodes, List.mem_cons, not_or] at hdis
    rcases List.mem_cons.mp hmem with hxh | hmem
    · exact hdis.1 hxh
    · rcases List.mem_cons.mp hmem with hxt | hmem
      · exact hdis.2.1 hxt
      · exact hms q' hq x hx (hzs x hmem)
  constructor
  · intro q'
    by_cases hq : q' = q
    · rw [hq, Function.update_self]
      exact hlist
    · rw [Function.update_of_ne hq]
      refine (h.list q').congr ?_ ?_
      · intro x hx
        refine (hsame x (hms q' hq x ?_)).1
        rcases List.mem_cons.mp hx with rfl | hx
        · simp [nodes]
        · simp [nodes, hx]
      · intro x hx
        refine (hsame x (hms q' hq x ?_)).2
        rcases List.mem_append.mp hx with hx | hx
        · simp [nodes, hx]
        · simp [nodes, List.mem_singleton.mp hx]
  · intro q₁ q₂ hne x hx
    by_cases h₁ : q₁ = q
    · subst h₁
      intro hx₂
      rw [hother q₂ (Ne.symm hne)] at hx₂
      exact hself q₂ (Ne.symm hne) x hx₂ hx
    · rw [hother q₁ h₁] at hx
      by_cases h₂ : q₂ = q
      · rw [h₂]
        exact hself q₁ h₁ x hx
      · rw [hother q₂ h₂]
        exact h.disjoint hne x hx

/-- The nodes of the other lists are not among the nodes of one list and a node of no list. -/
theorem Represents.other (h : Represents l head tail qs) {e : A}
    (he : ∀ q', e ∉ nodes head tail qs q') :
    ∀ q' ≠ q, ∀ x ∈ nodes head tail qs q', x ∉ e :: nodes head tail qs q := by
  intro q' hq x hx hmem
  rcases List.mem_cons.mp hmem with rfl | hmem
  · exact he q' hx
  · exact h.disjoint hq x hx hmem

/-! ## Insertion -/

variable [DecidableEq A]

theorem Represents.sameOutside_insertBefore (h : Represents l head tail qs) {e : A}
    (hq : qs q = xs ++ ys) :
    SameOutside (e :: nodes head tail qs q) l (l.insertBefore (front ys (tail q)) e) := by
  intro x hx
  rw [List.mem_cons, not_or] at hx
  have hxf : x ≠ front ys (tail q) := fun hxf ↦ hx.2 (hxf ▸ front_mem_nodes hq)
  have hprev : l.prev (front ys (tail q)) = back (head q) xs := by
    have hpath := (h.list q).path
    rw [hq] at hpath
    cases ys with
    | nil =>
      rw [List.append_nil] at hpath
      exact hpath.prev_eq
    | cons y ys => exact (path_append.mp hpath).1.prev_eq
  have hxp : x ≠ back (head q) xs := fun hxp ↦ hx.2 (hxp ▸ back_mem_nodes hq)
  simp only [Links.insertBefore, hprev]
  rw [Function.update_of_ne hxp, Function.update_of_ne hx.1, Function.update_of_ne hxf,
    Function.update_of_ne hx.1]
  exact ⟨rfl, rfl⟩

/-- Insert a node that belongs to no list. -/
theorem Represents.insertBefore [DecidableEq Q] (h : Represents l head tail qs) {e : A}
    (hq : qs q = xs ++ ys) (he : ∀ q', e ∉ nodes head tail qs q') :
    Represents (l.insertBefore (front ys (tail q)) e) head tail
      (Function.update qs q (xs ++ e :: ys)) := by
  have hlist := h.list q
  rw [hq] at hlist
  have hfresh := he q
  rw [nodes, hq] at hfresh
  refine h.replace (hlist.insertBefore hfresh) (h.sameOutside_insertBefore hq) (h.other he) ?_
  intro x hx
  rw [nodes, hq]
  rcases List.mem_append.mp hx with hx | hx
  · simp [hx]
  · rcases List.mem_cons.mp hx with rfl | hx
    · simp
    · simp [hx]

/-! ## Removal -/

theorem Represents.sameOutside_remove (h : Represents l head tail qs) {x : A}
    (hq : qs q = xs ++ x :: ys) : SameOutside (nodes head tail qs q) l (l.remove x) := by
  intro z hz
  have hpath := (h.list q).path
  rw [hq] at hpath
  obtain ⟨hleft, hright⟩ := path_append.mp hpath
  have hzn : z ≠ front ys (tail q) := by
    intro hzn
    have hq' : qs q = (xs ++ [x]) ++ ys := by rw [hq, List.append_assoc, List.singleton_append]
    exact hz (hzn ▸ front_mem_nodes hq')
  have hzp : z ≠ back (head q) xs := fun hzp ↦ hz (hzp ▸ back_mem_nodes hq)
  simp only [Links.remove]
  rw [hleft.prev_eq, hright.next_eq, Function.update_of_ne hzp, Function.update_of_ne hzn]
  exact ⟨rfl, rfl⟩

/-- Unlink a member. -/
theorem Represents.remove [DecidableEq Q] (h : Represents l head tail qs) {x : A}
    (hq : qs q = xs ++ x :: ys) :
    Represents (l.remove x) head tail (Function.update qs q (xs ++ ys)) := by
  have hlist := h.list q
  rw [hq] at hlist
  refine h.replace hlist.remove (h.sameOutside_remove hq) (fun q' hq' x hx ↦ h.disjoint hq' x hx) ?_
  intro z hz
  rw [nodes, hq]
  rcases List.mem_append.mp hz with hz | hz
  · simp [hz]
  · simp [hz]

end Links
