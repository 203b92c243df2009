import Mathlib
import GlowOS.Lib.Bytes
import GlowOS.Lib.LinkedLists

/-!
# Linked lists in memory

A node of two words, `prev` and behind it `next`, known by its address. `wordLinks f` are the links
that the image `f` holds, whatever stands at an address. Nodes that are used do not overlap, and on
such a set of nodes an assignment to a field is what it is for links: `insertWords` and `removeWords`,
which write one word after the other, come to `Links.insertBefore` and `Links.remove`.
-/

namespace Links

open Bytes

/-- The links in memory. -/
def wordLinks (f : Image) : Links ℕ := ⟨fun a ↦ le32 f a, fun a ↦ le32 f (a + 4)⟩

/-- The nodes are addresses, and no two of them overlap. -/
structure Spaced (ns : Set ℕ) : Prop where
  lt : ∀ x ∈ ns, x < 2 ^ 32
  apart : ∀ x ∈ ns, ∀ y ∈ ns, x ≠ y → x + 8 ≤ y ∨ y + 8 ≤ x

theorem Spaced.mono {ns ms : Set ℕ} (h : Spaced ns) (hsub : ms ⊆ ns) : Spaced ms :=
  ⟨fun x hx ↦ h.lt x (hsub hx), fun x hx y hy ↦ h.apart x (hsub hx) y (hsub hy)⟩

/-- The links of the nodes are the same. -/
def SameOn (ns : Set ℕ) (l l' : Links ℕ) : Prop :=
  ∀ x ∈ ns, l'.next x = l.next x ∧ l'.prev x = l.prev x

/-- Images that agree on the nodes have the same links there. -/
theorem sameOn_of_agree {ns : Set ℕ} {f g : Image} (h : ∀ x ∈ ns, Agree f g x 8) :
    SameOn ns (wordLinks f) (wordLinks g) := by
  intro x hx
  have hnext : le32 g (x + 4) = le32 f (x + 4) := (h x hx).le32 (by omega) (by omega)
  have hprev : le32 g x = le32 f x := (h x hx).le32 (le_refl x) (by omega)
  exact ⟨hnext, hprev⟩

/-! ## One assignment -/

section Assignment

variable {ns : Set ℕ} {f : Image} {x y w : ℕ}

theorem prev_setPrev (hs : Spaced ns) (hx : x ∈ ns) (hy : y ∈ ns) (hw : w < 2 ^ 32) :
    (wordLinks (setWord f x w)).prev y = Function.update (wordLinks f).prev x w y := by
  by_cases h : y = x
  · rw [h, Function.update_self]
    exact le32_setWord hw
  · rw [Function.update_of_ne h]
    have := hs.apart y hy x hx h
    exact le32_splice_of_disjoint (by omega)

theorem next_setPrev (hs : Spaced ns) (hx : x ∈ ns) (hy : y ∈ ns) :
    (wordLinks (setWord f x w)).next y = (wordLinks f).next y := by
  refine le32_splice_of_disjoint ?_
  by_cases h : y = x
  · omega
  · have := hs.apart y hy x hx h
    omega

theorem next_setNext (hs : Spaced ns) (hx : x ∈ ns) (hy : y ∈ ns) (hw : w < 2 ^ 32) :
    (wordLinks (setWord f (x + 4) w)).next y = Function.update (wordLinks f).next x w y := by
  by_cases h : y = x
  · rw [h, Function.update_self]
    exact le32_setWord hw
  · rw [Function.update_of_ne h]
    have := hs.apart y hy x hx h
    exact le32_splice_of_disjoint (by omega)

theorem prev_setNext (hs : Spaced ns) (hx : x ∈ ns) (hy : y ∈ ns) :
    (wordLinks (setWord f (x + 4) w)).prev y = (wordLinks f).prev y := by
  refine le32_splice_of_disjoint ?_
  by_cases h : y = x
  · omega
  · have := hs.apart y hy x hx h
    omega

/-- Bytes outside a node are not written by an assignment to its fields. -/
theorem setWord_of_outside {a i : ℕ} (h : i < a ∨ a + 4 ≤ i) : setWord f a w i = f i :=
  splice_of_disjoint h

end Assignment

/-! ## The operations -/

/-- The assignments that link `e` in front of the node `b`. -/
def insertWords (f : Image) (b e : ℕ) : Image :=
  let f₁ := setWord f (e + 4) b
  let f₂ := setWord f₁ e (le32 f₁ b)
  let f₃ := setWord f₂ (le32 f₂ b + 4) e
  setWord f₃ b e

/-- The assignments that unlink the node `x`. -/
def removeWords (f : Image) (x : ℕ) : Image :=
  let f₁ := setWord f (le32 f x + 4) (le32 f (x + 4))
  setWord f₁ (le32 f₁ (x + 4)) (le32 f₁ x)

section Operations

variable {ns : Set ℕ} {f : Image} {b e x : ℕ}

/-- The links after an insertion, and the bytes that were written. -/
theorem insertWords_spec (hs : Spaced ns) (hb : b ∈ ns) (he : e ∈ ns) (hne : b ≠ e)
    (hp : (wordLinks f).prev b ∈ ns) :
    SameOn ns ((wordLinks f).insertBefore b e) (wordLinks (insertWords f b e)) ∧
      ∀ i, (∀ x ∈ ns, i < x ∨ x + 8 ≤ i) → insertWords f b e i = f i := by
  have hbw := hs.lt b hb
  have hew := hs.lt e he
  have hpw := hs.lt _ hp
  -- the word `prev` of `b` is read twice, and stands until it is written at last
  have hb₁ : le32 (setWord f (e + 4) b) b = (wordLinks f).prev b := prev_setNext hs he hb
  have hb₂ : le32 (setWord (setWord f (e + 4) b) e ((wordLinks f).prev b)) b =
      (wordLinks f).prev b := by
    have h := prev_setPrev (f := setWord f (e + 4) b) hs he hb hpw
    rw [Function.update_of_ne hne] at h
    exact h.trans hb₁
  have himage : insertWords f b e = setWord (setWord (setWord (setWord f (e + 4) b) e
      ((wordLinks f).prev b)) ((wordLinks f).prev b + 4) e) b e := by
    rw [insertWords, hb₁, hb₂]
  rw [himage]
  constructor
  · intro y hy
    constructor
    · rw [next_setPrev hs hb hy, next_setNext hs hp hy hew, Links.insertBefore]
      dsimp only
      by_cases h : y = (wordLinks f).prev b
      · rw [h, Function.update_self, Function.update_self]
      · rw [Function.update_of_ne h, Function.update_of_ne h, next_setPrev hs he hy,
          next_setNext hs he hy hbw]
    · rw [prev_setPrev hs hb hy hew, Links.insertBefore]
      dsimp only
      by_cases h : y = b
      · rw [h, Function.update_self, Function.update_self]
      · rw [Function.update_of_ne h, Function.update_of_ne h, prev_setNext hs hp hy,
          prev_setPrev hs he hy hpw]
        by_cases h' : y = e
        · rw [h', Function.update_self, Function.update_self]
        · rw [Function.update_of_ne h', Function.update_of_ne h', prev_setNext hs he hy]
  · intro i hi
    have h1 := hi b hb
    have h2 := hi e he
    have h3 := hi _ hp
    rw [setWord_of_outside (by omega), setWord_of_outside (by omega),
      setWord_of_outside (by omega), setWord_of_outside (by omega)]

/-- The links after a removal, and the bytes that were written. -/
theorem removeWords_spec (hs : Spaced ns) (hx : x ∈ ns) (hp : (wordLinks f).prev x ∈ ns)
    (hn : (wordLinks f).next x ∈ ns) (hne : (wordLinks f).prev x ≠ x) :
    SameOn ns ((wordLinks f).remove x) (wordLinks (removeWords f x)) ∧
      ∀ i, (∀ x ∈ ns, i < x ∨ x + 8 ≤ i) → removeWords f x i = f i := by
  have hpw := hs.lt _ hp
  have hnw := hs.lt _ hn
  have hx₁ : le32 (setWord f ((wordLinks f).prev x + 4) ((wordLinks f).next x)) x =
      (wordLinks f).prev x := prev_setNext hs hp hx
  have hx₂ : le32 (setWord f ((wordLinks f).prev x + 4) ((wordLinks f).next x)) (x + 4) =
      (wordLinks f).next x := by
    have h := next_setNext (f := f) hs hp hx hnw
    rw [Function.update_of_ne hne.symm] at h
    exact h
  have himage : removeWords f x = setWord (setWord f ((wordLinks f).prev x + 4)
      ((wordLinks f).next x)) ((wordLinks f).next x) ((wordLinks f).prev x) := by
    change setWord (setWord f ((wordLinks f).prev x + 4) ((wordLinks f).next x))
      (le32 (setWord f ((wordLinks f).prev x + 4) ((wordLinks f).next x)) (x + 4))
      (le32 (setWord f ((wordLinks f).prev x + 4) ((wordLinks f).next x)) x) = _
    rw [hx₁, hx₂]
  rw [himage]
  constructor
  · intro y hy
    constructor
    · rw [next_setPrev hs hn hy, next_setNext hs hp hy hnw, Links.remove]
    · rw [prev_setPrev hs hn hy hpw, Links.remove]
      dsimp only
      by_cases h : y = (wordLinks f).next x
      · rw [h, Function.update_self, Function.update_self]
      · rw [Function.update_of_ne h, Function.update_of_ne h, prev_setNext hs hp hy]
  · intro i hi
    have h1 := hi _ hp
    have h2 := hi _ hn
    rw [setWord_of_outside (by omega), setWord_of_outside (by omega)]

end Operations

/-! ## Several lists -/

section Lists

variable {Q : Type} {head tail : Q → ℕ} {qs : Q → List ℕ} {q : Q} {f g : Image} {b e x : ℕ}

/-- The nodes of all lists. -/
def allNodes (head tail : Q → ℕ) (qs : Q → List ℕ) : Set ℕ := {x | ∃ q, x ∈ nodes head tail qs q}

/-- What the lists are depends on the links of their nodes. -/
theorem Represents.congr {l l' : Links ℕ} (h : Represents l head tail qs)
    (hsame : SameOn (allNodes head tail qs) l l') : Represents l' head tail qs := by
  refine ⟨fun q ↦ (h.list q).congr ?_ ?_, h.disjoint⟩
  · intro x hx
    refine (hsame x ⟨q, ?_⟩).1
    rcases List.mem_cons.mp hx with rfl | hx
    · simp [nodes]
    · simp [nodes, hx]
  · intro x hx
    refine (hsame x ⟨q, ?_⟩).2
    rcases List.mem_append.mp hx with hx | hx
    · simp [nodes, hx]
    · simp [nodes, List.mem_singleton.mp hx]

variable [DecidableEq Q]

/-- The nodes after a list was replaced. -/
theorem allNodes_update_subset {zs : List ℕ} {ns : Set ℕ} (h : allNodes head tail qs ⊆ ns)
    (hzs : ∀ z ∈ zs, z ∈ ns) : allNodes head tail (Function.update qs q zs) ⊆ ns := by
  rintro y ⟨q', hy⟩
  rw [nodes] at hy
  rcases List.mem_cons.mp hy with rfl | hy
  · exact h ⟨q', by simp [nodes]⟩
  rcases List.mem_cons.mp hy with rfl | hy
  · exact h ⟨q', by simp [nodes]⟩
  by_cases hq : q' = q
  · subst hq
    rw [Function.update_self] at hy
    exact hzs y hy
  · rw [Function.update_of_ne hq] at hy
    exact h ⟨q', by simp [nodes, hy]⟩

/-- Append a node that belongs to no list. -/
theorem Represents.appendWords (h : Represents (wordLinks f) head tail qs)
    (he : ∀ q', e ∉ nodes head tail qs q')
    (hs : Spaced (insert e (allNodes head tail qs))) :
    Represents (wordLinks (insertWords f (tail q) e)) head tail
        (Function.update qs q (qs q ++ [e])) ∧
      ∀ i, (∀ x ∈ insert e (allNodes head tail qs), i < x ∨ x + 8 ≤ i) →
        insertWords f (tail q) e i = f i := by
  have ht : tail q ∈ allNodes head tail qs := ⟨q, by simp [nodes]⟩
  have hprev : (wordLinks f).prev (tail q) ∈ allNodes head tail qs := by
    rw [(h.list q).prev_tail]
    refine ⟨q, ?_⟩
    have hmem := back_mem (head q) (qs q)
    rcases List.mem_cons.mp hmem with hmem | hmem
    · simp [nodes, hmem]
    · simp [nodes, hmem]
  have hne : tail q ≠ e := fun hte ↦ he q (hte ▸ by simp [nodes])
  obtain ⟨hsame, hout⟩ := insertWords_spec hs (.inr ht) (.inl rfl) hne (.inr hprev)
  refine ⟨?_, hout⟩
  have hq : qs q = qs q ++ [] := (List.append_nil _).symm
  have hins := h.insertBefore hq he
  refine hins.congr fun y hy ↦ hsame y ?_
  refine allNodes_update_subset (fun z hz ↦ .inr hz) ?_ hy
  intro z hz
  rcases List.mem_append.mp hz with hz | hz
  · exact .inr ⟨q, by simp [nodes, hz]⟩
  · exact .inl (List.mem_singleton.mp hz)

/-- Unlink a member. -/
theorem Represents.removeWords {xs ys : List ℕ} (h : Represents (wordLinks f) head tail qs)
    (hq : qs q = xs ++ x :: ys) (hs : Spaced (allNodes head tail qs)) :
    Represents (wordLinks (removeWords f x)) head tail (Function.update qs q (xs ++ ys)) ∧
      ∀ i, (∀ x ∈ allNodes head tail qs, i < x ∨ x + 8 ≤ i) → Links.removeWords f x i = f i := by
  have hpath := (h.list q).path
  have hnodup := (h.list q).nodup
  rw [hq] at hpath hnodup
  obtain ⟨hleft, hright⟩ := path_append.mp hpath
  have hx : x ∈ allNodes head tail qs := ⟨q, by simp [nodes, hq]⟩
  have hp : (wordLinks f).prev x ∈ allNodes head tail qs := by
    rw [hleft.prev_eq]
    exact ⟨q, back_mem_nodes hq⟩
  have hn : (wordLinks f).next x ∈ allNodes head tail qs := by
    have hq' : qs q = (xs ++ [x]) ++ ys := by rw [hq, List.append_assoc, List.singleton_append]
    rw [hright.next_eq]
    exact ⟨q, front_mem_nodes hq'⟩
  have hne : (wordLinks f).prev x ≠ x := by
    rw [hleft.prev_eq]
    intro heq
    have hmem := back_mem (head q) xs
    rw [heq] at hmem
    simp only [List.nodup_cons, List.nodup_append, List.mem_cons, List.mem_append, not_or] at hnodup
    rcases List.mem_cons.mp hmem with hmem | hmem
    · exact hnodup.1.2.2.1 hmem.symm
    · exact hnodup.2.2.2.2 x hmem x (.inl rfl) rfl
  obtain ⟨hsame, hout⟩ := removeWords_spec hs hx hp hn hne
  refine ⟨?_, hout⟩
  refine (h.remove hq).congr fun y hy ↦ hsame y ?_
  refine allNodes_update_subset (fun z hz ↦ hz) ?_ hy
  intro z hz
  refine ⟨q, ?_⟩
  rw [nodes, hq]
  rcases List.mem_append.mp hz with hz | hz
  · simp [hz]
  · simp [hz]

end Lists

end Links
