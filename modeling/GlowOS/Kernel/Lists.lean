import Mathlib
import GlowOS.Kernel.Debug
import GlowOS.Lib.LinkedLists
import GlowOS.Lib.Program

/-!
# Doubly linked lists

`lib/kernel/list.c`, statement by statement: each assignment to a `prev` or `next` is a step of its
own, and a pointer is read where the source reads it. List elements are known by their addresses; a
`struct list` is the pair of the addresses of its two sentinels.

`SeqStep` is what the operations mean for the sequences of any number of lists. The functions refine
it: every heap that represents the sequences is taken to one that represents the new ones.
-/

namespace GlowOS.Lists

open Program Links

/-! ## Data -/

/-- The address of a `struct list_elem`. -/
abbrev Ptr := UInt32

/-- `struct list`: the addresses of its sentinels. -/
structure CList where
  head : Ptr
  tail : Ptr

/-- The list elements in memory, and the interrupt flag. -/
structure Heap where
  links : Links Ptr
  intr : Bool

/-- Programs over the heap. -/
abbrev HeapM := StateT Heap (Except Fault)

/-- `elem->next = v`. -/
def setNext (elem v : Ptr) : HeapM PUnit :=
  modify fun s ↦ { s with links.next := Function.update s.links.next elem v }

/-- `elem->prev = v`. -/
def setPrev (elem v : Ptr) : HeapM PUnit :=
  modify fun s ↦ { s with links.prev := Function.update s.links.prev elem v }

/-- `intr_disable`. -/
def intrDisable : HeapM Bool := do
  let s ← get
  modify fun s ↦ { s with intr := false }
  pure s.intr

/-- `intr_set_status`. -/
def intrSetStatus (status : Bool) : HeapM PUnit := modify fun s ↦ { s with intr := status }

/-! ## The functions -/

/-- `list_init`, with `NULL` as the address zero. -/
def listInit (list : CList) : HeapM PUnit := do
  setPrev list.head 0
  setNext list.head list.tail
  setPrev list.tail list.head
  setNext list.tail 0

/-- `list_insert_before`. -/
def listInsertBefore (before elem : Ptr) : HeapM PUnit := do
  let oldStatus ← intrDisable
  setNext elem before
  let s ← get
  setPrev elem (s.links.prev before)
  let s ← get
  setNext (s.links.prev before) elem
  setPrev before elem
  intrSetStatus oldStatus

/-- `list_push`. -/
def listPush (plist : CList) (elem : Ptr) : HeapM PUnit := do
  let s ← get
  listInsertBefore (s.links.next plist.head) elem

/-- `list_append`. -/
def listAppend (plist : CList) (elem : Ptr) : HeapM PUnit := listInsertBefore plist.tail elem

/-- `list_remove`. -/
def listRemove (pelem : Ptr) : HeapM PUnit := do
  let oldStatus ← intrDisable
  let s ← get
  setNext (s.links.prev pelem) (s.links.next pelem)
  let s ← get
  setPrev (s.links.next pelem) (s.links.prev pelem)
  intrSetStatus oldStatus

/-- `list_pop`. -/
def listPop (plist : CList) : HeapM Ptr := do
  let s ← get
  check Fault.assert (s.links.next plist.head ≠ plist.tail)
  listRemove (s.links.next plist.head)
  pure (s.links.next plist.head)

/-- `list_empty`. -/
def listEmpty (plist : CList) : HeapM Bool := do
  let s ← get
  pure (s.links.next plist.head == plist.tail)

/-- How many elements a walk can visit before it has come by one of them twice. -/
abbrev addresses : ℕ := 2 ^ 32

/-- The loop of `list_len`. -/
def listLenFrom (plist : CList) : ℕ → Ptr → UInt32 → HeapM UInt32
  | 0, _, _ => throw Fault.hang
  | fuel + 1, elem, ret => do
    if elem ≠ plist.tail then
      let s ← get
      listLenFrom plist fuel (s.links.next elem) (ret + 1)
    else pure ret

/-- `list_len`. -/
def listLen (plist : CList) : HeapM UInt32 := do
  let s ← get
  listLenFrom plist addresses (s.links.next plist.head) 0

/-- The loop of `list_traversal`. -/
def listTraversalFrom (plist : CList) (func : Ptr → ℤ → ℤ) (arg : ℤ) :
    ℕ → Ptr → HeapM (Option Ptr)
  | 0, _ => throw Fault.hang
  | fuel + 1, elem => do
    if elem ≠ plist.tail then
      if func elem arg ≠ 0 then pure (some elem)
      else
        let s ← get
        listTraversalFrom plist func arg fuel (s.links.next elem)
    else pure none

/-- `list_traversal`, for a function that does not change the lists. -/
def listTraversal (plist : CList) (func : Ptr → ℤ → ℤ) (arg : ℤ) : HeapM (Option Ptr) := do
  let s ← get
  let empty ← listEmpty plist
  if empty then pure none
  else listTraversalFrom plist func arg addresses (s.links.next plist.head)

/-- The loop of `elem_find`. -/
def elemFindFrom (plist : CList) (objElem : Ptr) : ℕ → Ptr → HeapM Bool
  | 0, _ => throw Fault.hang
  | fuel + 1, ptr => do
    if ptr ≠ plist.tail then
      if ptr = objElem then pure true
      else
        let s ← get
        elemFindFrom plist objElem fuel (s.links.next ptr)
    else pure false

/-- `elem_find`. -/
def elemFind (plist : CList) (objElem : Ptr) : HeapM Bool := do
  let s ← get
  elemFindFrom plist objElem addresses (s.links.next plist.head)

/-! ## What the functions do to the links -/

section Functions

variable {s : Heap}

theorem returns_listInsertBefore (before elem : Ptr) :
    Returns (listInsertBefore before elem) s PUnit.unit
      { s with links := s.links.insertBefore before elem } := by
  have hprev : Function.update s.links.prev elem (s.links.prev before) before =
      s.links.prev before := by
    by_cases h : before = elem
    · rw [h, Function.update_self]
    · rw [Function.update_of_ne h]
  have hlinks : s.links.insertBefore before elem =
      ⟨Function.update (Function.update s.links.prev elem (s.links.prev before)) before elem,
        Function.update (Function.update s.links.next elem before)
          (Function.update s.links.prev elem (s.links.prev before) before) elem⟩ := by
    rw [hprev]
    rfl
  rw [hlinks]
  rfl

theorem returns_listPush (plist : CList) (elem : Ptr) :
    Returns (listPush plist elem) s PUnit.unit
      { s with links := s.links.insertBefore (s.links.next plist.head) elem } := by
  rw [listPush, returns_bind]
  exact ⟨s, s, returns_get.mpr ⟨rfl, rfl⟩, returns_listInsertBefore _ _⟩

theorem returns_listRemove (pelem : Ptr) :
    Returns (listRemove pelem) s PUnit.unit { s with links := s.links.remove pelem } := by
  have hnext : Function.update s.links.next (s.links.prev pelem) (s.links.next pelem) pelem =
      s.links.next pelem := by
    by_cases h : pelem = s.links.prev pelem
    · rw [← h, Function.update_self]
    · rw [Function.update_of_ne h]
  have hlinks : s.links.remove pelem =
      ⟨Function.update s.links.prev
          (Function.update s.links.next (s.links.prev pelem) (s.links.next pelem) pelem)
          (s.links.prev pelem),
        Function.update s.links.next (s.links.prev pelem) (s.links.next pelem)⟩ := by
    rw [hnext]
    rfl
  rw [hlinks]
  rfl

theorem returns_listPop {plist : CList} (h : s.links.next plist.head ≠ plist.tail) :
    Returns (listPop plist) s (s.links.next plist.head)
      { s with links := s.links.remove (s.links.next plist.head) } := by
  rw [listPop, returns_get_bind, returns_check_bind]
  refine ⟨h, ?_⟩
  rw [(returns_listRemove _).bind_iff]
  exact returns_pure.mpr ⟨rfl, rfl⟩

/-- `list_init` makes an empty list of two sentinels. -/
theorem listInit_isList {list : CList} {s' : Heap} (hne : list.head ≠ list.tail)
    (h : Returns (listInit list) s PUnit.unit s') :
    s'.links.IsList list.head list.tail [] ∧
      SameOutside [list.head, list.tail] s.links s'.links := by
  obtain rfl : s' = { s with links := ⟨Function.update (Function.update s.links.prev list.head 0)
      list.tail list.head, Function.update (Function.update s.links.next list.head list.tail)
      list.tail 0⟩ } := (Except.ok.inj h |> Prod.mk.inj).2.symm
  constructor
  · refine isList_nil hne ?_ (Function.update_self ..)
    dsimp only
    rw [Function.update_of_ne hne, Function.update_self]
  · intro x hx
    simp only [List.mem_cons, List.not_mem_nil, or_false, not_or] at hx
    dsimp only
    rw [Function.update_of_ne hx.2, Function.update_of_ne hx.1, Function.update_of_ne hx.2,
      Function.update_of_ne hx.1]
    exact ⟨rfl, rfl⟩

/-! ## Walking -/

variable {plist : CList} {xs : List Ptr}

/-- The loop of `list_traversal` is a search. -/
theorem returns_listTraversalFrom {func : Ptr → ℤ → ℤ} {arg : ℤ} {fuel : ℕ} {elem : Ptr}
    {r : Option Ptr}
    (h : s.links.find plist.tail (fun x ↦ decide (func x arg ≠ 0)) fuel elem = some r) :
    Returns (listTraversalFrom plist func arg fuel elem) s r s := by
  induction fuel generalizing elem with
  | zero => cases h
  | succ fuel ih =>
    rw [Links.find] at h
    rw [listTraversalFrom]
    by_cases htail : elem = plist.tail
    · rw [if_pos htail, Option.some.injEq] at h
      rw [if_neg (not_not.mpr htail)]
      exact returns_pure.mpr ⟨h.symm, rfl⟩
    · rw [if_neg htail] at h
      rw [if_pos htail]
      by_cases hfunc : func elem arg ≠ 0
      · rw [if_pos (by simpa using hfunc), Option.some.injEq] at h
        rw [if_pos hfunc]
        exact returns_pure.mpr ⟨h.symm, rfl⟩
      · rw [if_neg (by simpa using hfunc)] at h
        rw [if_neg hfunc, returns_get_bind]
        exact ih h

/-- The loop of `elem_find` is a search, too. -/
theorem returns_elemFindFrom {objElem : Ptr} {fuel : ℕ} {ptr : Ptr} {r : Option Ptr}
    (h : s.links.find plist.tail (· == objElem) fuel ptr = some r) :
    Returns (elemFindFrom plist objElem fuel ptr) s r.isSome s := by
  induction fuel generalizing ptr with
  | zero => cases h
  | succ fuel ih =>
    rw [Links.find] at h
    rw [elemFindFrom]
    by_cases htail : ptr = plist.tail
    · rw [if_pos htail, Option.some.injEq] at h
      rw [if_neg (not_not.mpr htail), ← h]
      exact returns_pure.mpr ⟨rfl, rfl⟩
    · rw [if_neg htail] at h
      rw [if_pos htail]
      by_cases hobj : ptr = objElem
      · rw [if_pos (by simpa using hobj), Option.some.injEq] at h
        rw [if_pos hobj, ← h]
        exact returns_pure.mpr ⟨rfl, rfl⟩
      · rw [if_neg (by simpa using hobj)] at h
        rw [if_neg hobj, returns_get_bind]
        exact ih h

/-- The loop of `list_len` counts what is on the path. -/
theorem returns_listLenFrom {a : Ptr} {fuel : ℕ} (ret : UInt32)
    (hpath : s.links.Path a xs plist.tail) (htail : plist.tail ∉ xs) (hfuel : xs.length < fuel) :
    Returns (listLenFrom plist fuel (front xs plist.tail) ret) s (ret + UInt32.ofNat xs.length)
      s := by
  induction xs generalizing a fuel ret with
  | nil =>
    obtain ⟨fuel, rfl⟩ := Nat.exists_eq_add_of_lt hfuel
    rw [listLenFrom, front_nil, if_neg (not_not.mpr rfl)]
    exact returns_pure.mpr ⟨by simp, rfl⟩
  | cons x xs ih =>
    obtain ⟨-, -, hpath⟩ := hpath
    simp only [List.mem_cons, not_or] at htail
    obtain ⟨fuel, rfl⟩ := Nat.exists_eq_add_of_lt hfuel
    rw [listLenFrom, front_cons, if_pos (Ne.symm htail.1), returns_get_bind, hpath.next_eq,
      List.length_cons]
    have hlen : xs.length < xs.length + 1 + fuel := by omega
    have h := ih (ret + 1) hpath htail.2 hlen
    rw [UInt32.add_assoc, UInt32.add_comm 1] at h
    simpa using h

/-- A list has fewer members than there are addresses. -/
theorem length_lt_addresses (plist : CList) (h : s.links.IsList plist.head plist.tail xs) :
    xs.length < addresses := by
  have hcard := h.nodup.length_le_card
  simp only [List.length_cons] at hcard
  have haddr : Fintype.card Ptr ≤ addresses := by
    have hle := Fintype.card_le_of_injective (fun x : Ptr ↦ x.toFin)
      fun x y hxy ↦ UInt32.toFin_inj.mp hxy
    rwa [Fintype.card_fin] at hle
  omega

end Functions

/-! ## Sequences -/

/-- A call of one of the functions that change a list. `q` says which list that is. -/
inductive ListOp (Q : Type)
  | push (q : Q) (elem : Ptr)
  | append (q : Q) (elem : Ptr)
  | insertBefore (q : Q) (before elem : Ptr)
  | remove (q : Q) (pelem : Ptr)
  | pop (q : Q)

variable {Q : Type}

/-- The list that is changed. -/
def ListOp.list : ListOp Q → Q
  | .push q _ | .append q _ | .insertBefore q _ _ | .remove q _ | .pop q => q

/-- The call, with the element that `list_pop` returns. -/
def ListOp.run (lists : Q → CList) : ListOp Q → HeapM (Option Ptr)
  | .push q elem => do
    listPush (lists q) elem
    pure none
  | .append q elem => do
    listAppend (lists q) elem
    pure none
  | .insertBefore _ before elem => do
    listInsertBefore before elem
    pure none
  | .remove _ pelem => do
    listRemove pelem
    pure none
  | .pop q => do
    let ret ← listPop (lists q)
    pure (some ret)

/-- One call after the other. -/
def runOps (lists : Q → CList) : List (ListOp Q) → HeapM (List (Option Ptr))
  | [] => pure []
  | op :: ops => do
    let r ← op.run lists
    let rs ← runOps lists ops
    pure (r :: rs)

/-- The nodes of a list. -/
abbrev members (lists : Q → CList) (qs : Q → List Ptr) (q : Q) : List Ptr :=
  nodes (fun q ↦ (lists q).head) (fun q ↦ (lists q).tail) qs q

/-- The heap holds the sequences `qs`, each in its list. -/
abbrev Implements (lists : Q → CList) (s : Heap) (qs : Q → List Ptr) : Prop :=
  Represents s.links (fun q ↦ (lists q).head) (fun q ↦ (lists q).tail) qs

/-- The element belongs to no list. -/
def Fresh (lists : Q → CList) (qs : Q → List Ptr) (elem : Ptr) : Prop :=
  ∀ q, elem ∉ members lists qs q

variable [DecidableEq Q]

/-- What a call does to the sequences, and what it returns. -/
inductive SeqStep (lists : Q → CList) (qs : Q → List Ptr) :
    ListOp Q → Option Ptr → (Q → List Ptr) → Prop
  | push {q : Q} {elem : Ptr} (hfresh : Fresh lists qs elem) :
      SeqStep lists qs (.push q elem) none (Function.update qs q (elem :: qs q))
  | append {q : Q} {elem : Ptr} (hfresh : Fresh lists qs elem) :
      SeqStep lists qs (.append q elem) none (Function.update qs q (qs q ++ [elem]))
  /-- In front of a member, or in front of the tail if `ys` is empty. -/
  | insertBefore {q : Q} {elem : Ptr} {xs ys : List Ptr} (hq : qs q = xs ++ ys)
      (hfresh : Fresh lists qs elem) :
      SeqStep lists qs (.insertBefore q (front ys (lists q).tail) elem) none
        (Function.update qs q (xs ++ elem :: ys))
  | remove {q : Q} {pelem : Ptr} {xs ys : List Ptr} (hq : qs q = xs ++ pelem :: ys) :
      SeqStep lists qs (.remove q pelem) none (Function.update qs q (xs ++ ys))
  | pop {q : Q} {x : Ptr} {xs : List Ptr} (hq : qs q = x :: xs) :
      SeqStep lists qs (.pop q) (some x) (Function.update qs q xs)

/-- What a sequence of calls does. -/
inductive SeqSteps (lists : Q → CList) :
    (Q → List Ptr) → List (ListOp Q) → List (Option Ptr) → (Q → List Ptr) → Prop
  | nil (qs : Q → List Ptr) : SeqSteps lists qs [] [] qs
  | cons {qs qs₁ qs₂ : Q → List Ptr} {op : ListOp Q} {ops : List (ListOp Q)} {r : Option Ptr}
      {rs : List (Option Ptr)} (hstep : SeqStep lists qs op r qs₁)
      (hsteps : SeqSteps lists qs₁ ops rs qs₂) : SeqSteps lists qs (op :: ops) (r :: rs) qs₂

/-! ## Refinement -/

variable {lists : Q → CList} {s : Heap} {qs qs' : Q → List Ptr}

/-- The other sequences stay. -/
theorem SeqStep.other {op : ListOp Q} {r : Option Ptr} (h : SeqStep lists qs op r qs') :
    ∀ q ≠ op.list, qs' q = qs q := by
  intro q hq
  cases h <;> exact Function.update_of_ne hq _ _

/-- Every call does to the heap what it does to the sequences, and leaves all links but those of the
changed list and of the inserted element. -/
theorem Implements.step {op : ListOp Q} {r : Option Ptr} (h : Implements lists s qs)
    (hstep : SeqStep lists qs op r qs') :
    ∃ l : Links Ptr, Returns (op.run lists) s r { s with links := l } ∧
      Implements lists { s with links := l } qs' ∧
      ∀ q ≠ op.list, ∀ x ∈ members lists qs q,
        l.next x = s.links.next x ∧ l.prev x = s.links.prev x := by
  cases hstep with
  | @push q elem hfresh =>
    have hq : qs q = [] ++ qs q := rfl
    have hfront : s.links.next (lists q).head = front (qs q) (lists q).tail :=
      (h.list q).next_head
    refine ⟨_, ?_, h.insertBefore hq hfresh, fun q' hq' x hx ↦
      h.sameOutside_insertBefore hq x (h.other hfresh q' hq' x hx)⟩
    rw [ListOp.run, (returns_listPush _ _).bind_iff, hfront]
    exact returns_pure.mpr ⟨rfl, rfl⟩
  | @append q elem hfresh =>
    have hq : qs q = qs q ++ [] := (List.append_nil _).symm
    refine ⟨_, ?_, h.insertBefore hq hfresh, fun q' hq' x hx ↦
      h.sameOutside_insertBefore hq x (h.other hfresh q' hq' x hx)⟩
    rw [ListOp.run, listAppend, (returns_listInsertBefore _ _).bind_iff]
    exact returns_pure.mpr ⟨rfl, rfl⟩
  | @insertBefore q elem xs ys hq hfresh =>
    refine ⟨_, ?_, h.insertBefore hq hfresh, fun q' hq' x hx ↦
      h.sameOutside_insertBefore hq x (h.other hfresh q' hq' x hx)⟩
    rw [ListOp.run, (returns_listInsertBefore _ _).bind_iff]
    exact returns_pure.mpr ⟨rfl, rfl⟩
  | @remove q pelem xs ys hq =>
    refine ⟨_, ?_, h.remove hq, fun q' hq' x hx ↦
      h.sameOutside_remove hq x (h.disjoint hq' x hx)⟩
    rw [ListOp.run, (returns_listRemove _).bind_iff]
    exact returns_pure.mpr ⟨rfl, rfl⟩
  | @pop q x xs hq =>
    have hfront : s.links.next (lists q).head = x := by
      rw [(h.list q).next_head, hq, front_cons]
    have hne : s.links.next (lists q).head ≠ (lists q).tail := by
      rw [Ne, (h.list q).next_head_eq_tail_iff, hq]
      exact List.cons_ne_nil x xs
    have hq : qs q = [] ++ x :: xs := hq
    refine ⟨_, ?_, h.remove hq, fun q' hq' x hx ↦
      h.sameOutside_remove hq x (h.disjoint hq' x hx)⟩
    rw [ListOp.run, (returns_listPop hne).bind_iff, hfront]
    exact returns_pure.mpr ⟨rfl, rfl⟩

/-- What the functions that look at a list return is what the sequence says. -/
structure Agrees (lists : Q → CList) (s : Heap) (qs : Q → List Ptr) : Prop where
  empty : ∀ q, Returns (listEmpty (lists q)) s (decide (qs q = [])) s
  len : ∀ q, ∃ n : UInt32, Returns (listLen (lists q)) s n s ∧ n.toNat = (qs q).length
  find : ∀ q objElem, Returns (elemFind (lists q) objElem) s (decide (objElem ∈ qs q)) s
  traversal : ∀ q func arg,
    Returns (listTraversal (lists q) func arg) s ((qs q).find? fun x ↦ decide (func x arg ≠ 0)) s

omit [DecidableEq Q] in
theorem Implements.agrees (h : Implements lists s qs) : Agrees lists s qs := by
  have hempty : ∀ q, Returns (listEmpty (lists q)) s (decide (qs q = [])) s := by
    intro q
    rw [listEmpty, returns_get_bind]
    refine returns_pure.mpr ⟨?_, rfl⟩
    rw [Bool.eq_iff_iff, decide_eq_true_iff, beq_iff_eq]
    exact (h.list q).next_head_eq_tail_iff.symm
  refine ⟨hempty, fun q ↦ ?_, fun q objElem ↦ ?_, fun q func arg ↦ ?_⟩
  · have hlist := h.list q
    have hlt : (qs q).length < addresses := length_lt_addresses (lists q) hlist
    refine ⟨UInt32.ofNat (qs q).length, ?_, ?_⟩
    · rw [listLen, returns_get_bind, hlist.next_head]
      have hret := returns_listLenFrom 0 hlist.path hlist.tail_notMem hlt
      rwa [UInt32.zero_add] at hret
    · rw [UInt32.toNat_ofNat']
      exact Nat.mod_eq_of_lt hlt
  · have hlist := h.list q
    rw [elemFind, returns_get_bind]
    have hfind := hlist.find (p := (· == objElem)) (length_lt_addresses (lists q) hlist)
    have hret := returns_elemFindFrom hfind
    have hsome : ((qs q).find? (· == objElem)).isSome = decide (objElem ∈ qs q) := by
      rw [Bool.eq_iff_iff, List.find?_isSome, decide_eq_true_iff]
      simp
    rwa [hsome] at hret
  · have hlist := h.list q
    rw [listTraversal, returns_get_bind, (hempty q).bind_iff]
    by_cases hnil : qs q = []
    · rw [if_pos (by simpa using hnil), hnil]
      exact returns_pure.mpr ⟨rfl, rfl⟩
    · rw [if_neg (by simpa using hnil)]
      exact returns_listTraversalFrom (hlist.find (length_lt_addresses (lists q) hlist))

/-- **Lists implement sequences.** Calls on the lists of a heap return what they return on the
sequences, and leave a heap that holds the new sequences and in which the other lists are untouched;
there the functions that look at a list agree with its sequence. -/
theorem implements_run {ops : List (ListOp Q)} {rs : List (Option Ptr)}
    (h : Implements lists s qs) (hsteps : SeqSteps lists qs ops rs qs') :
    ∃ l : Links Ptr, Returns (runOps lists ops) s rs { s with links := l } ∧
      Implements lists { s with links := l } qs' ∧ Agrees lists { s with links := l } qs' ∧
      ∀ q, (∀ op ∈ ops, op.list ≠ q) → qs' q = qs q ∧
        ∀ x ∈ members lists qs q, l.next x = s.links.next x ∧ l.prev x = s.links.prev x := by
  induction hsteps generalizing s with
  | nil qs =>
    exact ⟨s.links, returns_pure.mpr ⟨rfl, rfl⟩, h, h.agrees, fun q _ ↦ ⟨rfl, fun x _ ↦ ⟨rfl, rfl⟩⟩⟩
  | @cons qs qs₁ qs₂ op ops r rs hstep hsteps ih =>
    obtain ⟨l₁, hret₁, himp₁, hsame₁⟩ := h.step hstep
    obtain ⟨l₂, hret₂, himp₂, hagrees, hsame₂⟩ := ih himp₁
    refine ⟨l₂, ?_, himp₂, hagrees, fun q hq ↦ ?_⟩
    · rw [runOps, hret₁.bind_iff, hret₂.bind_iff]
      exact returns_pure.mpr ⟨rfl, rfl⟩
    · have hqop : q ≠ op.list := (hq op List.mem_cons_self).symm
      obtain ⟨hqs, hlinks⟩ := hsame₂ q fun op' hop ↦ hq op' (List.mem_cons_of_mem _ hop)
      have hmem : members lists qs₁ q = members lists qs q := by
        simp only [members, nodes, hstep.other q hqop]
      refine ⟨hqs.trans (hstep.other q hqop), fun x hx ↦ ?_⟩
      obtain ⟨hn, hp⟩ := hlinks x (hmem ▸ hx)
      obtain ⟨hn', hp'⟩ := hsame₁ q hqop x hx
      exact ⟨hn.trans hn', hp.trans hp'⟩

/-- Two empty lists. -/
def twoLists : Bool → CList := fun q ↦ if q then ⟨8, 16⟩ else ⟨32, 40⟩

/-- A heap with two empty lists and nothing else. -/
def emptyHeap : Heap :=
  ⟨⟨fun a ↦ if a = 16 then 8 else if a = 40 then 32 else 0,
    fun a ↦ if a = 8 then 16 else if a = 32 then 40 else 0⟩, true⟩

theorem emptyHeap_implements : Implements twoLists emptyHeap fun _ ↦ [] := by
  constructor
  · intro q
    cases q with
    | true => exact isList_nil (by decide) rfl rfl
    | false => exact isList_nil (by decide) rfl rfl
  · intro q q' hne x hx
    cases q <;> cases q' <;> simp_all [nodes, twoLists] <;> rcases hx with rfl | rfl <;> decide

/-- An element is put into one of the lists and taken out again. -/
theorem implements_run_push_pop :
    ∃ l : Links Ptr,
      Returns (runOps twoLists [.push true 100, .pop true]) emptyHeap [none, some 100]
        ⟨l, true⟩ ∧
      Implements twoLists ⟨l, true⟩
        (Function.update (Function.update (fun _ ↦ []) true [100]) true []) ∧
      Agrees twoLists ⟨l, true⟩
        (Function.update (Function.update (fun _ ↦ []) true [100]) true []) ∧
      ∀ q, (∀ op ∈ [ListOp.push true 100, .pop true], op.list ≠ q) →
        Function.update (Function.update (fun _ ↦ ([] : List Ptr)) true [100]) true [] q = [] ∧
        ∀ x ∈ members twoLists (fun _ ↦ []) q,
          l.next x = emptyHeap.links.next x ∧ l.prev x = emptyHeap.links.prev x := by
  have hfresh : Fresh twoLists (fun _ ↦ []) 100 := by
    intro q
    cases q <;> simp [nodes, twoLists]
  have hsteps : SeqSteps twoLists (fun _ ↦ []) [.push true 100, .pop true] [none, some 100]
      (Function.update (Function.update (fun _ ↦ []) true [100]) true []) :=
    .cons (.push hfresh) (.cons (.pop (Function.update_self ..)) (.nil _))
  exact implements_run emptyHeap_implements hsteps

end GlowOS.Lists
