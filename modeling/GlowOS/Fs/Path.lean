import Mathlib
import GlowOS.Fs.Search
import GlowOS.Fs.Syscalls
import GlowOS.Lib.Words

/-!
# Paths and what they name

The components of a path are its words between slashes. `path_parse` takes them off one by one, and
`path_depth_cnt` counts them.

`Fs.resolve` follows the components through the directories: what a path names, as a function of the
state. It looks at inodes as `inode_open` would return them, from memory if they are there and from
the disk otherwise.
-/

namespace GlowOS

open Bytes Program

/-! ## Components -/

/-- The pieces of a path between the slashes that are not empty. -/
def components (p : List UInt8) : List (List UInt8) :=
  (p.splitOnP (· == slash)).filter (· ≠ [])

/-- The component that `path_parse` stores. -/
def nextName (p : List UInt8) : List UInt8 := (p.dropWhile (· == slash)).takeWhile (· != slash)

/-- The rest of the path that `path_parse` returns. -/
def afterName (p : List UInt8) : List UInt8 := (p.dropWhile (· == slash)).dropWhile (· != slash)

theorem components_append (p q : List UInt8) :
    components (p ++ slash :: q) = components p ++ components q := Words.words_append p q

@[simp] theorem components_nil : components [] = [] := rfl

theorem components_slash (p : List UInt8) : components (slash :: p) = components p :=
  Words.words_sep p

/-- A name without a slash is the only component of itself. -/
theorem components_name {c : List UInt8} (hc : ∀ x ∈ c, x ≠ slash) (hne : c ≠ []) :
    components c = [c] := Words.words_word hc hne

theorem nextName_no_slash {p : List UInt8} : ∀ x ∈ nextName p, x ≠ slash :=
  Words.ne_sep_of_mem_firstWord

/-- What is left of a path is empty or starts with a slash. -/
theorem afterName_eq (p : List UInt8) : afterName p = [] ∨ ∃ q, afterName p = slash :: q :=
  Words.afterWord_eq slash p

theorem dropWhile_eq (p : List UInt8) :
    p.dropWhile (· == slash) = nextName p ++ afterName p := Words.dropWhile_eq p

/-- **`path_parse`** takes off the first component. -/
theorem components_eq (p : List UInt8) :
    components p = if nextName p = [] then [] else nextName p :: components (afterName p) :=
  Words.words_eq p

theorem components_ne_nil {p c : List UInt8} (hc : c ∈ components p) : c ≠ [] :=
  Words.ne_nil_of_mem_words hc

theorem nextName_mem {p : List UInt8} (h : nextName p ≠ []) : nextName p ∈ components p := by
  rw [components_eq, if_neg h]
  exact List.mem_cons_self

theorem components_afterName {p : List UInt8} (h : nextName p ≠ []) :
    components p = nextName p :: components (afterName p) := by
  rw [components_eq, if_neg h]

theorem components_eq_nil_iff {p : List UInt8} : components p = [] ↔ nextName p = [] :=
  Words.words_eq_nil_iff

/-- Each component is the first one of some suffix of the path. -/
theorem exists_nextName_of_mem {p c : List UInt8} (hc : c ∈ components p) :
    ∃ q, q.Sublist p ∧ nextName q = c := by
  induction hn : p.length using Nat.strong_induction_on generalizing p with
  | _ n ih =>
    subst hn
    have hsub := List.dropWhile_sublist (· == slash) (l := p)
    rw [dropWhile_eq] at hsub
    by_cases hname : nextName p = []
    · rw [components_eq_nil_iff.mpr hname] at hc
      cases hc
    · rw [components_afterName hname] at hc
      rcases List.mem_cons.mp hc with rfl | hc
      · exact ⟨p, List.Sublist.refl p, rfl⟩
      · -- the component stands in the rest of the path, which is shorter
        have hlen := hsub.length_le
        have hpos := List.length_pos_iff.mpr hname
        rw [List.length_append] at hlen
        obtain ⟨q, hq, hqc⟩ := ih _ (by omega) hc rfl
        exact ⟨q, hq.trans ((List.sublist_append_right ..).trans hsub), hqc⟩

/-- The characters of a component are characters of the path. -/
theorem mem_of_mem_components {p c : List UInt8} {x : UInt8} (hc : c ∈ components p) (hx : x ∈ c) :
    x ∈ p := by
  obtain ⟨q, hq, rfl⟩ := exists_nextName_of_mem hc
  have hsub := List.dropWhile_sublist (· == slash) (l := q)
  rw [dropWhile_eq] at hsub
  exact hq.subset (hsub.subset (List.mem_append_left _ hx))

theorem components_no_slash {p c : List UInt8} (hc : c ∈ components p) : ∀ x ∈ c, x ≠ slash := by
  obtain ⟨q, -, rfl⟩ := exists_nextName_of_mem hc
  exact nextName_no_slash

/-- The path with the given components, in canonical form. -/
def spell (cs : List (List UInt8)) : List UInt8 := cs.flatMap fun c ↦ slash :: c

@[simp] theorem spell_nil : spell [] = [] := rfl

@[simp] theorem spell_cons (c : List UInt8) (cs : List (List UInt8)) :
    spell (c :: cs) = slash :: (c ++ spell cs) := rfl

theorem spell_append_singleton (cs : List (List UInt8)) (c : List UInt8) :
    spell (cs ++ [c]) = spell cs ++ slash :: c := by
  rw [spell, spell, List.flatMap_append, List.flatMap_cons, List.flatMap_nil, List.append_nil]

/-- A path that is spelled out has the components it was made of. -/
theorem components_spell {cs : List (List UInt8)} (h : ∀ c ∈ cs, c ≠ [] ∧ ∀ x ∈ c, x ≠ slash) :
    components (spell cs) = cs := by
  induction cs using List.reverseRecOn with
  | nil => rfl
  | append_singleton cs c ih =>
    have hc := h c (List.mem_append_right _ (List.mem_singleton_self c))
    rw [spell_append_singleton, components_append, components_name hc.2 hc.1,
      ih fun c hc ↦ h c (List.mem_append_left _ hc)]

/-- What stands behind the last slash. -/
theorem strrchrNext_append (q : List UInt8) {c : List UInt8} (hc : ∀ x ∈ c, x ≠ slash) :
    strrchrNext (q ++ slash :: c) = c := by
  rw [strrchrNext, List.reverse_append, List.reverse_cons, List.append_assoc,
    List.takeWhile_append_of_pos (by simpa using hc), List.singleton_append, List.takeWhile_cons,
    if_neg (by simp), List.append_nil, List.reverse_reverse]

/-- For a path that does not end with a slash this is the last component. -/
theorem strrchrNext_eq {p c : List UInt8} {cs : List (List UInt8)} (hslash : slash ∈ p)
    (hlast : p.getLast? ≠ some slash) (hcs : components p = cs ++ [c]) : strrchrNext p = c := by
  have hno : ∀ x ∈ strrchrNext p, x ≠ slash := by
    intro x hx
    simpa using List.mem_takeWhile_imp (List.mem_reverse.mp hx)
  obtain ⟨q, hq⟩ : ∃ q, p = q ++ slash :: strrchrNext p := by
    have hsplit := List.takeWhile_append_dropWhile (p := (· != slash)) (l := p.reverse)
    cases hd : p.reverse.dropWhile (· != slash) with
    | nil =>
      rw [List.dropWhile_eq_nil_iff] at hd
      simpa using hd slash (List.mem_reverse.mpr hslash)
    | cons x q =>
      have hx := List.head?_dropWhile_not (· != slash) p.reverse
      rw [hd] at hx
      obtain rfl : x = slash := by simpa using hx
      refine ⟨q.reverse, ?_⟩
      rw [hd] at hsplit
      have hrev := congrArg List.reverse hsplit
      rw [List.reverse_reverse, List.reverse_append, List.reverse_cons, List.append_assoc] at hrev
      exact hrev.symm
  have hne : strrchrNext p ≠ [] := by
    intro hnil
    rw [hnil] at hq
    rw [hq, List.getLast?_append, List.getLast?_singleton] at hlast
    exact hlast rfl
  have hcomp := congrArg components hq
  rw [components_append, components_name hno hne, hcs] at hcomp
  exact (List.singleton_inj.mp (List.append_inj' hcomp rfl).2).symm

/-- Each component stands behind a slash of its own, except perhaps the first. -/
theorem length_spell_components (p : List UInt8) :
    (spell (components p)).length ≤ p.length + 1 := by
  induction hn : p.length using Nat.strong_induction_on generalizing p with
  | _ n ih =>
    subst hn
    have hlen : (nextName p).length + (afterName p).length ≤ p.length := by
      have hsub := (List.dropWhile_sublist (· == slash) (l := p)).length_le
      rw [dropWhile_eq, List.length_append] at hsub
      exact hsub
    by_cases hname : nextName p = []
    · rw [components_eq_nil_iff.mpr hname]
      exact Nat.zero_le _
    · have hpos := List.length_pos_iff.mpr hname
      rw [components_afterName hname, spell_cons, List.length_cons, List.length_append]
      rcases afterName_eq p with h | ⟨q, h⟩
      · rw [h, components_nil, spell_nil, List.length_nil]
        omega
      · rw [h, List.length_cons] at hlen
        have hq := ih q.length (by omega) q rfl
        rw [h, components_slash]
        omega

/-- The components of an absolute path, spelled out, are not longer than the path. -/
theorem length_spell_of_slash {p : List UInt8} (h : p.head? = some slash) :
    (spell (components p)).length ≤ p.length := by
  cases p with
  | nil => cases h
  | cons x q =>
    obtain rfl : x = slash := by simpa using h
    rw [components_slash]
    exact length_spell_components q

theorem two_mul_length_le_length_spell {cs : List (List UInt8)} (h : ∀ c ∈ cs, c ≠ []) :
    2 * cs.length ≤ (spell cs).length := by
  induction cs with
  | nil => exact Nat.le_refl _
  | cons c cs ih =>
    have hpos := List.length_pos_iff.mpr (h c List.mem_cons_self)
    have := ih fun c hc ↦ h c (List.mem_cons_of_mem _ hc)
    rw [spell_cons, List.length_cons, List.length_cons, List.length_append]
    omega

section Code

variable {s s' : Fs} {p : List UInt8}

theorem returns_pathParse {r : List UInt8 × List UInt8} :
    Returns (pathParse p) s r s' ↔
      (nextName p).length ≤ maxFileNameLen ∧ r = (nextName p, afterName p) ∧ s' = s := by
  rw [pathParse, returns_check_bind, returns_pure]
  rfl

/-- The loop of `path_depth_cnt` counts the component in hand and those that follow. -/
theorem pathDepthFrom_sound {fuel depth d : ℕ} {name : List UInt8}
    (h : Returns (pathDepthFrom fuel name p depth) s d s') :
    d = depth + (if name = [] then 0 else 1 + (components p).length) ∧ s' = s := by
  induction fuel generalizing name p depth with
  | zero => exact absurd h returns_throw
  | succ fuel ih =>
    rcases returns_ite.mp h with ⟨rfl, h⟩ | ⟨hname, h⟩
    · obtain ⟨rfl, rfl⟩ := returns_pure.mp h
      simp
    · obtain ⟨⟨name', p'⟩, t, h1, h⟩ := returns_bind.mp h
      obtain ⟨-, hr, rfl⟩ := returns_pathParse.mp h1
      obtain ⟨rfl, rfl⟩ := Prod.mk.inj hr
      obtain ⟨rfl, rfl⟩ := ih h
      rw [if_neg hname, components_eq p]
      split_ifs with hn
      · simp
      · simp [Nat.add_comm, Nat.add_left_comm]

/-- **`path_depth_cnt`** counts the components. -/
theorem pathDepthCnt_sound {d : ℕ} (h : Returns (pathDepthCnt p) s d s') :
    components p ≠ [] ∧ d = (components p).length ∧ s' = s := by
  obtain ⟨⟨name, q⟩, t, h1, h⟩ := returns_bind.mp h
  obtain ⟨-, hr, rfl⟩ := returns_pathParse.mp h1
  obtain ⟨rfl, rfl⟩ := Prod.mk.inj hr
  obtain ⟨hname, h⟩ := returns_check_bind.mp h
  obtain ⟨rfl, rfl⟩ := pathDepthFrom_sound h
  rw [components_afterName hname, if_neg hname]
  simp [Nat.add_comm]

theorem pathDepthFrom_complete {fuel depth : ℕ} {name : List UInt8}
    (hfuel : (components p).length + 1 < fuel)
    (hlen : ∀ c ∈ components p, c.length ≤ maxFileNameLen) :
    Returns (pathDepthFrom fuel name p depth) s
      (depth + if name = [] then 0 else 1 + (components p).length) s := by
  induction fuel generalizing name p depth with
  | zero => omega
  | succ fuel ih =>
    by_cases hname : name = []
    · exact returns_ite.mpr (Or.inl ⟨hname, returns_pure.mpr ⟨by rw [if_pos hname]; rfl, rfl⟩⟩)
    · refine returns_ite.mpr (Or.inr ⟨hname, ?_⟩)
      by_cases hn : nextName p = []
      · -- the last round: there is no further component
        refine returns_bind.mpr ⟨_, s, returns_pathParse.mpr ⟨?_, rfl, rfl⟩, ?_⟩
        · rw [hn]
          exact Nat.zero_le _
        · obtain ⟨fuel, rfl⟩ := Nat.exists_eq_succ_of_ne_zero (show fuel ≠ 0 by omega)
          rw [if_neg hname, components_eq_nil_iff.mpr hn]
          exact returns_ite.mpr (Or.inl ⟨hn, returns_pure.mpr ⟨rfl, rfl⟩⟩)
      · rw [components_afterName hn] at hfuel hlen ⊢
        rw [List.length_cons] at hfuel
        refine returns_bind.mpr ⟨_, s, returns_pathParse.mpr
          ⟨hlen _ List.mem_cons_self, rfl, rfl⟩, ?_⟩
        have hnext := @ih (afterName p) (depth + 1) (nextName p) (by omega)
          fun c hc ↦ hlen c (List.mem_cons_of_mem _ hc)
        rw [if_neg hn] at hnext
        rw [if_neg hname, List.length_cons, show depth + (1 + ((components (afterName p)).length + 1))
          = depth + 1 + (1 + (components (afterName p)).length) by omega]
        exact hnext

/-- It returns on a path whose components have room in its array. -/
theorem pathDepthCnt_complete (hne : components p ≠ [])
    (hlen : ∀ c ∈ components p, c.length ≤ maxFileNameLen) :
    Returns (pathDepthCnt p) s (components p).length s := by
  have hname : nextName p ≠ [] := mt components_eq_nil_iff.mpr hne
  have hcount := two_mul_length_le_length_spell fun c hc ↦ components_ne_nil (p := p) hc
  have hspell := length_spell_components p
  rw [components_afterName hname] at hcount hspell hlen ⊢
  rw [List.length_cons] at hcount ⊢
  refine returns_bind.mpr ⟨_, s, returns_pathParse.mpr ⟨hlen _ List.mem_cons_self, rfl, rfl⟩, ?_⟩
  refine returns_check_bind.mpr ⟨hname, ?_⟩
  have hfrom := @pathDepthFrom_complete s (afterName p) (p.length + 1) 0 (nextName p) (by omega)
    fun c hc ↦ hlen c (List.mem_cons_of_mem _ hc)
  rwa [if_neg hname, Nat.zero_add, Nat.add_comm 1] at hfrom

end Code

/-! ## Resolving -/

/-- The inode that `inode_open` returns for the number `n`. -/
def Fs.current (E : Env) (s : Fs) (n : ℕ) : Inode :=
  match s.findOpen n with
  | some (some a) => s.inode a
  | _ => slot E s.disk n

/-- The entry with a name in the directory `n`. -/
def Fs.child (E : Env) (s : Fs) (n : ℕ) (name : List UInt8) : Option DirEntry :=
  lookup s.disk (s.current E n) name

/-- What the components name, from the directory `n` on: every component but the last has to be a
directory. -/
def Fs.resolve (E : Env) (s : Fs) : ℕ → List (List UInt8) → Option ℕ
  | n, [] => some n
  | n, c :: cs =>
    match s.child E n c with
    | none => none
    | some e =>
      if cs = [] then some e.iNo
      else if e.fType = .directory then s.resolve E e.iNo cs
      else none

/-- A component that is not the last one names a regular file. -/
def Fs.fileInMiddle (E : Env) (s : Fs) : ℕ → List (List UInt8) → Bool
  | _, [] => false
  | n, c :: cs =>
    match s.child E n c with
    | none => false
    | some e =>
      if e.fType = .directory then s.fileInMiddle E e.iNo cs
      else e.fType == .regular && cs ≠ []

end GlowOS
