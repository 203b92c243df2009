import Mathlib
import GlowOS.Fs.Path
import GlowOS.Stdio.Strings

/-!
# Washing a path

`wash_path` of `shell/buildin_cmd.c` walks through an absolute path and keeps the components that
count in a string: "." is skipped, ".." cuts the string at its last slash, and any other component
is put behind it with a slash in front. The string is a stack of components, and `canonical` is how
the stack is spelled; the root is the empty stack, which alone ends with a slash.

The buffer for the result does not overlap the path. As nothing that is written lies further behind
its start than the path is long, a buffer as large as the one of the path is large enough.
-/

namespace GlowOS.Shell

open Bytes CStrings Stdio

/-! ## The functions -/

/-- `path_parse` on the cleared array `name` of `wash_path`: the component in the array, and the
pointer that is returned. The array has to keep a NUL. -/
def pathParseName (pathname : List UInt8) : Option (List UInt8 × Option (List UInt8)) :=
  if pathname = [] then some ([], none)
  else if (nextName pathname).length < maxFileNameLen then
    some (nextName pathname, some (afterName pathname))
  else none

/-- The branch for "..": cut the string at its last slash, or behind it if this is the first
character. -/
def popComponent (fuel : ℕ) (mem : Image) (new : ℕ) : Option Image :=
  (strrchr mem slash fuel new none).bind fun slashPtr ↦
    slashPtr.map fun p ↦
      if p ≠ new then Function.update mem p 0 else Function.update mem (p + 1) 0

/-- The branch for an ordinary component. -/
def pushComponent (fuel : ℕ) (mem : Image) (new : ℕ) (name : List UInt8) : Option Image :=
  (if !strEq mem new [slash] then strcat fuel mem new [slash] else some mem).bind fun mem ↦
    strcat fuel mem new name

/-- The loop of `wash_path`. `bound` is for the walks over the string. -/
def washFrom (bound new : ℕ) :
    ℕ → Image → List UInt8 → Option (List UInt8) → Option Image
  | 0, _, _, _ => none
  | fuel + 1, mem, name, subPath =>
    if name = [] then some mem
    else
      (if name = dotDot then popComponent bound mem new
        else if name ≠ dot then pushComponent bound mem new name
        else some mem).bind fun mem ↦
        match subPath with
        | none => washFrom bound new fuel mem [] none
        | some p => (pathParseName p).bind fun r ↦ washFrom bound new fuel mem r.1 r.2

/-- `wash_path`. -/
def washPath (fuel : ℕ) (old : List UInt8) (new : ℕ) (mem : Image) : Option Image :=
  if old.head? ≠ some slash then none
  else
    (pathParseName old).bind fun r ↦
      if r.1 = [] then some (Function.update (Function.update mem new slash) (new + 1) 0)
      else
        (strcat fuel (Function.update mem new 0) new [slash]).bind fun mem ↦
          washFrom fuel new fuel mem r.1 r.2

/-! ## The stack -/

/-- What a component does to the stack. -/
def washStep (st : List (List UInt8)) (c : List UInt8) : List (List UInt8) :=
  if c = dotDot then st.dropLast else if c = dot then st else st ++ [c]

/-- The stack behind the components of a path. -/
def washed (p : List UInt8) : List (List UInt8) := (components p).foldl washStep []

/-- A slash, and the components with slashes between them. -/
def canonical (st : List (List UInt8)) : List UInt8 := slash :: [slash].intercalate st

/-- A component that may be on the stack. -/
structure IsProper (c : List UInt8) : Prop where
  ne_nil : c ≠ []
  no_slash : ∀ x ∈ c, x ≠ slash
  ne_dot : c ≠ dot
  ne_dotDot : c ≠ dotDot

theorem canonical_nil : canonical [] = [slash] := rfl

theorem canonical_singleton (c : List UInt8) : canonical [c] = slash :: c := by
  rw [canonical, List.intercalate_singleton]

/-- A stack that is not empty is spelled with a slash in front of each component. -/
theorem canonical_eq_spell {st : List (List UInt8)} (h : st ≠ []) : canonical st = spell st := by
  induction st with
  | nil => exact absurd rfl h
  | cons c st ih =>
    by_cases hst : st = []
    · subst hst
      rw [canonical_singleton, spell_cons, spell_nil, List.append_nil]
    · rw [canonical, List.intercalate_cons_of_ne_nil hst, spell_cons, ← ih hst, canonical,
        List.append_assoc, List.singleton_append]

theorem canonical_append {st : List (List UInt8)} (h : st ≠ []) (c : List UInt8) :
    canonical (st ++ [c]) = canonical st ++ slash :: c := by
  rw [canonical_eq_spell h, canonical_eq_spell (by simp), spell_append_singleton]

/-- The components of a spelled stack are the stack. -/
theorem components_canonical {st : List (List UInt8)} (h : ∀ c ∈ st, IsProper c) :
    components (canonical st) = st := by
  by_cases hst : st = []
  · subst hst
    rfl
  · rw [canonical_eq_spell hst]
    exact components_spell fun c hc ↦ ⟨(h c hc).ne_nil, (h c hc).no_slash⟩

theorem nul_notMem_canonical {st : List (List UInt8)} (h : ∀ c ∈ st, (0 : UInt8) ∉ c) :
    (0 : UInt8) ∉ canonical st := by
  by_cases hst : st = []
  · subst hst
    decide
  · rw [canonical_eq_spell hst, spell, List.mem_flatMap]
    rintro ⟨c, hc, h0⟩
    rcases List.mem_cons.mp h0 with h0 | h0
    · exact absurd h0 (by decide)
    · exact h c hc h0

/-- What every component has in common, the stack keeps. -/
theorem forall_mem_foldl_washStep {P : List UInt8 → Prop} {cs st : List (List UInt8)}
    (hcs : ∀ c ∈ cs, c ≠ dot → c ≠ dotDot → P c) (hst : ∀ c ∈ st, P c) :
    ∀ c ∈ cs.foldl washStep st, P c := by
  induction cs generalizing st with
  | nil => exact hst
  | cons c cs ih =>
    refine ih (fun c hc ↦ hcs c (List.mem_cons_of_mem _ hc)) fun d hd ↦ ?_
    rw [washStep] at hd
    split_ifs at hd with h1 h2
    · exact hst d (List.mem_of_mem_dropLast hd)
    · exact hst d hd
    · rcases List.mem_append.mp hd with hd | hd
      · exact hst d hd
      · obtain rfl := List.mem_singleton.mp hd
        exact hcs d List.mem_cons_self h2 h1

theorem isProper_of_mem_washed {p c : List UInt8} (hc : c ∈ washed p) : IsProper c := by
  refine forall_mem_foldl_washStep (P := IsProper) ?_ (by simp) c hc
  exact fun c hc hdot hdots ↦ ⟨components_ne_nil hc, components_no_slash hc, hdot, hdots⟩

/-- A stack of proper components is built up again from its spelling. -/
theorem washed_canonical {st : List (List UInt8)} (h : ∀ c ∈ st, IsProper c) :
    washed (canonical st) = st := by
  have hgen : ∀ (cs st : List (List UInt8)), (∀ c ∈ cs, IsProper c) →
      cs.foldl washStep st = st ++ cs := by
    intro cs
    induction cs with
    | nil => exact fun st _ ↦ (List.append_nil st).symm
    | cons c cs ih =>
      intro st hcs
      have hc := hcs c List.mem_cons_self
      rw [List.foldl_cons, washStep, if_neg hc.ne_dotDot, if_neg hc.ne_dot,
        ih _ fun c hc ↦ hcs c (List.mem_cons_of_mem _ hc), List.append_assoc, List.singleton_append]
  rw [washed, components_canonical h, hgen _ _ h, List.nil_append]

/-! ## The string -/

section Strings

variable {mem : Image} {new bound : ℕ} {st : List (List UInt8)} {name : List UInt8}

/-- Cutting at the last slash takes the last component off the stack. -/
theorem popComponent_eq (h : HoldsString mem new (canonical st)) (hst : ∀ c ∈ st, IsProper c)
    (hbound : (canonical st).length < bound) :
    ∃ mem', popComponent bound mem new = some mem' ∧
      HoldsString mem' new (canonical st.dropLast) ∧
      ∀ i, i < new ∨ new + (canonical st).length < i → mem' i = mem i := by
  -- the string is a part without the last component, a slash, and the last component
  obtain ⟨pre, c, hsplit, hc, hpre⟩ : ∃ pre c, canonical st = pre ++ slash :: c ∧
      (∀ x ∈ c, x ≠ slash) ∧
        canonical st.dropLast = if pre = [] then [slash] else pre := by
    cases st using List.reverseRecOn with
    | nil => exact ⟨[], [], rfl, by simp, rfl⟩
    | append_singleton st c =>
      have hc := (hst c (List.mem_append_right _ (List.mem_singleton_self c))).no_slash
      rw [List.dropLast_concat]
      by_cases hnil : st = []
      · subst hnil
        exact ⟨[], c, canonical_singleton c, hc, rfl⟩
      · exact ⟨canonical st, c, canonical_append hnil c, hc, by rw [if_neg (by simp [canonical])]⟩
  rw [hsplit] at h hbound ⊢
  have hlast := strrchr_eq none h (fun hmem ↦ hc slash hmem rfl) hbound
  have hlen : (pre ++ slash :: c).length = pre.length + (c.length + 1) := by
    rw [List.length_append, List.length_cons]
  rw [popComponent, hlast, Option.bind_some, Option.map_some, hpre, hlen]
  by_cases hnil : pre = []
  · subst hnil
    rw [if_neg (by simp), if_pos rfl, List.length_nil, Nat.add_zero]
    refine ⟨_, rfl, ⟨⟨?_, trivial⟩, Function.update_self .., by decide⟩, fun i hi ↦ ?_⟩
    · rw [Function.update_of_ne (by omega)]
      exact h.spells.1
    · exact Function.update_of_ne (by omega) _ _
  · have hpos := List.length_pos_iff.mpr hnil
    rw [if_pos (by omega), if_neg hnil]
    refine ⟨_, rfl, ⟨?_, Function.update_self .., ?_⟩, fun i hi ↦ ?_⟩
    · exact (spells_append.mp h.spells).1.congr fun i _ h2 ↦ Function.update_of_ne h2.ne _ _
    · exact fun h0 ↦ h.noNul (List.mem_append_left _ h0)
    · exact Function.update_of_ne (by omega) _ _

theorem strEq_of_holds {s t : List UInt8} (h : HoldsString mem new s) (ht : (0 : UInt8) ∉ t) :
    strEq mem new t = true ↔ s = t := by
  induction t generalizing new s with
  | nil =>
    cases s with
    | nil => simpa [strEq] using h.terminated
    | cons c s =>
      have hne : mem new ≠ 0 := h.ne_zero (i := 0) (by simp)
      simpa [strEq] using hne
  | cons d t ih =>
    rw [List.mem_cons, not_or] at ht
    cases s with
    | nil =>
      have hterm : mem new = 0 := h.terminated
      rw [strEq, hterm]
      simp [ht.1]
    | cons c s =>
      have hc : mem new = c := h.spells.1
      have htail : HoldsString mem (new + 1) s := HoldsString.drop (s := [c]) h
      rw [strEq, Bool.and_eq_true, beq_iff_eq, hc, ih htail ht.2, List.cons.injEq]

/-- Concatenating puts a component on the stack. -/
theorem pushComponent_eq (h : HoldsString mem new (canonical st)) (hst : ∀ c ∈ st, IsProper c)
    (hname : (0 : UInt8) ∉ name)
    (hbound : (canonical (st ++ [name])).length < bound) :
    ∃ mem', pushComponent bound mem new name = some mem' ∧
      HoldsString mem' new (canonical (st ++ [name])) ∧
      ∀ i, i < new ∨ new + (canonical (st ++ [name])).length < i → mem' i = mem i := by
  have hroot := strEq_of_holds (t := [slash]) h (by decide)
  by_cases hnil : st = []
  · -- the string is the root, which has its slash already
    subst hnil
    rw [List.nil_append, canonical_singleton] at hbound ⊢
    rw [canonical_nil] at h
    rw [List.length_cons] at hbound
    have hroom : ([slash] : List UInt8).length < bound := by rw [List.length_singleton]; omega
    obtain ⟨mem', hcat, hholds, hframe⟩ := strcat_eq h hname hroom
    refine ⟨mem', ?_, hholds, fun i hi ↦ hframe i ?_⟩
    · rw [pushComponent, hroot.mpr rfl]
      exact hcat
    · rw [List.length_cons] at hi
      rw [List.length_singleton]
      omega
  · have hne : strEq mem new [slash] = false := by
      rw [← Bool.not_eq_true, hroot, canonical_eq_spell hnil]
      obtain ⟨c, st, rfl⟩ := List.exists_cons_of_ne_nil hnil
      rw [spell_cons]
      intro heq
      have htail := (List.append_eq_nil_iff.mp (List.cons.inj heq).2).1
      exact (hst c List.mem_cons_self).ne_nil htail
    rw [canonical_append hnil] at hbound ⊢
    rw [List.length_append, List.length_cons] at hbound
    have hroom₁ : (canonical st).length < bound := by omega
    have hroom₂ : (canonical st ++ [slash]).length < bound := by
      rw [List.length_append, List.length_singleton]
      omega
    obtain ⟨mem₁, hcat₁, hholds₁, hframe₁⟩ := strcat_eq h (t := [slash]) (by decide) hroom₁
    obtain ⟨mem₂, hcat₂, hholds₂, hframe₂⟩ := strcat_eq hholds₁ hname hroom₂
    rw [List.append_assoc, List.singleton_append] at hholds₂
    refine ⟨mem₂, ?_, hholds₂, fun i hi ↦ ?_⟩
    · rw [pushComponent, hne, Bool.not_false, if_pos rfl, hcat₁, Option.bind_some, hcat₂]
    · rw [List.length_append, List.length_cons] at hi
      rw [hframe₂ i (by rw [List.length_append, List.length_singleton]; omega),
        hframe₁ i (by rw [List.length_singleton]; omega)]

end Strings

/-! ## The loop -/

section Loop

variable {new bound : ℕ}

/-- The characters a stack takes, without the slash of the root. -/
def stackLength (st : List (List UInt8)) : ℕ := (spell st).length

theorem length_canonical_le (st : List (List UInt8)) :
    (canonical st).length ≤ max 1 (stackLength st) := by
  by_cases hst : st = []
  · subst hst
    exact le_max_left ..
  · rw [canonical_eq_spell hst]
    exact le_max_right ..

/-- The next component and what follows it are shorter than the path, unless nothing is left. -/
theorem length_name_lt {q : List UInt8} (hq : q = [] ∨ q.head? = some slash)
    (hname : nextName q ≠ []) : (nextName q).length + (afterName q).length < q.length := by
  rcases hq with rfl | hq
  · exact absurd rfl hname
  · cases q with
    | nil => cases hq
    | cons x q =>
      obtain rfl : x = slash := Option.some.inj hq
      have h := (List.dropWhile_sublist (· == slash) (l := q)).length_le
      have hd : (slash :: q).dropWhile (· == slash) = q.dropWhile (· == slash) := by
        rw [List.dropWhile_cons, if_pos (by simp)]
      rw [← List.length_append, ← dropWhile_eq, hd, List.length_cons]
      omega

theorem head?_afterName (q : List UInt8) :
    afterName q = [] ∨ (afterName q).head? = some slash := by
  rcases afterName_eq q with h | ⟨r, h⟩
  · exact Or.inl h
  · exact Or.inr (by rw [h]; rfl)

theorem stackLength_washStep_le (st : List (List UInt8)) (c : List UInt8) :
    stackLength (washStep st c) ≤ stackLength st + 1 + c.length := by
  rw [washStep]
  split_ifs
  · cases st using List.reverseRecOn with
    | nil => exact Nat.zero_le _
    | append_singleton st d =>
      rw [List.dropLast_concat, stackLength, stackLength, spell_append_singleton, List.length_append]
      omega
  · omega
  · rw [stackLength, stackLength, spell_append_singleton, List.length_append, List.length_cons]
    omega

/-- One component: the string goes on being the stack. -/
theorem wash_component {mem : Image} {st : List (List UInt8)} {name : List UInt8}
    (h : HoldsString mem new (canonical st)) (hst : ∀ c ∈ st, IsProper c)
    (hname : (0 : UInt8) ∉ name) (hbound : stackLength st + 1 + name.length < bound) :
    ∃ mem', (if name = dotDot then popComponent bound mem new
        else if name ≠ dot then pushComponent bound mem new name
        else some mem) = some mem' ∧
      HoldsString mem' new (canonical (washStep st name)) ∧
      ∀ i, i < new ∨ new + (stackLength st + 1 + name.length) < i → mem' i = mem i := by
  have hle := length_canonical_le st
  by_cases hdots : name = dotDot
  · have hpos : 0 < name.length := by simp [hdots, dotDot]
    have hroom : (canonical st).length < bound := by omega
    obtain ⟨mem', hpop, hholds, hframe⟩ := popComponent_eq h hst hroom
    refine ⟨mem', ?_, ?_, fun i hi ↦ hframe i (by omega)⟩
    · rw [if_pos hdots, hpop]
    · rwa [washStep, if_pos hdots]
  · by_cases hdot : name = dot
    · refine ⟨mem, ?_, ?_, fun i _ ↦ rfl⟩
      · rw [if_neg hdots, if_neg (not_not.mpr hdot)]
      · rwa [washStep, if_neg hdots, if_pos hdot]
    · have hlen : (canonical (st ++ [name])).length = stackLength st + 1 + name.length := by
        rw [canonical_eq_spell (by simp), spell_append_singleton, List.length_append,
          List.length_cons, stackLength]
        omega
      have hroom : (canonical (st ++ [name])).length < bound := by omega
      obtain ⟨mem', hpush, hholds, hframe⟩ := pushComponent_eq h hst hname hroom
      refine ⟨mem', ?_, ?_, fun i hi ↦ hframe i (by omega)⟩
      · rw [if_neg hdots, if_pos hdot, hpush]
      · rwa [washStep, if_neg hdots, if_neg hdot]

/-- A component that `path_parse` has stored. -/
structure IsName (name : List UInt8) : Prop where
  ne_nil : name ≠ []
  no_slash : ∀ x ∈ name, x ≠ slash
  no_nul : (0 : UInt8) ∉ name

theorem isProper_of_mem_washStep {st : List (List UInt8)} {name : List UInt8} (hname : IsName name)
    (hst : ∀ c ∈ st, IsProper c) : ∀ c ∈ washStep st name, IsProper c := by
  have hproper : ∀ c ∈ [name], c ≠ dot → c ≠ dotDot → IsProper c := by
    intro c hc hdot hdots
    obtain rfl := List.mem_singleton.mp hc
    exact ⟨hname.ne_nil, hname.no_slash, hdot, hdots⟩
  exact forall_mem_foldl_washStep hproper hst

/-- The rest of a path that `wash_path` has come to. -/
structure IsRest (q : List UInt8) : Prop where
  slash : q = [] ∨ q.head? = some slash
  no_nul : (0 : UInt8) ∉ q
  short : ∀ c ∈ components q, c.length ≤ maxFileNameLen - 1

theorem IsRest.after {q : List UInt8} (h : IsRest q) (hname : nextName q ≠ []) :
    IsName (nextName q) ∧ IsRest (afterName q) ∧ (nextName q).length < maxFileNameLen := by
  have hnul : ∀ x ∈ nextName q ++ afterName q, x ∈ q := fun x hx ↦
    (List.dropWhile_sublist _).subset (dropWhile_eq q ▸ hx)
  have hcomp := components_afterName hname
  have hshort := h.short (nextName q) (nextName_mem hname)
  refine ⟨⟨hname, nextName_no_slash, fun h0 ↦ h.no_nul (hnul 0 (List.mem_append_left _ h0))⟩,
    ⟨head?_afterName q, fun h0 ↦ h.no_nul (hnul 0 (List.mem_append_right _ h0)), fun c hc ↦ ?_⟩, ?_⟩
  · exact h.short c (hcomp ▸ List.mem_cons_of_mem _ hc)
  · rw [maxFileNameLen] at hshort ⊢
    omega

/-- The loop takes the stack through all components that are left. -/
theorem washFrom_eq {N fuel : ℕ} (hN : N < bound) {mem : Image} {st : List (List UInt8)}
    {name q : List UInt8} (h : HoldsString mem new (canonical st)) (hst : ∀ c ∈ st, IsProper c)
    (hname : IsName name) (hq : IsRest q) (hlen : stackLength st + 1 + name.length + q.length ≤ N)
    (hfuel : q.length + 2 ≤ fuel) :
    ∃ mem', washFrom bound new fuel mem name (some q) = some mem' ∧
      HoldsString mem' new (canonical ((name :: components q).foldl washStep st)) ∧
      ∀ i, i < new ∨ new + N < i → mem' i = mem i := by
  induction fuel generalizing mem st name q with
  | zero => omega
  | succ fuel ih =>
    have hroom : stackLength st + 1 + name.length < bound := by omega
    obtain ⟨mem₁, hstep, hholds₁, hframe₁⟩ := wash_component h hst hname.no_nul hroom
    have hend : ∀ sub, washFrom bound new fuel mem₁ [] sub = some mem₁ := by
      intro sub
      obtain ⟨fuel, rfl⟩ := Nat.exists_eq_add_of_le' (show 1 ≤ fuel by omega)
      rw [washFrom, if_pos rfl]
    rw [washFrom, if_neg hname.ne_nil, hstep, Option.bind_some]
    dsimp only
    by_cases hnext : nextName q = []
    · -- nothing is left but slashes
      refine ⟨mem₁, ?_, ?_, fun i hi ↦ hframe₁ i (by omega)⟩
      · rw [pathParseName]
        split_ifs with hnil hlt
        · exact hend none
        · rw [Option.bind_some, hnext]
          exact hend _
        · rw [hnext] at hlt
          exact absurd (by decide) hlt
      · rwa [components_eq_nil_iff.mpr hnext, List.foldl_cons, List.foldl_nil]
    · obtain ⟨hname', hq', hshort⟩ := hq.after hnext
      have hlt := length_name_lt hq.slash hnext
      have hle := stackLength_washStep_le st name
      have hne : q ≠ [] := by
        rintro rfl
        exact hnext rfl
      obtain ⟨mem₂, hret, hholds₂, hframe₂⟩ :=
        ih hholds₁ (isProper_of_mem_washStep hname hst) hname' hq' (by omega) (by omega)
      refine ⟨mem₂, ?_, ?_, fun i hi ↦ (hframe₂ i hi).trans (hframe₁ i (by omega))⟩
      · rw [pathParseName, if_neg hne, if_pos hshort, Option.bind_some]
        exact hret
      · rwa [components_afterName hnext, List.foldl_cons]

end Loop

/-! ## The result -/

/-- An absolute path whose components fit into the array for a name. -/
structure IsAbsolute (p : List UInt8) : Prop where
  slash : p.head? = some slash
  no_nul : (0 : UInt8) ∉ p
  short : ∀ c ∈ components p, c.length ≤ maxFileNameLen - 1

/-- `wash_path` leaves the spelled stack, within as many characters as the path has. -/
theorem washPath_eq {p : List UInt8} (hp : IsAbsolute p) (mem : Image) (new : ℕ) {fuel : ℕ}
    (hfuel : p.length + 2 ≤ fuel) :
    ∃ mem', washPath fuel p new mem = some mem' ∧
      HoldsString mem' new (canonical (washed p)) ∧
      ∀ i, i < new ∨ new + p.length < i → mem' i = mem i := by
  have hne : p ≠ [] := by
    rintro rfl
    cases hp.slash
  have hpos := List.length_pos_iff.mpr hne
  have hrest : IsRest p := ⟨Or.inr hp.slash, hp.no_nul, hp.short⟩
  rw [washPath, if_neg (not_not.mpr hp.slash), pathParseName, if_neg hne]
  by_cases hnext : nextName p = []
  · -- the root
    rw [if_pos (by rw [hnext]; decide), Option.bind_some, if_pos hnext, washed,
      components_eq_nil_iff.mpr hnext]
    refine ⟨_, rfl, ⟨⟨?_, trivial⟩, Function.update_self .., by decide⟩, fun i hi ↦ ?_⟩
    · rw [Function.update_of_ne (by omega), Function.update_self]
    · rw [Function.update_of_ne (by omega), Function.update_of_ne (by omega)]
  · obtain ⟨hname, hq, hshort⟩ := hrest.after hnext
    have hlt := length_name_lt hrest.slash hnext
    have hempty : HoldsString (Function.update mem new 0) new [] :=
      ⟨trivial, Function.update_self .., List.not_mem_nil⟩
    have hroom : ([] : List UInt8).length < fuel := by rw [List.length_nil]; omega
    have hspell : stackLength [] = 0 := rfl
    obtain ⟨mem₁, hcat, hholds₁, hframe₁⟩ := strcat_eq hempty (t := [slash]) (by decide) hroom
    have hroot : HoldsString mem₁ new (canonical []) := hholds₁
    have hlen : p.length < fuel := by omega
    have hrounds : (afterName p).length + 2 ≤ fuel := by omega
    obtain ⟨mem₂, hret, hholds₂, hframe₂⟩ :=
      washFrom_eq hlen hroot (by simp) hname hq (by omega) hrounds
    refine ⟨mem₂, ?_, ?_, fun i hi ↦ ?_⟩
    · rw [if_pos hshort, Option.bind_some, if_neg hnext, hcat, Option.bind_some]
      exact hret
    · rwa [washed, components_afterName hnext]
    · rw [hframe₂ i hi, hframe₁ i (by rw [List.length_nil, List.length_singleton]; omega),
        Function.update_of_ne (by omega)]

/-- A washed path is absolute, too. -/
theorem isAbsolute_canonical_washed {p : List UInt8} (hp : IsAbsolute p) :
    IsAbsolute (canonical (washed p)) := by
  have hkeep : ∀ c ∈ washed p, (0 : UInt8) ∉ c ∧ c.length ≤ maxFileNameLen - 1 := by
    refine forall_mem_foldl_washStep (P := fun c ↦ (0 : UInt8) ∉ c ∧ c.length ≤ maxFileNameLen - 1)
      ?_ (by simp)
    exact fun c hc _ _ ↦ ⟨fun h0 ↦ hp.no_nul (mem_of_mem_components hc h0), hp.short c hc⟩
  refine ⟨rfl, nul_notMem_canonical fun c hc ↦ (hkeep c hc).1, ?_⟩
  rw [components_canonical fun c hc ↦ isProper_of_mem_washed hc]
  exact fun c hc ↦ (hkeep c hc).2

/-- **Washing a path** gives the stack of its components, spelled without ".", ".." and empty
components, and washing the result again changes nothing. -/
theorem washPath_canonical {p : List UInt8} (hp : IsAbsolute p) :
    (∀ mem new fuel, p.length + 2 ≤ fuel → ∃ mem', washPath fuel p new mem = some mem' ∧
      HoldsString mem' new (canonical (washed p)) ∧
      ∀ i, i < new ∨ new + p.length < i → mem' i = mem i) ∧
    (∀ c ∈ washed p, IsProper c) ∧
    ∀ mem new fuel, (canonical (washed p)).length + 2 ≤ fuel → ∃ mem',
      washPath fuel (canonical (washed p)) new mem = some mem' ∧
      HoldsString mem' new (canonical (washed p)) := by
  refine ⟨fun mem new fuel hfuel ↦ washPath_eq hp mem new hfuel,
    fun c hc ↦ isProper_of_mem_washed hc, fun mem new fuel hfuel ↦ ?_⟩
  obtain ⟨mem', hret, hholds, -⟩ :=
    washPath_eq (isAbsolute_canonical_washed hp) mem new hfuel
  rw [washed_canonical fun c hc ↦ isProper_of_mem_washed hc] at hholds
  exact ⟨mem', hret, hholds⟩

theorem isAbsolute_sample : IsAbsolute [47, 97, 47, 46, 46, 47, 47, 98, 47] :=
  ⟨rfl, by decide, by decide⟩

/-- The path `/a/..//b/` is washed to `/b`. -/
theorem washPath_canonical_sample :
    (∀ mem new fuel, 11 ≤ fuel → ∃ mem',
      washPath fuel [47, 97, 47, 46, 46, 47, 47, 98, 47] new mem = some mem' ∧
      HoldsString mem' new [47, 98] ∧ ∀ i, i < new ∨ new + 9 < i → mem' i = mem i) ∧
    (∀ c ∈ [[98]], IsProper c) ∧
    ∀ mem new fuel, 4 ≤ fuel → ∃ mem', washPath fuel [47, 98] new mem = some mem' ∧
      HoldsString mem' new [47, 98] :=
  washPath_canonical isAbsolute_sample

end GlowOS.Shell
