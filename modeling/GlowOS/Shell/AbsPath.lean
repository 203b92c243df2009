import Mathlib
import GlowOS.Fs.WorkingDir
import GlowOS.Shell.WashPath

/-!
# Relative paths

`make_clear_abs_path` of `shell/buildin_cmd.c` puts the path of the working directory in front of a
relative path and washes the result. On the stack of components this is a walk that starts in the
working directory.
-/

namespace GlowOS.Shell

open Bytes CStrings Stdio

/-! ## The function -/

/-- `strcat` to the array `abs_path` of 512 characters. -/
def catPath (f : Image) (src : List UInt8) : Option Image :=
  (strlen 512 f 0).bind fun n ↦ if n + src.length < 512 then some (strcpy f n src) else none

/-- `make_clear_abs_path`. `getcwd` stores `cwd` in the array, or it returns a null pointer. -/
def makeClearAbsPath (fuel : ℕ) (cwd : Option Image) (path : List UInt8) (finalPath : ℕ)
    (mem : Image) : Option Image :=
  (if path.head? ≠ some slash then
    match cwd with
    | none => some fun _ ↦ 0
    | some absPath =>
      if ¬(absPath 0 = slash ∧ absPath 1 = 0) then catPath absPath [slash] else some absPath
  else some fun _ ↦ 0).bind fun absPath ↦
    (catPath absPath path).bind fun absPath ↦
      (strlen 512 absPath 0).bind fun n ↦
        washPath fuel ((List.range n).map absPath) finalPath mem

/-! ## What it stores -/

section AbsPath

variable {f cwd : Image} {t src path : List UInt8} {dir : List (List UInt8)} {fuel finalPath : ℕ}
  {mem : Image}

theorem catPath_eq (hf : HoldsString f 0 t) (hsrc : (0 : UInt8) ∉ src)
    (hroom : t.length + src.length < 512) :
    ∃ g, catPath f src = some g ∧ HoldsString g 0 (t ++ src) := by
  obtain ⟨g, hcat, hholds, -⟩ := strcat_eq hf hsrc (show t.length < 512 by omega)
  rw [strcat, strlen_eq hf (by omega), Option.map_some, Nat.zero_add] at hcat
  refine ⟨g, ?_, hholds⟩
  rw [catPath, strlen_eq hf (by omega), Option.bind_some, if_pos hroom]
  exact hcat

/-- The end of the function, when the array holds an absolute path. -/
theorem washArray_eq (hf : HoldsString f 0 t) (ht : IsAbsolute t) (hroom : t.length < 512)
    (hfuel : 514 ≤ fuel) (finalPath : ℕ) (mem : Image) :
    ∃ mem', ((strlen 512 f 0).bind fun n ↦
        washPath fuel ((List.range n).map f) finalPath mem) = some mem' ∧
      HoldsString mem' finalPath (canonical (washed t)) ∧
      ∀ i, i < finalPath ∨ finalPath + 512 ≤ i → mem' i = mem i := by
  have hlen := strlen_eq hf hroom
  have htext : (List.range t.length).map f = t := by
    have hread := holdsString_of_strlen hlen
    simp only [Nat.zero_add] at hread
    exact HoldsString.unique hread hf
  obtain ⟨mem', hwash, hholds, hframe⟩ := washPath_eq ht mem finalPath (by omega : t.length + 2 ≤ fuel)
  refine ⟨mem', ?_, hholds, fun i hi ↦ hframe i (by omega)⟩
  rw [hlen, Option.bind_some, htext]
  exact hwash

/-- The directory is the root exactly if the test says so. -/
theorem root_iff (hcwd : HoldsString cwd 0 (canonical dir)) (hdir : ∀ c ∈ dir, IsProper c) :
    (cwd 0 = slash ∧ cwd 1 = 0) ↔ dir = [] := by
  constructor
  · rintro ⟨-, hnul⟩
    by_contra hne
    obtain ⟨c, rest, rfl⟩ := List.exists_cons_of_ne_nil hne
    rw [canonical_eq_spell hne, spell_cons] at hcwd
    have hc := List.length_pos_of_ne_nil (hdir c List.mem_cons_self).ne_nil
    exact hcwd.ne_zero (i := 1) (by rw [List.length_cons, List.length_append]; omega) hnul
  · rintro rfl
    exact ⟨hcwd.spells.1, hcwd.terminated⟩

/-- What stands in front of a relative path. -/
theorem washed_relative (path : List UInt8) (hdir : ∀ c ∈ dir, IsProper c) :
    components (canonical dir ++ slash :: path) = dir ++ components path ∧
      washed (canonical dir ++ slash :: path) = (components path).foldl washStep dir := by
  have hcomp : components (canonical dir ++ slash :: path) = dir ++ components path := by
    rw [components_append, components_canonical hdir]
  have hstack : dir.foldl washStep [] = dir := by
    have h := washed_canonical hdir
    rwa [washed, components_canonical hdir] at h
  refine ⟨hcomp, ?_⟩
  rw [washed, hcomp, List.foldl_append, hstack]

/-- **A path is taken from the working directory**, or from the root if it is absolute: the result spells
the stack to which the components of the path lead from there. -/
theorem makeClearAbsPath_resolves (hcwd : HoldsString cwd 0 (canonical dir))
    (hdir : ∀ c ∈ dir, IsProper c ∧ c.length ≤ maxFileNameLen - 1) (hnul : (0 : UInt8) ∉ path)
    (hshort : ∀ c ∈ components path, c.length ≤ maxFileNameLen - 1)
    (hlen : (canonical dir).length + 1 + path.length < 512) (hfuel : 514 ≤ fuel) (finalPath : ℕ)
    (mem : Image) :
    ∃ mem', makeClearAbsPath fuel (some cwd) path finalPath mem = some mem' ∧
      HoldsString mem' finalPath (canonical
        ((components path).foldl washStep (if path.head? = some slash then [] else dir))) ∧
      ∀ i, i < finalPath ∨ finalPath + 512 ≤ i → mem' i = mem i := by
  have hproper : ∀ c ∈ dir, IsProper c := fun c hc ↦ (hdir c hc).1
  by_cases habs : path.head? = some slash
  · obtain ⟨g, hcat, hholds⟩ := catPath_eq (holdsString_zero 0) hnul
      (show ([] : List UInt8).length + path.length < 512 by rw [List.length_nil]; omega)
    rw [List.nil_append] at hholds
    obtain ⟨mem', hwash, hret⟩ :=
      washArray_eq hholds ⟨habs, hnul, hshort⟩ (by omega) hfuel finalPath mem
    refine ⟨mem', ?_, ?_⟩
    · rw [makeClearAbsPath, if_neg (not_not_intro habs), Option.bind_some, hcat, Option.bind_some]
      exact hwash
    · rw [if_pos habs]
      exact hret
  · -- the array holds the path of the directory with one slash behind it
    obtain ⟨g, hjoin, hg⟩ : ∃ g,
        (if ¬(cwd 0 = slash ∧ cwd 1 = 0) then catPath cwd [slash] else some cwd) = some g ∧
        HoldsString g 0 (if dir = [] then [slash] else canonical dir ++ [slash]) := by
      by_cases hroot : dir = []
      · rw [if_neg (not_not_intro ((root_iff hcwd hproper).mpr hroot)), if_pos hroot]
        subst hroot
        exact ⟨cwd, rfl, hcwd⟩
      · rw [if_pos fun h ↦ hroot ((root_iff hcwd hproper).mp h), if_neg hroot]
        exact catPath_eq hcwd (by decide) (by rw [List.length_singleton]; omega)
    have hpath : ∃ p, HoldsString g 0 p ∧ p.length ≤ (canonical dir).length + 1 ∧
        IsAbsolute (p ++ path) ∧ washed (p ++ path) = (components path).foldl washStep dir := by
      by_cases hroot : dir = []
      · rw [if_pos hroot] at hg
        subst hroot
        refine ⟨[slash], hg, by simp, ⟨rfl, ?_, ?_⟩, ?_⟩
        · simpa using ⟨by decide, hnul⟩
        · rw [List.singleton_append, components_slash]
          exact hshort
        · rw [List.singleton_append, washed, components_slash]
      · rw [if_neg hroot] at hg
        obtain ⟨hcomp, hwashed⟩ := washed_relative path hproper
        refine ⟨canonical dir ++ [slash], hg, by simp, ⟨?_, ?_, ?_⟩, ?_⟩
        · rw [canonical]
          rfl
        · intro h0
          rcases List.mem_append.mp h0 with h0 | h0
          · exact hg.noNul h0
          · exact hnul h0
        · rw [List.append_assoc, List.singleton_append, hcomp]
          intro c hc
          rcases List.mem_append.mp hc with hc | hc
          · exact (hdir c hc).2
          · exact hshort c hc
        · rw [List.append_assoc, List.singleton_append, hwashed]
    obtain ⟨p, hp, hplen, habsolute, hwashed⟩ := hpath
    obtain ⟨g₂, hcat, hholds⟩ := catPath_eq hp hnul (by omega : p.length + path.length < 512)
    obtain ⟨mem', hwash, hret⟩ := washArray_eq hholds habsolute
      (by rw [List.length_append]; omega) hfuel finalPath mem
    refine ⟨mem', ?_, ?_⟩
    · rw [makeClearAbsPath, if_pos habs]
      change ((if ¬(cwd 0 = slash ∧ cwd 1 = 0) then catPath cwd [slash] else some cwd).bind _) = _
      rw [hjoin, Option.bind_some, hcat, Option.bind_some]
      exact hwash
    · rw [if_neg habs, ← hwashed]
      exact hret

theorem makeClearAbsPath_resolves_sample : ∃ mem',
    makeClearAbsPath 514 (some (strcpy (fun _ ↦ 0) 0 [47, 97])) [46, 46, 47, 98] 4096 (fun _ ↦ 0) =
      some mem' ∧ HoldsString mem' 4096 [47, 98] := by
  have hcwd : HoldsString (strcpy (fun _ ↦ 0) 0 [47, 97]) 0 (canonical [[97]]) := by
    have hnul : (0 : UInt8) ∉ [47, 97] := by decide
    rw [canonical_singleton]
    exact holdsString_strcpy hnul
  have hdir : ∀ c ∈ [[97]], IsProper c ∧ c.length ≤ maxFileNameLen - 1 := by
    intro c hc
    obtain rfl := List.mem_singleton.mp hc
    exact ⟨⟨by decide, by simp [slash], by decide, by decide⟩, by decide⟩
  have hlen : (canonical [[97]]).length + 1 + [46, 46, 47, (98 : UInt8)].length < 512 := by
    rw [canonical_singleton]
    decide
  have hup : (components [46, 46, 47, 98]).foldl washStep [[97]] = [[98]] := by decide
  obtain ⟨mem', hret, hholds, -⟩ :=
    makeClearAbsPath_resolves hcwd hdir (by decide) (by decide) hlen le_rfl 4096 fun _ ↦ 0
  rw [if_neg (by decide), hup, canonical_singleton] at hholds
  exact ⟨mem', hret, hholds⟩

end AbsPath

/-- What `getcwd` stores is the directory in this form, the root too. -/
theorem holdsString_getcwd {E : Env} {size cwdInodeNr : ℕ} {s s' : Fs} {cwd : Image}
    (h : Program.Returns (sysGetcwd E size cwdInodeNr) s (some cwd) s') :
    ∃ names s₁ s₂, Climbs E cwdInodeNr names s₁ s₂ ∧
      ((∀ m ∈ names, slash ∉ m) → HoldsString cwd 0 (canonical names.reverse)) := by
  by_cases hroot : cwdInodeNr = 0
  · obtain ⟨block, s₁, -, hrest₁⟩ := Program.returns_bind.mp h
    cases block with
    | none => cases (Program.returns_pure.mp hrest₁).1
    | some ioBuf =>
      obtain ⟨u, s₂, -, hrest₂⟩ := Program.returns_bind.mp hrest₁
      rw [if_pos hroot] at hrest₂
      obtain ⟨heq, -⟩ := Program.returns_pure.mp hrest₂
      cases heq
      subst hroot
      exact ⟨[], s, s, .root s, fun _ ↦ holdsString_strcpy (by decide)⟩
  · obtain ⟨-, names, s₁, s₂, -, hclimbs, -, hpath⟩ := names_of_sysGetcwd hroot h
    refine ⟨names, s₁, s₂, hclimbs, fun hslash ↦ ?_⟩
    rw [canonical_eq_spell (List.reverse_ne_nil_iff.mpr (hclimbs.ne_nil hroot))]
    exact (hpath hslash).1

end GlowOS.Shell
