import Mathlib
import GlowOS.Fs.Layout
import GlowOS.Fs.Path
import GlowOS.Fs.Syscalls
import GlowOS.Stdio.Strings

/-!
# The path of the working directory

`sys_getcwd` climbs from the working directory to the root and looks up the name of each directory in
its parent. The names come in the wrong order; a second loop takes them one by one from the end of the
text and moves them over to the buffer of the caller.
-/

namespace GlowOS

open Bytes CStrings Scan Program Stdio

/-! ## The code -/

/-- The string at an address, for a call that copies it from an object that ends `room` bytes on. -/
def readString (room : ℕ) (f : Image) (a : ℕ) : FsM (List UInt8) :=
  match strlen room f a with
  | none => throw Fault.overrun
  | some n => pure ((List.range n).map fun i ↦ f (a + i))

/-- `strcat` to the string in an array of `room` characters. -/
def strcatIn (room : ℕ) (f : Image) (src : List UInt8) : FsM Image :=
  match strlen room f 0 with
  | none => throw Fault.overrun
  | some n => do
    check Fault.overrun (n + src.length < room)
    pure (strcpy f n src)

/-- `get_parent_dir_inode_nr`. -/
def getParentDirInodeNr (E : Env) (childInodeNr : ℕ) : FsM ℕ := do
  let a ← inodeOpen E childInodeNr
  let ino ← inodeAt a
  ASSERT (E.part.sb.dataStartLba ≤ ino.iSectors 0)
  inodeClose E a
  let buf ← ideRead (ino.iSectors 0) 512 1
  let e := DirEntry.decode buf 24
  ASSERT (e.iNo < 4096 ∧ e.fType = FileType.directory)
  pure e.iNo

/-- The loop of `get_child_dir_name` over the blocks from index `k` on. It does not get past a block that
is not there. -/
def findChild (E : Env) (cInodeNr : ℕ) (allBlocks : ℕ → ℕ) : ℕ → ℕ → FsM (Option (List UInt8))
  | 0, _ => pure none
  | left + 1, k =>
    if allBlocks k = 0 then throw Fault.hang
    else do
      let buf ← ideRead (allBlocks k) 512 1
      match firstFrom (fun j ↦ (DirEntry.decode buf (24 * j)).iNo == cInodeNr) (dirEntrysPerSec E) 0 with
      | some j => some <$> readString (512 - 24 * j) buf (24 * j)
      | none => findChild E cInodeNr allBlocks left (k + 1)

/-- `get_child_dir_name`: the name that it appends to the path, `none` for -1. -/
def getChildDirName (E : Env) (pInodeNr cInodeNr : ℕ) : FsM (Option (List UInt8)) := do
  let a ← inodeOpen E pInodeNr
  let ino ← inodeAt a
  let blocks ← collectBlocks ino
  inodeClose E a
  findChild E cInodeNr blocks (if ino.iSectors 12 ≠ 0 then 140 else 12) 0

/-- The first loop of `sys_getcwd`. Each round adds to `full_path_reverse`, which has 512 characters. -/
def climb (E : Env) : ℕ → ℕ → Image → FsM (Option Image)
  | 0, _, _ => throw Fault.hang
  | fuel + 1, child, path =>
    if child = 0 then pure (some path)
    else do
      let parent ← getParentDirInodeNr E child
      match ← getChildDirName E parent child with
      | none => pure none
      | some name => do
        let path ← strcatIn 512 path [slash]
        let path ← strcatIn 512 path name
        climb E fuel parent path

/-- The second loop of `sys_getcwd`. -/
def turn (size : ℕ) : ℕ → Image → Image → FsM Image
  | 0, _, _ => throw Fault.hang
  | fuel + 1, path, buf =>
    match strrchr path slash 512 0 none with
    | none => throw Fault.overrun
    | some none => pure buf
    | some (some lastSlash) => do
      let src ← readString (512 - lastSlash) path lastSlash
      match strlen size buf 0 with
      | none => throw Fault.overrun
      | some len => do
        check Fault.overrun (len + src.length < size)
        turn size fuel (Function.update path lastSlash 0) (strcpy buf len src)

/-- `sys_getcwd` for a thread with this `cwd_inode_nr`: the buffer, `none` for a null pointer. -/
def sysGetcwd (E : Env) (size cwdInodeNr : ℕ) : FsM (Option Image) := do
  match ← sysMalloc E Blk.buffer 512 with
  | none => pure none
  | some ioBuf => do
    ASSERT (cwdInodeNr < 4096)
    if cwdInodeNr = 0 then pure (some (strcpy (fun _ ↦ 0) 0 [slash]))
    else do
      match ← climb E 513 cwdInodeNr (fun _ ↦ 0) with
      | none => do
        sysFree E ioBuf
        pure none
      | some path => do
        match strlen 512 path 0 with
        | none => throw Fault.overrun
        | some n => do
          ASSERT (n ≤ size)
          let buf ← turn size 513 path (fun _ ↦ 0)
          sysFree E ioBuf
          pure (some buf)

/-! ## The text -/

theorem spell_append (ns ms : List (List UInt8)) : spell (ns ++ ms) = spell ns ++ spell ms :=
  List.flatMap_append

theorem spell_singleton (n : List UInt8) : spell [n] = slash :: n := by simp [spell]

section Text

variable {s s' : Fs} {f g buf : Image} {t src : List UInt8} {room size fuel a n : ℕ}
  {names : List (List UInt8)}

theorem holdsString_zero (o : ℕ) : HoldsString (fun _ ↦ 0) o [] := ⟨trivial, rfl, by simp⟩

theorem HoldsString.unique (h : HoldsString f a t) (h' : HoldsString f a src) : t = src := by
  induction t generalizing a src with
  | nil =>
    cases src with
    | nil => rfl
    | cons c src => exact absurd h.terminated (h'.ne_zero (i := 0) (by simp))
  | cons c t ih =>
    cases src with
    | nil => exact absurd h'.terminated (h.ne_zero (i := 0) (by simp))
    | cons c' src =>
      have hc : c = c' := h.spells.1.symm.trans h'.spells.1
      rw [hc, ih (HoldsString.drop (s := [c]) h) (HoldsString.drop (s := [c']) h')]

theorem spells_range (f : Image) (a n : ℕ) :
    Spells f a ((List.range n).map fun i ↦ f (a + i)) := by
  induction n with
  | zero => trivial
  | succ n ih =>
    rw [List.range_succ, List.map_append, spells_append]
    refine ⟨ih, ?_⟩
    rw [List.length_map, List.length_range]
    exact ⟨rfl, trivial⟩

/-- What `strlen` counts is a string. -/
theorem holdsString_of_strlen (h : strlen room f a = some n) :
    HoldsString f a ((List.range n).map fun i ↦ f (a + i)) := by
  obtain ⟨i, hi, rfl⟩ := Option.map_eq_some_iff.mp h
  obtain ⟨h1, -, h2, h3⟩ := firstFrom_eq_some.mp hi
  refine ⟨spells_range f a _, ?_, fun h0 ↦ ?_⟩
  · rw [List.length_map, List.length_range, Nat.add_sub_cancel' h1]
    simpa using h2
  · obtain ⟨j, hj, hzero⟩ := List.mem_map.mp h0
    have hlt := List.mem_range.mp hj
    have hne := h3 (a + j) (by omega) (by omega)
    simp [hzero] at hne

/-- The string that is read stands there. -/
theorem holdsString_of_readString (h : Returns (readString room f a) s src s') :
    HoldsString f a src ∧ s' = s := by
  rw [readString] at h
  split at h
  · exact absurd h returns_throw
  next n hn =>
    obtain ⟨rfl, rfl⟩ := returns_pure.mp h
    exact ⟨holdsString_of_strlen hn, rfl⟩

theorem holdsString_of_strcatIn (hf : HoldsString f 0 t) (hsrc : (0 : UInt8) ∉ src)
    (h : Returns (strcatIn room f src) s g s') : HoldsString g 0 (t ++ src) ∧ s' = s ∧
      t.length + src.length < room := by
  rw [strcatIn] at h
  split at h
  · exact absurd h returns_throw
  next n hn =>
    obtain ⟨u, s₁, hcheck, hret⟩ := returns_bind.mp h
    obtain ⟨hroom, rfl⟩ := returns_check.mp hcheck
    obtain ⟨rfl, rfl⟩ := returns_pure.mp hret
    have hlen : t.length = n := by
      have heq := HoldsString.unique hf (holdsString_of_strlen hn)
      rw [heq, List.length_map, List.length_range]
    obtain ⟨mem', hcat, hholds, -⟩ := strcat_eq hf hsrc (Nat.lt_succ_self t.length)
    rw [strcat, strlen_eq hf (Nat.lt_succ_self _), Option.map_some, Nat.zero_add, hlen] at hcat
    cases hcat
    exact ⟨hholds, rfl, hlen ▸ hroom⟩

theorem readString_returns (h : HoldsString f a t) (hroom : t.length < room) :
    Returns (readString room f a) s t s := by
  have hlen := strlen_eq h hroom
  rw [readString, hlen]
  exact returns_pure.mpr ⟨HoldsString.unique h (holdsString_of_strlen hlen), rfl⟩

theorem strcatIn_returns (hf : HoldsString f 0 t) (hsrc : (0 : UInt8) ∉ src)
    (hroom : t.length + src.length < room) :
    ∃ g, Returns (strcatIn room f src) s g s ∧ HoldsString g 0 (t ++ src) := by
  have hret : Returns (strcatIn room f src) s (strcpy f t.length src) s := by
    rw [strcatIn, strlen_eq hf (by omega)]
    exact returns_bind.mpr ⟨PUnit.unit, s, returns_check.mpr ⟨hroom, rfl⟩, returns_pure.mpr ⟨rfl, rfl⟩⟩
  exact ⟨_, hret, (holdsString_of_strcatIn hf hsrc hret).1⟩

/-- `*last_slash = 0`. -/
theorem holdsString_cut (h : HoldsString f a (t ++ src)) :
    HoldsString (Function.update f (a + t.length) 0) a t := by
  refine ⟨?_, Function.update_self .., fun h0 ↦ h.noNul (List.mem_append_left _ h0)⟩
  refine (spells_append.mp h.spells).1.congr fun i h1 h2 ↦ ?_
  exact Function.update_of_ne (by omega) ..

/-- The second loop leaves the file system alone. -/
theorem turn_state (h : Returns (turn size fuel f buf) s g s') : s' = s := by
  induction fuel generalizing f buf with
  | zero => exact absurd h returns_throw
  | succ fuel ih =>
    rw [turn] at h
    split at h
    · exact absurd h returns_throw
    · exact (returns_pure.mp h).2
    · obtain ⟨src, s₁, hread, hrest⟩ := returns_bind.mp h
      obtain ⟨-, rfl⟩ := holdsString_of_readString hread
      split at hrest
      · exact absurd hrest returns_throw
      · obtain ⟨u, s₂, hcheck, hturn⟩ := returns_bind.mp hrest
        obtain ⟨-, rfl⟩ := returns_check.mp hcheck
        exact ih hturn

/-- The second loop turns the path round. -/
theorem turn_spec (hslash : ∀ m ∈ names, slash ∉ m) (hpath : HoldsString f 0 (spell names))
    (hlen : (spell names).length < 512) (hbuf : HoldsString buf 0 t)
    (h : Returns (turn size fuel f buf) s g s') :
    HoldsString g 0 (t ++ spell names.reverse) ∧
      (names ≠ [] → t.length + (spell names).length < size) := by
  induction fuel generalizing names f buf t with
  | zero => exact absurd h returns_throw
  | succ fuel ih =>
    rw [turn] at h
    rcases List.eq_nil_or_concat' names with rfl | ⟨ns, m, rfl⟩
    · rw [strrchr_of_notMem hpath (by simp [spell]) (by simp [spell])] at h
      obtain ⟨rfl, rfl⟩ := returns_pure.mp h
      exact ⟨by simpa [spell] using hbuf, fun hnil ↦ absurd rfl hnil⟩
    · -- the last slash stands in front of the last name
      rw [spell_append, spell_singleton] at hpath hlen
      rw [strrchr_eq none hpath (hslash m (by simp)) hlen] at h
      obtain ⟨src, s₁, hread, hrest⟩ := returns_bind.mp h
      obtain ⟨hsrc, rfl⟩ := holdsString_of_readString hread
      have hlast : HoldsString f (0 + (spell ns).length) (slash :: m) := hpath.drop
      obtain rfl := HoldsString.unique hsrc hlast
      split at hrest
      · exact absurd hrest returns_throw
      next n hn =>
        obtain ⟨u, s₂, hcheck, hturn⟩ := returns_bind.mp hrest
        obtain ⟨hroom, rfl⟩ := returns_check.mp hcheck
        have hn' : t.length = n := by
          have heq := HoldsString.unique hbuf (holdsString_of_strlen hn)
          rw [heq, List.length_map, List.length_range]
        have hnul : (0 : UInt8) ∉ slash :: m := hlast.noNul
        obtain ⟨mem', hcat, hholds, -⟩ := strcat_eq hbuf hnul (Nat.lt_succ_self t.length)
        rw [strcat, strlen_eq hbuf (Nat.lt_succ_self _), Option.map_some, Nat.zero_add, hn'] at hcat
        cases hcat
        have hcut := holdsString_cut hpath
        rw [List.length_append] at hlen
        obtain ⟨hret, hfit⟩ := ih (fun k hk ↦ hslash k (by simp [hk])) hcut (by omega) hholds hturn
        refine ⟨?_, fun _ ↦ ?_⟩
        rotate_left
        · rw [spell_append, spell_singleton, List.length_append]
          by_cases hns : ns = []
          · rw [hns, spell, List.flatMap_nil, List.length_nil, hn']
            omega
          · have hrest := hfit hns
            rw [List.length_append] at hrest
            omega
        rw [List.reverse_append, List.reverse_singleton, spell_append,
          spell_singleton, ← List.append_assoc]
        exact hret

/-- The second loop ends if the path fits into the buffer. -/
theorem turn_returns (hslash : ∀ m ∈ names, slash ∉ m) (hpath : HoldsString f 0 (spell names))
    (hlen : (spell names).length < 512) (hbuf : HoldsString buf 0 t)
    (hfit : t.length + (spell names).length < size) (hfuel : names.length < fuel) :
    ∃ g, Returns (turn size fuel f buf) s g s := by
  induction fuel generalizing names f buf t with
  | zero => exact absurd hfuel (Nat.not_lt_zero _)
  | succ fuel ih =>
    rw [turn]
    rcases List.eq_nil_or_concat' names with rfl | ⟨ns, m, rfl⟩
    · rw [strrchr_of_notMem hpath (by simp [spell]) (by simp [spell])]
      exact ⟨buf, returns_pure.mpr ⟨rfl, rfl⟩⟩
    · rw [spell_append, spell_singleton] at hpath hlen hfit
      rw [strrchr_eq none hpath (hslash m (by simp)) hlen]
      have hlast : HoldsString f (0 + (spell ns).length) (slash :: m) := hpath.drop
      rw [List.length_append] at hlen hfit
      have hread : Returns (readString (512 - (0 + (spell ns).length)) f (0 + (spell ns).length)) s
          (slash :: m) s := readString_returns hlast (by omega)
      obtain ⟨g₁, hcat, hholds⟩ := strcatIn_returns (s := s) hbuf hlast.noNul
        (by omega : t.length + (slash :: m).length < size)
      rw [strcatIn, strlen_eq hbuf (by omega)] at hcat
      obtain ⟨u, s₁, hcheck, hpure⟩ := returns_bind.mp hcat
      obtain ⟨rfl, -⟩ := returns_pure.mp hpure
      obtain ⟨hroom, -⟩ := returns_check.mp hcheck
      have hcut := holdsString_cut hpath
      rw [List.length_append, List.length_singleton] at hfuel
      obtain ⟨g, hg⟩ := ih (fun k hk ↦ hslash k (by simp [hk])) hcut (by omega) hholds
        (by rw [List.length_append]; omega) (by omega)
      refine ⟨g, returns_bind.mpr ⟨_, s, hread, ?_⟩⟩
      rw [strlen_eq hbuf (by omega)]
      exact returns_bind.mpr ⟨PUnit.unit, s, returns_check.mpr ⟨hroom, rfl⟩, hg⟩

end Text

/-! ## The climb -/

/-- The names on the way from a directory up to the root. -/
inductive Climbs (E : Env) : ℕ → List (List UInt8) → Fs → Fs → Prop
  | root (s : Fs) : Climbs E 0 [] s s
  | up {child parent : ℕ} {name : List UInt8} {names : List (List UInt8)} {s s₁ s₂ s' : Fs}
      (hne : child ≠ 0) (hparent : Returns (getParentDirInodeNr E child) s parent s₁)
      (hname : Returns (getChildDirName E parent child) s₁ (some name) s₂)
      (hrest : Climbs E parent names s₂ s') : Climbs E child (name :: names) s s'

theorem Climbs.ne_nil {E : Env} {child : ℕ} {names : List (List UInt8)} {s s' : Fs}
    (h : Climbs E child names s s') (hne : child ≠ 0) : names ≠ [] := by
  cases h with
  | root => exact absurd rfl hne
  | up => exact List.cons_ne_nil _ _

theorem Climbs.unique {E : Env} {child : ℕ} {names names' : List (List UInt8)} {s s₁ s₂ : Fs}
    (h : Climbs E child names s s₁) (h' : Climbs E child names' s s₂) : names = names' := by
  induction h generalizing names' with
  | root s =>
    cases h' with
    | root => rfl
    | up hne => exact absurd rfl hne
  | up hne hparent hname hrest ih =>
    cases h' with
    | root => exact absurd rfl hne
    | up hne' hparent' hname' hrest' =>
      obtain ⟨rfl, rfl⟩ := hparent.unique hparent'
      obtain ⟨heq, rfl⟩ := hname.unique hname'
      cases heq
      rw [ih hrest']

section Climb

variable {E : Env} {s s' : Fs} {f g buf : Image} {t name : List UInt8} {fuel child size cwd : ℕ}

theorem findChild_noNul {blocks : ℕ → ℕ} {c left k : ℕ}
    (h : Returns (findChild E c blocks left k) s (some name) s') : (0 : UInt8) ∉ name := by
  induction left generalizing k s with
  | zero => cases (returns_pure.mp h).1
  | succ left ih =>
    rw [findChild] at h
    split at h
    · exact absurd h returns_throw
    · obtain ⟨b, s₁, -, h⟩ := returns_bind.mp h
      split at h
      next j hj =>
        obtain ⟨src, hread, heq⟩ := returns_map.mp h
        cases heq
        exact (holdsString_of_readString hread).1.noNul
      · exact ih h

theorem getChildDirName_noNul {p c : ℕ}
    (h : Returns (getChildDirName E p c) s (some name) s') : (0 : UInt8) ∉ name := by
  obtain ⟨a, s₁, -, h⟩ := returns_bind.mp h
  obtain ⟨ino, s₂, -, h⟩ := returns_bind.mp h
  obtain ⟨blocks, s₃, -, h⟩ := returns_bind.mp h
  obtain ⟨u, s₄, -, h⟩ := returns_bind.mp h
  exact findChild_noNul h

/-- The first loop writes down the names that it finds. -/
theorem climb_spec (hpath : HoldsString f 0 t) (ht : t.length < 512)
    (h : Returns (climb E fuel child f) s (some g) s') :
    ∃ names, Climbs E child names s s' ∧ HoldsString g 0 (t ++ spell names) ∧
      (t ++ spell names).length < 512 := by
  induction fuel generalizing child f t s with
  | zero => exact absurd h returns_throw
  | succ fuel ih =>
    rw [climb] at h
    split at h
    next hzero =>
      obtain ⟨heq, rfl⟩ := returns_pure.mp h
      cases heq
      subst hzero
      exact ⟨[], .root s', by simpa [spell] using hpath, by simpa [spell] using ht⟩
    next hne =>
      obtain ⟨parent, s₁, hparent, hrest₁⟩ := returns_bind.mp h
      obtain ⟨r, s₂, hname, hrest₂⟩ := returns_bind.mp hrest₁
      cases r with
      | none => cases (returns_pure.mp hrest₂).1
      | some name =>
        obtain ⟨f₁, s₃, h1, hrest₃⟩ := returns_bind.mp hrest₂
        obtain ⟨f₂, s₄, h2, hrest₄⟩ := returns_bind.mp hrest₃
        obtain ⟨hf₁, rfl, -⟩ := holdsString_of_strcatIn hpath (by decide) h1
        obtain ⟨hf₂, rfl, hroom⟩ := holdsString_of_strcatIn hf₁ (getChildDirName_noNul hname) h2
        have hlen₂ : (t ++ [slash] ++ name).length < 512 := by
          rw [List.length_append]
          exact hroom
        obtain ⟨names, hclimbs, hholds, hlen⟩ := ih hf₂ hlen₂ hrest₄
        refine ⟨name :: names, .up hne hparent hname hclimbs, ?_, ?_⟩
        · simpa [spell] using hholds
        · simpa [spell] using hlen

/-- It ends if they fit. -/
theorem climb_returns {names : List (List UInt8)} (hclimbs : Climbs E child names s s')
    (hpath : HoldsString f 0 t) (hlen : (t ++ spell names).length < 512)
    (hfuel : names.length < fuel) : ∃ g, Returns (climb E fuel child f) s (some g) s' := by
  induction hclimbs generalizing fuel f t with
  | root s =>
    obtain ⟨fuel, rfl⟩ := Nat.exists_eq_add_of_lt hfuel
    exact ⟨f, returns_pure.mpr ⟨rfl, rfl⟩⟩
  | @up child parent name names s s₁ s₂ s' hne hparent hname hrest ih =>
    obtain ⟨fuel, rfl⟩ := Nat.exists_eq_succ_of_ne_zero (Nat.ne_zero_of_lt hfuel)
    have hall : (t ++ spell (name :: names)).length =
        t.length + 1 + name.length + (spell names).length := by
      simp [spell]
      omega
    rw [hall] at hlen
    obtain ⟨f₁, h1, hf₁⟩ := strcatIn_returns (s := s₂) hpath (by decide)
      (show t.length + [slash].length < 512 by rw [List.length_singleton]; omega)
    obtain ⟨f₂, h2, hf₂⟩ := strcatIn_returns (s := s₂) hf₁ (getChildDirName_noNul hname)
      (show (t ++ [slash]).length + name.length < 512 by
        rw [List.length_append, List.length_singleton]
        omega)
    obtain ⟨g, hg⟩ := ih hf₂
      (by rw [List.length_append, List.length_append, List.length_append, List.length_singleton]; omega)
      (Nat.lt_of_succ_lt_succ hfuel)
    refine ⟨g, ?_⟩
    rw [climb, if_neg hne]
    exact returns_bind.mpr ⟨_, _, hparent, returns_bind.mpr ⟨_, _, hname,
      returns_bind.mpr ⟨_, _, h1, returns_bind.mpr ⟨_, _, h2, hg⟩⟩⟩⟩

theorem length_le_spell (names : List (List UInt8)) : names.length ≤ (spell names).length := by
  induction names with
  | nil => exact le_rfl
  | cons n ns ih =>
    have hcons : (spell (n :: ns)).length = n.length + 1 + (spell ns).length := by
      rw [← List.singleton_append, spell_append, spell_singleton, List.length_append,
        List.length_cons]
    rw [List.length_cons, hcons]
    omega

/-- What `sys_getcwd` stores is made of the names that it finds. -/
theorem names_of_sysGetcwd (hcwd : cwd ≠ 0) (h : Returns (sysGetcwd E size cwd) s (some buf) s') :
    ∃ ioBuf names s₁ s₂, Returns (sysMalloc E Blk.buffer 512) s (some ioBuf) s₁ ∧
      Climbs E cwd names s₁ s₂ ∧ Returns (sysFree E ioBuf) s₂ PUnit.unit s' ∧
        ((∀ m ∈ names, slash ∉ m) → HoldsString buf 0 (spell names.reverse) ∧
          (spell names).length < 512 ∧ (spell names).length < size) := by
  obtain ⟨block, s₁, hmalloc, hrest₁⟩ := returns_bind.mp h
  cases block with
  | none => cases (returns_pure.mp hrest₁).1
  | some ioBuf =>
    obtain ⟨u, s₂, hassert, hrest₂⟩ := returns_bind.mp hrest₁
    obtain ⟨-, rfl⟩ := returns_check.mp hassert
    rw [if_neg hcwd] at hrest₂
    obtain ⟨found, s₃, hclimb, hrest₃⟩ := returns_bind.mp hrest₂
    cases found with
    | none =>
      obtain ⟨u, s₄, -, hrest₄⟩ := returns_bind.mp hrest₃
      cases (returns_pure.mp hrest₄).1
    | some path =>
      obtain ⟨names, hclimbs, hholds, hlen⟩ := climb_spec (holdsString_zero 0) (by decide) hclimb
      dsimp only at hrest₃
      split at hrest₃
      · exact absurd hrest₃ returns_throw
      · obtain ⟨u, s₄, hassert, hrest₄⟩ := returns_bind.mp hrest₃
        obtain ⟨-, rfl⟩ := returns_check.mp hassert
        obtain ⟨b, s₅, hturn, hrest₅⟩ := returns_bind.mp hrest₄
        obtain ⟨u, s₆, hfree, hrest₆⟩ := returns_bind.mp hrest₅
        obtain ⟨heq, rfl⟩ := returns_pure.mp hrest₆
        cases heq
        obtain rfl := turn_state hturn
        refine ⟨ioBuf, names, _, _, hmalloc, hclimbs, hfree, fun hslash ↦ ?_⟩
        obtain ⟨hret, hfit⟩ := turn_spec hslash hholds hlen (holdsString_zero 0) hturn
        have hfit' := hfit (hclimbs.ne_nil hcwd)
        rw [List.length_nil, Nat.zero_add] at hfit'
        exact ⟨hret, hlen, hfit'⟩

/-- It returns if the path fits. -/
theorem sysGetcwd_returns {ioBuf : ℕ} {names : List (List UInt8)} {s₁ s₂ : Fs} (hcwd : cwd ≠ 0)
    (hlt : cwd < 4096) (hmalloc : Returns (sysMalloc E Blk.buffer 512) s (some ioBuf) s₁)
    (hclimbs : Climbs E cwd names s₁ s₂) (hfree : Returns (sysFree E ioBuf) s₂ PUnit.unit s')
    (hslash : ∀ m ∈ names, slash ∉ m) (hlen : (spell names).length < 512)
    (hfit : (spell names).length < size) :
    ∃ buf, Returns (sysGetcwd E size cwd) s (some buf) s' := by
  have hfuel := length_le_spell names
  obtain ⟨path, hclimb⟩ := climb_returns hclimbs (holdsString_zero 0) hlen
    (by omega : names.length < 513)
  obtain ⟨names', hclimbs', hholds, -⟩ := climb_spec (holdsString_zero 0) (by decide) hclimb
  obtain rfl := hclimbs.unique hclimbs'
  obtain ⟨buf, hturn⟩ := turn_returns (s := s₂) hslash hholds hlen (holdsString_zero 0)
    (show ([] : List UInt8).length + (spell names).length < size by rw [List.length_nil]; omega)
    (by omega : names.length < 513)
  have hstrlen : strlen 512 path 0 = some (spell names).length := strlen_eq hholds hlen
  refine ⟨buf, returns_bind.mpr ⟨_, _, hmalloc, returns_bind.mpr ⟨PUnit.unit, s₁,
    returns_check.mpr ⟨hlt, rfl⟩, ?_⟩⟩⟩
  rw [if_neg hcwd]
  refine returns_bind.mpr ⟨_, _, hclimb, ?_⟩
  dsimp only
  rw [hstrlen]
  exact returns_bind.mpr ⟨PUnit.unit, s₂, returns_check.mpr ⟨hfit.le, rfl⟩, returns_bind.mpr
    ⟨buf, s₂, hturn, returns_bind.mpr ⟨_, _, hfree, returns_pure.mpr ⟨rfl, rfl⟩⟩⟩⟩

/-- **The path of the working directory** consists of the names found on the way up, from the root down,
and it is returned exactly if it fits into both arrays. -/
theorem sysGetcwd_path (size : ℕ) {ioBuf : ℕ} {names : List (List UInt8)} {s₁ s₂ : Fs}
    (hcwd : cwd ≠ 0) (hlt : cwd < 4096) (hmalloc : Returns (sysMalloc E Blk.buffer 512) s (some ioBuf) s₁)
    (hclimbs : Climbs E cwd names s₁ s₂) (hfree : Returns (sysFree E ioBuf) s₂ PUnit.unit s')
    (hslash : ∀ m ∈ names, slash ∉ m) :
    ((∃ buf t, Returns (sysGetcwd E size cwd) s (some buf) t) ↔
      (spell names).length < 512 ∧ (spell names).length < size) ∧
    ∀ buf t, Returns (sysGetcwd E size cwd) s (some buf) t →
      HoldsString buf 0 (spell names.reverse) := by
  have hall : ∀ buf t, Returns (sysGetcwd E size cwd) s (some buf) t →
      HoldsString buf 0 (spell names.reverse) ∧
        (spell names).length < 512 ∧ (spell names).length < size := by
    intro buf t h
    obtain ⟨_, names', _, _, hmalloc', hclimbs', -, hpath⟩ := names_of_sysGetcwd hcwd h
    obtain ⟨-, rfl⟩ := hmalloc.unique hmalloc'
    obtain rfl := hclimbs.unique hclimbs'
    exact hpath hslash
  refine ⟨⟨fun ⟨buf, t, h⟩ ↦ (hall buf t h).2, fun ⟨hlen, hfit⟩ ↦ ?_⟩, fun buf t h ↦ (hall buf t h).1⟩
  obtain ⟨buf, h⟩ := sysGetcwd_returns hcwd hlt hmalloc hclimbs hfree hslash hlen hfit
  exact ⟨buf, s', h⟩

end Climb

/-! ### A directory `ho` in the root -/

/-- The inode of the root directory. -/
def rootDirInode : Inode := (Inode.init 0).setSector 0 676

/-- The inode of the other one. -/
def homeInode : Inode := (Inode.init 1).setSector 0 675

/-- A partition with both. -/
def Fs.nested : Fs :=
  { Fs.blank with
    disk := fun i ↦
      if i / 512 = 67 then
        splice (splice (fun _ ↦ 0) 0 76 rootDirInode.encode) 76 76 homeInode.encode (i % 512)
      else if i / 512 = 675 then dotEntries 1 0 (i % 512)
      else if i / 512 = 676 then
        splice (fun _ ↦ 0) 0 24
          (DirEntry.encode ⟨fun i ↦ [104, 111].getD i 0, 1, .directory⟩) (i % 512)
      else 0 }

/-- What `sys_getcwd` does with the file system when it climbs once. -/
def climbOnce (E : Env) (cwdInodeNr : ℕ) : FsM (Option ℕ × ℕ × Option (List UInt8)) := do
  let ioBuf ← sysMalloc E Blk.buffer 512
  let parent ← getParentDirInodeNr E cwdInodeNr
  let name ← getChildDirName E parent cwdInodeNr
  sysFree E (ioBuf.getD 0)
  pure (ioBuf, parent, name)

theorem sysGetcwd_path_home : ∃ buf s',
    Returns (sysGetcwd (Env.bump samplePartition) 64 1) Fs.nested (some buf) s' ∧
      HoldsString buf 0 [47, 104, 111] := by
  obtain ⟨s', h⟩ : ∃ s', Returns (climbOnce (Env.bump samplePartition) 1) Fs.nested
      (some kHeapStart, 0, some [104, 111]) s' := exists_returns (by decide +kernel)
  obtain ⟨ioBuf, s₁, hmalloc, h₁⟩ := returns_bind.mp h
  obtain ⟨parent, s₂, hparent, h₂⟩ := returns_bind.mp h₁
  obtain ⟨name, s₃, hname, h₃⟩ := returns_bind.mp h₂
  obtain ⟨u, s₄, hfree, h₄⟩ := returns_bind.mp h₃
  obtain ⟨heq, -⟩ := returns_pure.mp h₄
  cases heq
  have hclimbs : Climbs (Env.bump samplePartition) 1 [[104, 111]] s₁ s₃ :=
    .up (by decide) hparent hname (.root s₃)
  obtain ⟨hiff, hpath⟩ := sysGetcwd_path 64 (by decide) (by decide) hmalloc hclimbs hfree
    (by decide)
  obtain ⟨buf, t, hret⟩ := hiff.mpr ⟨by decide, by decide⟩
  exact ⟨buf, t, hret, hpath buf t hret⟩

end GlowOS
