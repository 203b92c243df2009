import Mathlib
import GlowOS.Fs.Walk

/-!
# What a path names

`search_file` follows the components of a path through the directories. On a tree of directories it
returns what `Fs.found` says: like `Fs.resolve`, except that it stops at the first regular file,
whatever is left of the path. The two agree exactly if no regular file stands in the middle of the
path. A path of several slashes leads to the end of the loop without an entry having been read.

`sys_unlink` and `sys_stat` do not look at the rest of the path; `sys_open` compares the depths.
-/

namespace GlowOS

open Bytes Program

/-! ## Trees -/

/-- The numbers in `D` are the numbers of directories, among them the root directory, and the entries
of these are regular files and directories in `D`. -/
structure Fs.Tree (E : Env) (s : Fs) (D : Set ℕ) : Prop where
  root : 0 ∈ D
  lt : ∀ n ∈ D, n < 4096
  number : ∀ n ∈ D, (s.current E n).iNo = n
  table : ∀ n ∈ D, (s.current E n).iSectors 12 ≤ maxLba
  blocks : ∀ n ∈ D, ∀ k < 140, (s.current E n).blocks s.disk k ≤ maxLba
  child : ∀ n ∈ D, ∀ name e, name ≠ [] → 0 ∉ name → s.child E n name = some e →
    e.fType = .regular ∨ e.fType = .directory ∧ e.iNo ∈ D
  dot : ∃ e, s.child E 0 dot = some e ∧ e.fType = .directory ∧ e.iNo = 0
  dotDot : ∃ e, s.child E 0 dotDot = some e ∧ e.fType = .directory ∧ e.iNo = 0

/-- The root directory is in memory, and the list of open inodes is sound. -/
structure Fs.Searchable (s : Fs) (xs : List ℕ) : Prop where
  cache : CacheInv s xs
  len : xs.length + walkRequests ≤ walkFuel
  rootMem : s.rootInode ∈ xs
  rootLive : s.heap s.rootInode = some Blk.inode
  rootNumber : (s.inode s.rootInode).iNo = 0
  counts : ∀ a ∈ xs, s.heap a = some Blk.inode →
    (s.inode a).iOpenCnts ≠ 0 ∧ (s.inode a).iOpenCnts < 2 ^ 32

/-- What `search_file` finds: it stops at a regular file. -/
def Fs.found (E : Env) (s : Fs) : ℕ → List (List UInt8) → Option ℕ
  | n, [] => some n
  | n, c :: cs =>
    match s.child E n c with
    | none => none
    | some e => if e.fType = .directory then s.found E e.iNo cs else some e.iNo

/-- The directory that the components lead to, from the directory `n` on. -/
def Fs.directory (E : Env) (s : Fs) : ℕ → List (List UInt8) → Option ℕ
  | n, [] => some n
  | n, c :: cs =>
    match s.child E n c with
    | none => none
    | some e => if e.fType = .directory then s.directory E e.iNo cs else none

/-- A search of the components stops in the directory `m`, where the component behind `before` is
missing. -/
structure Fs.StopsAt (E : Env) (s : Fs) (n : ℕ) (cs before : List (List UInt8)) (c : List UInt8)
    (m : ℕ) : Prop where
  split : ∃ after, cs = before ++ c :: after
  directory : s.directory E n before = some m
  missing : s.child E m c = none

section Tree

variable {E : Env} {s : Fs} {D : Set ℕ} {n : ℕ} {cs : List (List UInt8)}

/-- Into the directory that the first component names. -/
theorem Fs.StopsAt.cons {e : DirEntry} {before : List (List UInt8)} {c c' : List UInt8} {m : ℕ}
    (hc : s.child E n c = some e) (hdir : e.fType = .directory)
    (h : s.StopsAt E e.iNo cs before c' m) : s.StopsAt E n (c :: cs) (c :: before) c' m := by
  obtain ⟨after, rfl⟩ := h.split
  refine ⟨⟨after, rfl⟩, ?_, h.missing⟩
  rw [Fs.directory, hc]
  exact (if_pos hdir).trans h.directory

/-- A regular file in the middle of the path is found, and the path names nothing. -/
theorem Fs.Tree.found_of_fileInMiddle (h : s.Tree E D) (hn : n ∈ D) (hne : ∀ c ∈ cs, c ≠ [] ∧ 0 ∉ c)
    (hmid : s.fileInMiddle E n cs = true) :
    (∃ m, s.found E n cs = some m) ∧ s.resolve E n cs = none := by
  induction cs generalizing n with
  | nil => cases hmid
  | cons c cs ih =>
    rw [Fs.fileInMiddle] at hmid
    rw [Fs.found, Fs.resolve]
    cases hc : s.child E n c with
    | none =>
      rw [hc] at hmid
      cases hmid
    | some e =>
      rw [hc] at hmid
      dsimp only at hmid ⊢
      rcases h.child n hn c e (hne c List.mem_cons_self).1 (hne c List.mem_cons_self).2 hc with hreg | ⟨hdir, he⟩
      · have hnot : e.fType ≠ .directory := by
          rw [hreg]
          exact FileType.noConfusion
        rw [if_neg hnot] at hmid ⊢
        have hcs : cs ≠ [] := by simpa [hreg] using hmid
        exact ⟨⟨e.iNo, rfl⟩, by rw [if_neg hcs, if_neg hnot]⟩
      · rw [if_pos hdir] at hmid ⊢
        have hcs : cs ≠ [] := by
          rintro rfl
          cases hmid
        rw [if_neg hcs, if_pos hdir]
        exact ih he (fun c hc ↦ hne c (List.mem_cons_of_mem _ hc)) hmid

/-- Without one, what is found is what the path names. -/
theorem Fs.Tree.found_eq (h : s.Tree E D) (hn : n ∈ D) (hne : ∀ c ∈ cs, c ≠ [] ∧ 0 ∉ c)
    (hmid : s.fileInMiddle E n cs = false) : s.found E n cs = s.resolve E n cs := by
  induction cs generalizing n with
  | nil => rfl
  | cons c cs ih =>
    rw [Fs.fileInMiddle] at hmid
    rw [Fs.found, Fs.resolve]
    cases hc : s.child E n c with
    | none => rfl
    | some e =>
      rw [hc] at hmid
      dsimp only at hmid ⊢
      rcases h.child n hn c e (hne c List.mem_cons_self).1 (hne c List.mem_cons_self).2 hc with hreg | ⟨hdir, he⟩
      · have hnot : e.fType ≠ .directory := by
          rw [hreg]
          exact FileType.noConfusion
        rw [if_neg hnot] at hmid ⊢
        have hcs : cs = [] := by simpa [hreg] using hmid
        rw [if_pos hcs]
      · rw [if_pos hdir] at hmid ⊢
        by_cases hcs : cs = []
        · rw [if_pos hcs, hcs]
          rfl
        · rw [if_neg hcs, if_pos hdir]
          exact ih he (fun c hc ↦ hne c (List.mem_cons_of_mem _ hc)) hmid

/-- The special cases of `search_file` name the root directory. -/
theorem Fs.Tree.found_special (h : s.Tree E D) {p : List UInt8}
    (hp : p = [slash] ∨ p = slash :: GlowOS.dot ∨ p = slash :: GlowOS.dotDot) :
    s.found E 0 (components p) = some 0 ∧ s.fileInMiddle E 0 (components p) = false := by
  have hone : ∀ c e, s.child E 0 c = some e → e.fType = .directory → e.iNo = 0 →
      s.found E 0 [c] = some 0 ∧ s.fileInMiddle E 0 [c] = false := by
    intro c e hc hdir hno
    rw [Fs.found, Fs.fileInMiddle, hc]
    dsimp only
    rw [if_pos hdir, if_pos hdir, hno]
    exact ⟨rfl, rfl⟩
  rcases hp with rfl | rfl | rfl
  · exact ⟨rfl, rfl⟩
  · obtain ⟨e, hc, hdir, hno⟩ := h.dot
    exact hone _ e hc hdir hno
  · obtain ⟨e, hc, hdir, hno⟩ := h.dotDot
    exact hone _ e hc hdir hno

end Tree

/-! ## The search -/

section Search

variable {E : Env} {s₀ s : Fs} {xs : List ℕ} {D : Set ℕ} {n : ℕ}

/-- At the beginning the root directory is open. -/
theorem Fs.Searchable.walking (h : s.Searchable xs) : Walking E s s xs (rootDir s) 0 := by
  have hheld : s.Holding E xs (rootDir s) 0 :=
    ⟨h.rootMem, h.rootLive, h.rootNumber, fun _ ↦ rfl, nofun, nofun, nofun⟩
  have hlen := h.len
  exact ⟨h.cache, by omega, .refl s, rfl, fun _ ↦ rfl, rfl, rfl, fun _ _ ↦ .refl _, hheld, hheld,
    fun a ha hlive _ ↦ h.counts a ha hlive⟩

/-- The component in hand and those that follow. -/
def pending (name subPath : List UInt8) : List (List UInt8) :=
  if name = [] then [] else name :: components subPath

theorem pending_parse (p : List UInt8) : pending (nextName p) (afterName p) = components p := by
  rw [pending, components_eq p]

/-- **The loop of `search_file`** returns what is found, with a directory open. If nothing is found,
this is the directory where the search stopped, and the path searched ends with what is missing. -/
theorem searchFrom_complete (hp : E.part.Formatted) (htree : s₀.Tree E D)
    (hserve : E.Serves s₀ walkRequests) {fuel : ℕ} {name subPath : List UInt8} {parentNo : ℕ}
    {last : Option ℕ} {r : PathSearchRecord} (h : Walking E s₀ s xs r.parentDir n) (hn : n ∈ D)
    (hparent : parentNo ∈ D) (hlast : name ≠ [] ∨ last = some n)
    (hfuel : (pending name subPath).length < fuel)
    (hnames : ∀ c ∈ pending name subPath, c.length < maxFileNameLen ∧ 0 ∉ c)
    (hroom : r.searchedPath.length + (spell (pending name subPath)).length < maxPathLen)
    (htick : s.tick + 10 * (pending name subPath).length + 8 ≤ s₀.tick + walkRequests) :
    ∃ r' s' ys m, Returns (searchFrom E fuel name subPath parentNo last r) s
        (s₀.found E n (pending name subPath), r') s' ∧
      Walking E s₀ s' ys r'.parentDir m ∧ s'.tick + 2 ≤ s₀.tick + walkRequests ∧
      (s₀.found E n (pending name subPath) = none → ∃ before c,
        s₀.StopsAt E n (pending name subPath) before c m ∧
          r'.searchedPath = r.searchedPath ++ spell (before ++ [c])) := by
  -- a round takes one component off
  induction fuel generalizing s xs n name subPath parentNo last r with
  | zero => omega
  | succ fuel ih =>
    rw [searchFrom]
    by_cases hname : name = []
    · -- the end of the path: the parent of the last directory is opened again
      have hnil : pending name subPath = [] := if_pos hname
      rw [hnil, List.length_nil] at htick
      obtain ⟨s₁, h1, hw₁, ht₁⟩ := h.dirClose (by omega)
      obtain ⟨d, s₂, ys, h2, hw₂, ht₂⟩ := hw₁.dirOpen hp hserve (by omega) (htree.lt _ hparent)
        (htree.number _ hparent)
      obtain rfl := hlast.resolve_left (not_not.mpr hname)
      refine ⟨{ r with parentDir := d, fileType := .directory }, s₂, ys, parentNo, ?_, hw₂, ?_, ?_⟩
      · rw [if_pos hname, hnil]
        refine returns_bind.mpr ⟨_, _, h1, returns_bind.mpr ⟨_, _, h2, ?_⟩⟩
        exact returns_pure.mpr ⟨rfl, rfl⟩
      · omega
      · rw [hnil]
        intro heq
        cases heq
    · have hcons : pending name subPath = name :: components subPath := if_neg hname
      rw [hcons] at hfuel hnames hroom htick ⊢
      rw [List.length_cons] at hfuel htick
      rw [spell_cons, List.length_cons, List.length_append] at hroom
      obtain ⟨hshort, hzero⟩ := hnames name List.mem_cons_self
      obtain ⟨s₁, h1, hw₁, ht₁⟩ := h.searchDirEntry hp hserve (by omega) (htree.lt n hn)
        (htree.table n hn) (htree.blocks n hn) name
      rw [if_neg hname]
      simp only [returns_check_bind]
      cases hc : s₀.child E n name with
      | none =>
        -- nothing is found, and the directory stays open
        refine ⟨r.extend name, s₁, xs, n, ⟨by omega, hshort, ?_⟩, hw₁, by omega, fun _ ↦ ?_⟩
        · rw [hc] at h1
          refine returns_bind.mpr ⟨_, _, h1, ?_⟩
          rw [Fs.found, hc]
          exact returns_pure.mpr ⟨rfl, rfl⟩
        · refine ⟨[], name, ⟨⟨_, rfl⟩, rfl, hc⟩, ?_⟩
          rw [List.nil_append, spell_cons, spell_nil, List.append_nil]
          rfl
      | some e =>
        rw [hc] at h1
        have hpend := pending_parse subPath
        have hparse : ∀ t : Fs, Returns (pathParse subPath) t
            (nextName subPath, afterName subPath) t := by
          intro t
          refine returns_pathParse.mpr ⟨?_, rfl, rfl⟩
          by_cases hnil : nextName subPath = []
          · rw [hnil]
            exact Nat.zero_le _
          · exact (hnames _ (List.mem_cons_of_mem _ (nextName_mem hnil))).1.le
        rcases htree.child n hn name e hname hzero hc with hreg | ⟨hdir, he⟩
        · -- a regular file ends the search
          have hfound : s₀.found E n (name :: components subPath) = some e.iNo := by
            rw [Fs.found, hc]
            dsimp only
            rw [hreg, if_neg FileType.noConfusion]
          rw [hfound]
          refine ⟨{ r.extend name with fileType := .regular }, s₁, xs, n, ⟨by omega, hshort, ?_⟩,
            hw₁, by omega, fun heq ↦ by cases heq⟩
          refine returns_bind.mpr ⟨_, _, h1, returns_bind.mpr ⟨_, _, hparse s₁, ?_⟩⟩
          dsimp only
          rw [hreg]
          exact returns_pure.mpr ⟨rfl, rfl⟩
        · -- a directory is entered
          obtain ⟨s₂, h2, hw₂, ht₂⟩ := hw₁.dirClose (by omega)
          obtain ⟨d, s₃, ys, h3, hw₃, ht₃⟩ := hw₂.dirOpen hp hserve (by omega) (htree.lt _ he)
            (htree.number _ he)
          obtain ⟨r', s', zs, m, h4, hw, ht, hstop⟩ := @ih s₃ ys e.iNo (nextName subPath)
            (afterName subPath) n (some e.iNo) { r.extend name with parentDir := d } hw₃ he hn
            (Or.inr rfl)
            (by rw [hpend]; omega)
            (by rw [hpend]; exact fun c hc ↦ hnames c (List.mem_cons_of_mem _ hc))
            (by
              rw [hpend]
              change (r.searchedPath ++ slash :: name).length + _ < _
              rw [List.length_append, List.length_cons]
              omega)
            (by rw [hpend]; omega)
          have hfound : s₀.found E n (name :: components subPath) =
              s₀.found E e.iNo (components subPath) := by
            rw [Fs.found, hc]
            exact if_pos hdir
          rw [hpend] at h4 hstop
          rw [hfound]
          refine ⟨r', s', zs, m, ⟨by omega, hshort, ?_⟩, hw, ht, fun hnone ↦ ?_⟩
          swap
          · obtain ⟨before, c, hat, hpath⟩ := hstop hnone
            refine ⟨name :: before, c, hat.cons hc hdir, hpath.trans ?_⟩
            change (r.searchedPath ++ slash :: name) ++ spell (before ++ [c]) = _
            rw [List.append_assoc]
            rfl
          refine returns_bind.mpr ⟨_, _, h1, returns_bind.mpr ⟨_, _, hparse s₁, ?_⟩⟩
          dsimp only
          rw [hdir]
          refine returns_bind.mpr ⟨_, _, returns_inodeAt.mpr ⟨hw₁.held.live, rfl, rfl⟩, ?_⟩
          refine returns_bind.mpr ⟨_, _, h2, returns_bind.mpr ⟨_, _, h3, ?_⟩⟩
          change Returns (searchFrom E fuel _ _ (s₁.inode r.parentDir.inode).iNo _ _) _ _ _
          rw [hw₁.held.number]
          exact h4

/-- **`search_file`** returns what is found, unless the path consists of several slashes. -/
theorem searchFile_complete (hp : E.part.Formatted) (hw : Walking E s₀ s xs (rootDir s) 0)
    (hstart : s.tick ≤ s₀.tick + 1024) (htree : s₀.Tree E D) (hserve : E.Serves s₀ walkRequests)
    {p : List UInt8} (habs : p.head? = some slash) (hlen : p.length < maxPathLen)
    (hnames : ∀ c ∈ components p, c.length < maxFileNameLen ∧ 0 ∉ c)
    (hread : components p = [] → p.length = 1) :
    ∃ r s' ys m, Returns (searchFile E p) s (s₀.found E 0 (components p), r) s' ∧
      Walking E s₀ s' ys r.parentDir m ∧ s'.tick + 2 ≤ s₀.tick + walkRequests ∧
      (s₀.found E 0 (components p) = none → ∃ before c,
        s₀.StopsAt E 0 (components p) before c m ∧ r.searchedPath = spell (before ++ [c])) := by
  have hmax : maxPathLen = 512 := rfl
  have hreq : walkRequests = 4096 := rfl
  by_cases hspecial : p = [slash] ∨ p = slash :: dot ∨ p = slash :: dotDot
  · rw [(htree.found_special hspecial).1]
    refine ⟨⟨[], rootDir s, .directory⟩, s, xs, 0, ?_, hw, by omega, fun heq ↦ by cases heq⟩
    rw [searchFile, returns_get_bind, if_pos hspecial]
    exact returns_pure.mpr ⟨rfl, rfl⟩
  · have hspell := length_spell_of_slash habs
    have hcount := two_mul_length_le_length_spell fun c hc ↦ components_ne_nil (p := p) hc
    have hpos : 1 < p.length := by
      have hne : p ≠ [] := by
        rintro rfl
        cases habs
      have := List.length_pos_iff.mpr hne
      by_contra hle
      obtain ⟨x, rfl⟩ := List.length_eq_one_iff.mp (show p.length = 1 by omega)
      exact hspecial (Or.inl (by simpa using habs))
    have hname : nextName p ≠ [] := fun hnil ↦ by
      have := hread (components_eq_nil_iff.mpr hnil)
      omega
    have hpend := pending_parse p
    rw [← hpend] at hspell hcount hnames ⊢
    obtain ⟨r, s', ys, m, h, hw', ht, hstop⟩ := searchFrom_complete (s := s) (n := 0)
      hp htree hserve (r := ⟨[], rootDir s, .unknown⟩) hw htree.root htree.root
      (show _ ∨ (none : Option ℕ) = some _ from Or.inl hname)
      (Nat.lt_succ_of_le (show _ ≤ p.length by omega)) hnames
      (by rw [List.length_nil]; omega) (by omega)
    refine ⟨r, s', ys, m, ?_, hw', ht, hstop⟩
    rw [searchFile, returns_get_bind, if_neg hspecial]
    refine returns_check_bind.mpr ⟨⟨habs, hpos, hlen⟩, ?_⟩
    refine returns_bind.mpr ⟨_, _, returns_pathParse.mpr
      ⟨(hnames _ (hpend ▸ nextName_mem hname)).1.le, rfl, rfl⟩, h⟩

/-- For a path of several slashes it returns what was in `dir_e` before. -/
theorem not_returns_searchFile {p : List UInt8} (hnil : components p = []) (hlen : p.length ≠ 1)
    {r : Option ℕ × PathSearchRecord} {s' : Fs} : ¬Returns (searchFile E p) s r s' := by
  intro h
  have hspecial : ¬(p = [slash] ∨ p = slash :: dot ∨ p = slash :: dotDot) := by
    rintro (rfl | rfl | rfl)
    · exact hlen rfl
    · exact absurd hnil (by decide)
    · exact absurd hnil (by decide)
  rw [searchFile, returns_get_bind, if_neg hspecial, returns_check_bind] at h
  obtain ⟨-, h⟩ := h
  obtain ⟨q, t, h1, h⟩ := returns_bind.mp h
  obtain ⟨-, rfl, rfl⟩ := returns_pathParse.mp h1
  dsimp only at h
  rw [searchFrom, if_pos (components_eq_nil_iff.mp hnil)] at h
  obtain ⟨u, t, -, h⟩ := returns_bind.mp h
  obtain ⟨d, t, -, h⟩ := returns_bind.mp h
  exact returns_throw h

end Search

/-! ## Exactness -/

/-- The lookup of `p` is exact: `search_file` returns what the path names, `sys_unlink` deletes what
the path names or nothing, and `sys_stat` describes what the path names. -/
structure LookupExact (E : Env) (s : Fs) (p : List UInt8) : Prop where
  search : ∃ r s', Returns (searchFile E p) s (s.resolve E 0 (components p), r) s'
  unlink : ∀ b s', Returns (sysUnlink E p) s b s' →
    (b = false ∧ s'.disk = s.disk ∧ ∀ ty, s'.bitmap ty = s.bitmap ty) ∨
      ∃ n d t, s.resolve E 0 (components p) = some n ∧ Returns (sysUnlinkIn E d n) t b s'
  stat : ∀ st s', Returns (sysStat E p) s (some st) s' →
    s.resolve E 0 (components p) = some st.stIno

section Exact

variable {E : Env} {s : Fs} {xs : List ℕ} {D : Set ℕ} {p : List UInt8}

/-- Closing the directory that the search left open touches no file. -/
theorem close_same {s₀ s' : Fs} {d : Dir} {m : ℕ} (h : Walking E s₀ s xs d m)
    (htick : s.tick + 2 ≤ s₀.tick + walkRequests) {u : PUnit} (hret : Returns (dirClose E d) s u s') :
    s'.disk = s₀.disk ∧ ∀ ty, s'.bitmap ty = s₀.bitmap ty := by
  obtain ⟨t, h1, hw, -⟩ := h.dirClose htick
  rw [(hret.unique h1).2]
  exact ⟨hw.disk, hw.bitmap⟩

theorem statRoot_same {s' : Fs} {u : PUnit} (h : Returns (statRoot p) s u s') : s' = s := by
  rw [statRoot, returns_get_bind] at h
  rcases returns_ite.mp h with ⟨-, h⟩ | ⟨-, h⟩
  · obtain ⟨i, t, h1, h2⟩ := returns_bind.mp h
    obtain ⟨-, -, ht⟩ := returns_inodeAt.mp h1
    exact (returns_pure.mp h2).2.trans ht
  · exact (returns_pure.mp h).2

theorem statFound_stIno {s' : Fs} {ty : FileType} {no : Option ℕ} {st : Stat}
    (h : Returns (statFound E ty no) s (some st) s') : no = some st.stIno := by
  cases no with
  | none => cases (returns_pure.mp h).1
  | some n =>
    obtain ⟨a, t₁, -, h⟩ := returns_bind.mp h
    obtain ⟨obj, t₂, -, h⟩ := returns_bind.mp h
    obtain ⟨u, t₃, -, h⟩ := returns_bind.mp h
    obtain rfl := Option.some.inj (returns_pure.mp h).1
    rfl

end Exact

/-! ## A root directory with one file -/

/-- Page `i` of one of the two pools. -/
def pageAddr (k : Bool) (i : ℕ) : ℕ := (if k then kHeapStart else userVaddrStart) + 4096 * i

theorem pageAddr_ge (k : Bool) (i : ℕ) : userVaddrStart ≤ pageAddr k i := by
  rw [pageAddr, kHeapStart, userVaddrStart]
  split_ifs <;> omega

theorem pageAddr_kernel {k : Bool} {i : ℕ} (hi : i < 8192) :
    k = true ↔ kHeapStart ≤ pageAddr k i := by
  rw [pageAddr, kHeapStart, userVaddrStart]
  cases k with
  | true => simp
  | false =>
    simp only [Bool.false_eq_true, if_false, false_iff]
    omega

/-- The words of the free list are addresses of the kernel heap. -/
theorem links_ge : ∀ _ : ℕ, userVaddrStart ≤ (kHeapStart, kHeapStart).1 :=
  fun _ ↦ by decide

/-- The environment whose heap answers with the first page that is neither live nor linked. -/
def Env.firstFree (part : Partition) : Env where
  part := part
  malloc _ h st k _ :=
    (Scan.firstFrom (fun i ↦ (h (pageAddr k i)).isNone && !st (pageAddr k i)) 8192 0).map (pageAddr k)
  freeLink _ := (kHeapStart, kHeapStart)
  malloc_fresh := by
    intro t h st k n a ha
    obtain ⟨i, hi, rfl⟩ := Option.map_eq_some_iff.mp ha
    obtain ⟨-, -, hfree, -⟩ := Scan.firstFrom_eq_some.mp hi
    exact Option.isNone_iff_eq_none.mp (Bool.and_eq_true_iff.mp hfree).1
  malloc_ge := by
    intro t h st k n a ha
    obtain ⟨i, -, rfl⟩ := Option.map_eq_some_iff.mp ha
    exact pageAddr_ge k i
  malloc_kernel := by
    intro t h st k n a ha
    obtain ⟨i, hi, rfl⟩ := Option.map_eq_some_iff.mp ha
    obtain ⟨-, hlt, -, -⟩ := Scan.firstFrom_eq_some.mp hi
    exact pageAddr_kernel (hlt.trans_eq (Nat.zero_add _))
  freeLink_ge := links_ge

theorem pageAddr_injective (k : Bool) : Function.Injective (pageAddr k) := by
  intro i j h
  rw [pageAddr, pageAddr] at h
  omega

/-- It answers as long as fewer than 8192 blocks are in use. -/
theorem Env.firstFree_serves (part : Partition) {s : Fs} {U : Finset ℕ} (hU : U.card ≤ 4096)
    (hused : ∀ a, s.Used a → a ∈ U) : (Env.firstFree part).Serves s walkRequests := by
  rintro t ⟨hle, B, hB, hgrown⟩ hlt k size
  have hcard : (U ∪ B).card < 8192 := by
    have hreq : walkRequests = 4096 := rfl
    have := Finset.card_union_le U B
    omega
  -- some page is not among the blocks in use
  obtain ⟨a, ha, hfree⟩ := Finset.exists_mem_notMem_of_card_lt_card
    (s := U ∪ B) (t := (Finset.range 8192).image (pageAddr k))
    (by rwa [Finset.card_image_of_injective _ (pageAddr_injective k), Finset.card_range])
  obtain ⟨i, hi, rfl⟩ := Finset.mem_image.mp ha
  have hnot : ¬t.Used (pageAddr k i) := fun h ↦ hfree <| by
    rcases hgrown _ h with h | h
    · exact Finset.mem_union_left _ (hused _ h)
    · exact Finset.mem_union_right _ h
  rw [Fs.Used, not_or, not_not, Bool.not_eq_true] at hnot
  cases hf : Scan.firstFrom
      (fun i ↦ (t.heap (pageAddr k i)).isNone && !t.stale (pageAddr k i)) 8192 0 with
  | none =>
    have hno := Scan.firstFrom_eq_none.mp hf i (Nat.zero_le _) (by simpa using hi)
    simp [hnot] at hno
  | some j =>
    obtain ⟨-, -, hj, -⟩ := Scan.firstFrom_eq_some.mp hf
    exact ⟨pageAddr k j, congrArg (Option.map (pageAddr k)) hf,
      by simpa using (Bool.and_eq_true_iff.mp hj).2⟩

/-- A disk whose root directory has the regular file `f`. -/
def singleFileDisk : Image :=
  splice (splice (fun _ ↦ 0) (512 * 675) 48 (dotEntries 0 0)) (512 * 675 + 48) 24
    (DirEntry.encode ⟨fun i ↦ if i = 0 then 102 else 0, 1, .regular⟩)

/-- The root directory is in memory. -/
def Fs.singleFile : Fs :=
  { Fs.blank with
    disk := singleFileDisk
    inode := fun _ ↦ ⟨0, 72, 1, false, fun k ↦ if k = 0 then 675 else 0⟩
    tags := ⟨fun a ↦ if a = openTail then kHeapStart else openHead,
      fun a ↦ if a = openHead then kHeapStart else openTail⟩
    heap := fun a ↦ if a = kHeapStart then some .inode else none
    rootInode := kHeapStart }

theorem singleFile_searchable : Fs.singleFile.Searchable [kHeapStart] where
  cache :=
    { list := ⟨⟨rfl, rfl, rfl, rfl⟩, by decide⟩
      ge := by decide
      elem := by decide
      inj := by
        intro a ha b hb _ _ _
        exact (List.mem_singleton.mp ha).trans (List.mem_singleton.mp hb).symm }
  len := by decide
  rootMem := by decide
  rootLive := by decide
  rootNumber := rfl
  counts := fun _ _ _ ↦ ⟨Nat.one_ne_zero, Nat.one_lt_two_pow (by decide)⟩

theorem singleFile_current (E : Env) : Fs.singleFile.current E 0 = Fs.singleFile.inode kHeapStart :=
  (current_of_mem singleFile_searchable.cache (by decide) (List.mem_singleton_self _) rfl rfl
    (by decide)).2

theorem singleFile_blocks {k : ℕ} :
    (Fs.singleFile.inode kHeapStart).blocks singleFileDisk k = if k = 0 then 675 else 0 := by
  by_cases hk : k < 12
  · exact if_pos hk
  · rw [if_neg (by omega)]
    exact (if_neg hk).trans (if_neg (by decide))

/-- The entries in use. -/
theorem singleFile_entry {j : ℕ} {name : List UInt8} (hne : name ≠ []) (h0 : 0 ∉ name)
    (h : strEq singleFileDisk (512 * 675 + 24 * j) name = true) (hj : j < 21) :
    (entryAt singleFileDisk 675 j).fType = .regular ∨
      (entryAt singleFileDisk 675 j).fType = .directory ∧ (entryAt singleFileDisk 675 j).iNo = 0 := by
  by_cases hlt : j < 3
  · have hall : ∀ j < 3, (entryAt singleFileDisk 675 j).fType = .regular ∨
        (entryAt singleFileDisk 675 j).fType = .directory ∧ (entryAt singleFileDisk 675 j).iNo = 0 := by
      decide +kernel
    exact hall j hlt
  · -- the other slots hold the empty string
    obtain ⟨c, cs, rfl⟩ := List.exists_cons_of_ne_nil hne
    have hfirst := (strEq_iff.mp h).1 0 (by simp)
    have hzero : singleFileDisk (512 * 675 + 24 * j + 0) = 0 := by
      rw [singleFileDisk, splice_of_disjoint (by omega), splice_of_disjoint (by omega)]
    rw [hzero] at hfirst
    exact absurd (List.mem_cons.mpr (Or.inl hfirst)) h0

theorem singleFile_child (E : Env) (name : List UInt8) : Fs.singleFile.child E 0 name
    = lookup singleFileDisk (Fs.singleFile.inode kHeapStart) name := by
  rw [Fs.child, singleFile_current]
  rfl

theorem singleFile_tree (E : Env) : Fs.singleFile.Tree E {0} where
  root := rfl
  lt := by
    rintro n rfl
    decide
  number := by
    rintro n rfl
    rw [singleFile_current]
    rfl
  table := by
    rintro n rfl
    rw [singleFile_current]
    exact Nat.zero_le _
  blocks := by
    rintro n rfl k -
    rw [singleFile_current]
    change (Fs.singleFile.inode kHeapStart).blocks singleFileDisk k ≤ maxLba
    rw [singleFile_blocks]
    split_ifs <;> decide
  child := by
    rintro n rfl name e hne h0 h
    rw [singleFile_child] at h
    obtain ⟨k, j, -, ⟨hj, hblk, hstr⟩, rfl⟩ := exists_match_of_lookup h
    rw [singleFile_blocks] at hblk hstr ⊢
    have hk : k = 0 := by
      by_contra hk
      exact hblk (if_neg hk)
    rw [if_pos hk] at hstr ⊢
    exact singleFile_entry hne h0 hstr hj
  dot := by
    have h : ((lookup singleFileDisk (Fs.singleFile.inode kHeapStart) dot).map
        fun e ↦ (e.fType, e.iNo)) = some (.directory, 0) := by decide +kernel
    obtain ⟨e, he, heq⟩ := Option.map_eq_some_iff.mp h
    obtain ⟨h1, h2⟩ := Prod.mk.inj heq
    exact ⟨e, (singleFile_child E dot).trans he, h1, h2⟩
  dotDot := by
    have h : ((lookup singleFileDisk (Fs.singleFile.inode kHeapStart) dotDot).map
        fun e ↦ (e.fType, e.iNo)) = some (.directory, 0) := by decide +kernel
    obtain ⟨e, he, heq⟩ := Option.map_eq_some_iff.mp h
    obtain ⟨h1, h2⟩ := Prod.mk.inj heq
    exact ⟨e, (singleFile_child E dotDot).trans he, h1, h2⟩

theorem singleFile_serves : (Env.firstFree samplePartition).Serves Fs.singleFile walkRequests := by
  refine Env.firstFree_serves samplePartition (U := {kHeapStart}) (by decide) fun a ha ↦ ?_
  rcases ha with ha | ha
  · by_contra hne
    exact ha (if_neg (by simpa using hne))
  · cases ha

theorem singleFile_fileInMiddle (E : Env) :
    Fs.singleFile.fileInMiddle E 0 (components [slash, 102, slash, 120]) = true := by
  have h : ((lookup singleFileDisk (Fs.singleFile.inode kHeapStart) [102]).map
      fun e ↦ (e.fType)) = some .regular := by decide +kernel
  obtain ⟨e, he, hty⟩ := Option.map_eq_some_iff.mp h
  have hc : components [slash, 102, slash, 120] = [[102], [120]] := by decide
  rw [hc, Fs.fileInMiddle, singleFile_child, he]
  dsimp only
  rw [hty, if_neg FileType.noConfusion]
  rfl

end GlowOS
