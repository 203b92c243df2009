import Mathlib
import GlowOS.Fs.Lookup

/-!
# Where files and directories are created

`sys_open` and `sys_mkdir` create an entry if the search of the path failed and the path searched so
far has as many components as the whole path. The two are compared by their lengths only. A search
that fails has spelled out the components up to the missing one, so that the lengths agree exactly if
this is the last one, and the directory left open is the one it is missing in.
-/

namespace GlowOS

open Bytes Program

/-! ## The last component -/

/-- Every component but the last one leads through directories, to the directory `m`, and the last
one, `c`, does not exist there. -/
def Fs.MissingLast (E : Env) (s : Fs) (cs : List (List UInt8)) (c : List UInt8) (m : ℕ) : Prop :=
  ∃ before, cs = before ++ [c] ∧ s.directory E 0 before = some m ∧ s.child E m c = none

/-- The directory `d` is open in the state `t`, and holds what the number `m` stood for in `s`. -/
structure Fs.OpenAs (E : Env) (s t : Fs) (d : Dir) (m : ℕ) : Prop where
  live : t.heap d.inode = some Blk.inode
  number : (t.inode d.inode).iNo = m
  same : (t.inode d.inode).Same (s.current E m)
  disk : t.disk = s.disk
  bitmap : ∀ ty, t.bitmap ty = s.bitmap ty

section Stops

variable {E : Env} {s : Fs} {D : Set ℕ} {n m : ℕ} {cs before : List (List UInt8)} {c : List UInt8}

theorem Fs.directory_append (cs cs' : List (List UInt8)) :
    s.directory E n (cs ++ cs') = (s.directory E n cs).bind fun m ↦ s.directory E m cs' := by
  induction cs generalizing n with
  | nil => rfl
  | cons c cs ih =>
    rw [List.cons_append, Fs.directory, Fs.directory]
    cases s.child E n c with
    | none => rfl
    | some e =>
      dsimp only
      split_ifs
      · exact ih
      · rfl

theorem Fs.Tree.directory_mem (h : s.Tree E D) (hn : n ∈ D) (hne : ∀ c ∈ cs, c ≠ [] ∧ 0 ∉ c)
    (hm : s.directory E n cs = some m) : m ∈ D := by
  induction cs generalizing n with
  | nil => exact Option.some.inj hm ▸ hn
  | cons c cs ih =>
    rw [Fs.directory] at hm
    cases hc : s.child E n c with
    | none =>
      rw [hc] at hm
      cases hm
    | some e =>
      rw [hc] at hm
      obtain ⟨hdir, hm⟩ := Option.ite_none_right_eq_some.mp hm
      obtain ⟨hc1, hc2⟩ := hne c List.mem_cons_self
      rcases h.child n hn c e hc1 hc2 hc with hreg | ⟨-, he⟩
      · rw [hreg] at hdir
        cases hdir
      · exact ih he (fun c hc ↦ hne c (List.mem_cons_of_mem _ hc)) hm

/-- A search stops behind all components but the last if and only if the last one is missing. -/
theorem Fs.StopsAt.missingLast_iff (h : s.StopsAt E 0 cs before c m) {c' : List UInt8} {m' : ℕ} :
    s.MissingLast E cs c' m' ↔ cs = before ++ [c] ∧ c' = c ∧ m' = m := by
  constructor
  · rintro ⟨before', hcs, hdir, -⟩
    obtain ⟨after, hsplit⟩ := h.split
    rcases List.eq_nil_or_concat after with rfl | ⟨after, x, rfl⟩
    · obtain ⟨rfl, heq⟩ := List.append_inj' (hcs.symm.trans hsplit) rfl
      refine ⟨hsplit, List.singleton_inj.mp heq, ?_⟩
      exact Option.some.inj (hdir.symm.trans h.directory)
    · -- the missing component would be one of those that lead to the last one
      rw [List.concat_eq_append, ← List.cons_append, ← List.append_assoc] at hsplit
      obtain ⟨rfl, -⟩ := List.append_inj' (hcs.symm.trans hsplit) rfl
      rw [Fs.directory_append, h.directory, Option.bind_some, Fs.directory, h.missing] at hdir
      cases hdir
  · rintro ⟨hcs, rfl, rfl⟩
    exact ⟨before, hcs, h.directory, h.missing⟩

/-- The lengths agree exactly in this case. -/
theorem Fs.StopsAt.length_eq_iff (h : s.StopsAt E 0 cs before c m) :
    (before ++ [c]).length = cs.length ↔ cs = before ++ [c] := by
  obtain ⟨after, hsplit⟩ := h.split
  rw [hsplit]
  simp

end Stops

/-! ## The calls -/

section Calls

variable {E : Env} {s s' : Fs}

/-- The entry that a call creates. -/
def newEntry (c : List UInt8) (n : ℕ) (fType : FileType) : DirEntry := ⟨fun i ↦ c.getD i 0, n, fType⟩

/-- A `file_create` that fails late returns -1. -/
theorem fileCreateRollback_none {ioBuf n : ℕ} {newInode fdIdx r : Option ℕ}
    (h : Returns (fileCreateRollback E ioBuf n newInode fdIdx) s r s') : r = none := by
  have hend : ∀ t, Returns (do
      bitmapSet .inodeBitmap n false
      sysFree E ioBuf
      pure none : FsM (Option ℕ)) t r s' → r = none := by
    intro t h
    obtain ⟨_, t₁, -, h⟩ := returns_bind.mp h
    obtain ⟨_, t₂, -, h⟩ := returns_bind.mp h
    exact (returns_pure.mp h).1
  have hinode : ∀ t, Returns (fileCreateRollback E ioBuf n newInode none) t r s' → r = none := by
    intro t h
    cases newInode with
    | none => exact hend t h
    | some a =>
      obtain ⟨_, t₁, -, h⟩ := returns_bind.mp h
      exact hend t₁ h
  cases fdIdx with
  | none => exact hinode s h
  | some f =>
    rw [fileCreateRollback] at h
    exact hinode _ (returns_modify_bind.mp h)

/-- A `file_create` that succeeds has put the entry into the directory it was given. -/
theorem fileCreate_entry {d : Dir} {c : List UInt8} {flags fd : ℕ}
    (h : Returns (fileCreate E d c flags) s (some fd) s') :
    ∃ n t t', Returns (syncDirEntry E d (newEntry c n .regular) 1024) t true t' := by
  obtain ⟨ioBuf, t₁, -, h⟩ := returns_bind.mp h
  cases ioBuf with
  | none => cases (returns_pure.mp h).1
  | some ioBuf =>
    obtain ⟨n, t₂, -, h⟩ := returns_bind.mp h
    cases n with
    | none => cases (returns_pure.mp h).1
    | some n =>
      obtain ⟨a, t₃, -, h⟩ := returns_bind.mp h
      cases a with
      | none => cases fileCreateRollback_none h
      | some a =>
        obtain ⟨_, t₄, -, h⟩ := returns_bind.mp h
        obtain ⟨f, t₅, -, h⟩ := returns_bind.mp h
        cases f with
        | none => cases fileCreateRollback_none h
        | some f =>
          obtain ⟨_, t₆, -, h⟩ := returns_bind.mp h
          rw [returns_modify_bind] at h
          obtain ⟨e, t₇, he, h⟩ := returns_bind.mp h
          obtain ⟨-, he⟩ := returns_check_bind.mp he
          obtain ⟨rfl, -⟩ := returns_pure.mp he
          obtain ⟨b, t₈, hsync, h⟩ := returns_bind.mp h
          rcases returns_ite.mp h with ⟨hb, -⟩ | ⟨-, h⟩
          · obtain rfl : b = true := hb
            exact ⟨n, _, _, hsync⟩
          · cases fileCreateRollback_none h

/-- A `sys_mkdir` that fails late returns `false`. -/
theorem sysMkdirRollback_false {ioBuf : ℕ} {r : PathSearchRecord} {n : Option ℕ} {b : Bool}
    (h : Returns (sysMkdirRollback E ioBuf r n) s b s') : b = false := by
  have hend : ∀ t, Returns (sysMkdirRollback E ioBuf r none) t b s' → b = false := by
    intro t h
    obtain ⟨_, t₁, -, h⟩ := returns_bind.mp h
    obtain ⟨_, t₂, -, h⟩ := returns_bind.mp h
    exact (returns_pure.mp h).1
  cases n with
  | none => exact hend s h
  | some n =>
    obtain ⟨_, t₁, -, h⟩ := returns_bind.mp h
    exact hend t₁ h

/-- A `sys_mkdir` that succeeds has put the entry into the directory of its search record. -/
theorem sysMkdirNew_entry {ioBuf : ℕ} {r : PathSearchRecord}
    (h : Returns (sysMkdirNew E ioBuf r) s true s') :
    ∃ n t t', Returns (syncDirEntry E r.parentDir
      (newEntry (strrchrNext r.searchedPath) n .directory) 1024) t true t' := by
  obtain ⟨n, t₁, -, h⟩ := returns_bind.mp h
  cases n with
  | none => cases sysMkdirRollback_false h
  | some n =>
    obtain ⟨lba, t₂, -, h⟩ := returns_bind.mp h
    cases lba with
    | none => cases sysMkdirRollback_false h
    | some lba =>
      obtain ⟨-, h⟩ := returns_check_bind.mp h
      obtain ⟨_, t₃, -, h⟩ := returns_bind.mp h
      obtain ⟨parent, t₄, -, h⟩ := returns_bind.mp h
      obtain ⟨_, t₅, -, h⟩ := returns_bind.mp h
      obtain ⟨e, t₆, he, h⟩ := returns_bind.mp h
      obtain ⟨-, he⟩ := returns_check_bind.mp he
      obtain ⟨rfl, -⟩ := returns_pure.mp he
      obtain ⟨b, t₇, hsync, h⟩ := returns_bind.mp h
      rcases returns_ite.mp h with ⟨hb, -⟩ | ⟨-, h⟩
      · obtain rfl : b = true := hb
        exact ⟨n, _, _, hsync⟩
      · cases sysMkdirRollback_false h

end Calls

/-! ## Exactness -/

/-- A creation under the path `p` goes to the right place: if the search fails, the depths agree if
and only if only the last component is missing, and then the directory left open is the one it is
missing in, and the path searched ends with it; `sys_open` and `sys_mkdir` create the entry there, or
leave the disk as it was. -/
structure CreationExact (E : Env) (s : Fs) (p : List UInt8) : Prop where
  search : ∀ r s', Returns (searchFile E p) s (none, r) s' →
    (∃ d d', Returns (pathDepthCnt r.searchedPath) s' d s' ∧ Returns (pathDepthCnt p) s' d' s' ∧
      (d = d' ↔ ∃ c m, s.MissingLast E (components p) c m)) ∧
    ∀ c m, s.MissingLast E (components p) c m →
      s.OpenAs E s' r.parentDir m ∧ strrchrNext r.searchedPath = c
  sysOpen : ∀ flags fd s', flags &&& oCreat ≠ 0 → Returns (sysOpen E p flags) s fd s' →
    (fd = none ∧ s'.disk = s.disk ∧ ∀ ty, s'.bitmap ty = s.bitmap ty) ∨
      ∃ c m d t t', s.MissingLast E (components p) c m ∧ s.OpenAs E t d m ∧
        Returns (fileCreate E d c flags) t fd t' ∧ Returns (dirClose E d) t' PUnit.unit s' ∧
        (fd ≠ none → ∃ n u u', Returns (syncDirEntry E d (newEntry c n .regular) 1024) u true u')
  sysMkdir : ∀ b s', Returns (sysMkdir E p) s b s' →
    (b = false ∧ s'.disk = s.disk ∧ ∀ ty, s'.bitmap ty = s.bitmap ty) ∨
      ∃ c m ioBuf r t, s.MissingLast E (components p) c m ∧ s.OpenAs E t r.parentDir m ∧
        strrchrNext r.searchedPath = c ∧ Returns (sysMkdirNew E ioBuf r) t b s' ∧
        (b = true → ∃ n u u', Returns (syncDirEntry E r.parentDir (newEntry c n .directory) 1024)
          u true u')

section Exact

variable {E : Env} {s t : Fs} {xs : List ℕ} {D : Set ℕ} {p : List UInt8}

/-- A directory that the walk has open. -/
theorem Walking.openAs {d : Dir} {m : ℕ} (h : Walking E s t xs d m)
    (htick : t.tick < s.tick + walkRequests) (hm : m < 4096) : s.OpenAs E t d m :=
  ⟨h.held.live, h.held.number, h.same_current htick hm, h.disk, h.bitmap⟩

/-- Behind a search that stopped, the depths agree if and only if the last component is missing. -/
theorem depths_agree_iff {before : List (List UInt8)} {c : List UInt8} {m : ℕ}
    (hnames : ∀ c ∈ components p, c.length < maxFileNameLen ∧ 0 ∉ c)
    (h : s.StopsAt E 0 (components p) before c m) :
    ∃ d d', Returns (pathDepthCnt (spell (before ++ [c]))) t d t ∧ Returns (pathDepthCnt p) t d' t ∧
      (d = d' ↔ components p = before ++ [c]) := by
  obtain ⟨after, hsplit⟩ := h.split
  have hmem : ∀ c' ∈ before ++ [c], c' ∈ components p := by
    intro c' hc'
    rw [hsplit, ← List.singleton_append, ← List.append_assoc]
    exact List.mem_append_left _ hc'
  have hspell : components (spell (before ++ [c])) = before ++ [c] := components_spell
    fun c' hc' ↦ ⟨components_ne_nil (hmem c' hc'), components_no_slash (hmem c' hc')⟩
  have hne : components p ≠ [] := List.ne_nil_of_mem (hmem c (by simp))
  have h₁ : Returns (pathDepthCnt (spell (before ++ [c]))) t _ t := pathDepthCnt_complete
    (by rw [hspell]; simp) (by rw [hspell]; exact fun c' hc' ↦ (hnames c' (hmem c' hc')).1.le)
  have h₂ : Returns (pathDepthCnt p) t _ t := pathDepthCnt_complete hne
    fun c' hc' ↦ (hnames c' hc').1.le
  rw [hspell] at h₁
  exact ⟨_, _, h₁, h₂, h.length_eq_iff⟩

/-- The end of a `sys_mkdir` that created nothing. -/
theorem mkdirRollback_same {r : PathSearchRecord} {m ioBuf : ℕ} {b : Bool} {s' : Fs}
    (hw : Walking E s t xs r.parentDir m) (htick : t.tick + 2 ≤ s.tick + walkRequests)
    (h : Returns (sysMkdirRollback E ioBuf r none) t b s') :
    b = false ∧ s'.disk = s.disk ∧ ∀ ty, s'.bitmap ty = s.bitmap ty := by
  obtain ⟨u, t₁, h1, h⟩ := returns_bind.mp h
  obtain ⟨hdisk, hbitmap⟩ := close_same hw htick h1
  obtain ⟨u, t₂, h2, h⟩ := returns_bind.mp h
  obtain ⟨-, rfl⟩ := returns_sysFree.mp h2
  obtain ⟨rfl, rfl⟩ := returns_pure.mp h
  exact ⟨rfl, hdisk, fun ty ↦ Eq.trans (by cases ty <;> rfl) (hbitmap ty)⟩

section Path

variable (hp : E.part.Formatted) (hs : s.Searchable xs) (htree : s.Tree E D)
  (hserve : E.Serves s walkRequests) (habs : p.head? = some slash) (hlen : p.length < maxPathLen)
  (hnames : ∀ c ∈ components p, c.length < maxFileNameLen ∧ 0 ∉ c) (hne : components p ≠ [])

include hp htree hserve habs hlen hnames hne

/-- A search from a state of the walk that fails. -/
theorem searchFile_stops {r : PathSearchRecord} {s' : Fs} (hw : Walking E s t xs (rootDir t) 0)
    (hstart : t.tick ≤ s.tick + 1024) (h : Returns (searchFile E p) t (none, r) s') :
    ∃ ys m before c, Walking E s s' ys r.parentDir m ∧ s'.tick + 2 ≤ s.tick + walkRequests ∧
      m < 4096 ∧ s.StopsAt E 0 (components p) before c m ∧
        r.searchedPath = spell (before ++ [c]) := by
  obtain ⟨r', t', ys, m, h1, hw', htick, hstop⟩ := searchFile_complete hp hw hstart htree hserve
    habs hlen hnames fun hnil ↦ absurd hnil hne
  obtain ⟨heq, rfl⟩ := h.unique h1
  obtain ⟨hnone, rfl⟩ := Prod.mk.inj heq
  obtain ⟨before, c, hat, hpath⟩ := hstop hnone.symm
  refine ⟨ys, m, before, c, hw', htick, ?_, hat, hpath⟩
  obtain ⟨after, hsplit⟩ := hat.split
  refine htree.lt m (htree.directory_mem htree.root (fun c' hc' ↦ ?_) hat.directory)
  have hc : c' ∈ components p := hsplit ▸ List.mem_append_left _ hc'
  exact ⟨components_ne_nil hc, (hnames c' hc).2⟩

include hs

end Path

end Exact

end GlowOS
