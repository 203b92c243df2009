import Mathlib
import GlowOS.Fs.Naming

/-!
# The arrays for a component

`path_parse` stores the next component of a path and has no bound of its own. Its callers,
`path_depth_cnt` and `search_file`, give it an array of 16 characters and take what it stored for a
string.

`DepthAt` and `SearchAt` say where the loops of the two callers stand, so that the calls they make
can be spoken of one by one, those before a fault included. Every call is made on the path with some
components taken off, and `path_depth_cnt` takes all of them off; all arrays are large enough exactly
when each component is shorter than 16 characters.
-/

namespace GlowOS

open Bytes Program

/-! ## The calls of `path_parse` -/

/-- The array of a caller that has cleared it, after `path_parse` was called with `p`. -/
def nameBuffer (p : List UInt8) : List UInt8 :=
  (nextName p ++ List.replicate maxFileNameLen 0).take maxFileNameLen

/-- `path_parse` leaves the last byte of the array alone, and a string in it. -/
structure CallFits (p : List UInt8) : Prop where
  bound : (nextName p).length ≤ maxFileNameLen - 1
  terminated : 0 ∈ nameBuffer p

theorem callFits_iff {p : List UInt8} : CallFits p ↔ (nextName p).length ≤ maxFileNameLen - 1 := by
  refine ⟨CallFits.bound, fun h ↦ ⟨h, ?_⟩⟩
  rw [nameBuffer, List.take_append, List.take_replicate]
  refine List.mem_append_right _ (List.mem_replicate.mpr ⟨?_, rfl⟩)
  rw [maxFileNameLen] at h ⊢
  omega

/-- The loop of `path_depth_cnt` stands with a component and the rest of the path. -/
inductive DepthAt (p : List UInt8) : List UInt8 → List UInt8 → ℕ → Prop
  | start (h : (nextName p).length ≤ maxFileNameLen) : DepthAt p (nextName p) (afterName p) 0
  | next {name q : List UInt8} {depth : ℕ} (h : DepthAt p name q depth) (hname : name ≠ [])
      (hlen : (nextName q).length ≤ maxFileNameLen) :
      DepthAt p (nextName q) (afterName q) (depth + 1)

/-- `path_depth_cnt` calls `path_parse` with `q`: first with the whole path, then with what is left.
The array is not initialized, so the loop may be entered although nothing was stored. -/
def DepthCall (p q : List UInt8) : Prop :=
  q = p ∨ ∃ name depth, DepthAt p name q depth ∧ (name ≠ [] ∨ depth = 0)

/-- `search_file` gets as far as its loop: the path is not the root, and the assertion holds. -/
def SearchParses (p : List UInt8) : Prop :=
  ¬(p = [slash] ∨ p = slash :: dot ∨ p = slash :: dotDot) ∧
    p.head? = some slash ∧ 1 < p.length ∧ p.length < maxPathLen

/-- The loop of `search_file`, started in `s`, stands in a state with the arguments of
`searchFrom`. -/
inductive SearchAt (E : Env) (s : Fs) (p : List UInt8) :
    Fs → List UInt8 → List UInt8 → ℕ → Option ℕ → PathSearchRecord → Prop
  | start (hparses : SearchParses p) (hlen : (nextName p).length ≤ maxFileNameLen) :
      SearchAt E s p s (nextName p) (afterName p) 0 none ⟨[], rootDir s, .unknown⟩
  | directory {t t₁ t₂ t₃ : Fs} {name q : List UInt8} {i : ℕ} {last : Option ℕ}
      {r : PathSearchRecord} {e : DirEntry} {dir : Dir} {parent : Inode}
      (h : SearchAt E s p t name q i last r) (hname : name ≠ [])
      (hroom : r.searchedPath.length < maxPathLen) (hstring : name.length < maxFileNameLen)
      (hfound : Returns (searchDirEntry E r.parentDir name) t (some e) t₁)
      (hlen : (nextName q).length ≤ maxFileNameLen) (htype : e.fType = .directory)
      (hparent : Returns (inodeAt r.parentDir.inode) t₁ parent t₁)
      (hclose : Returns (dirClose E r.parentDir) t₁ () t₂)
      (hopen : Returns (dirOpen E e.iNo) t₂ dir t₃) :
      SearchAt E s p t₃ (nextName q) (afterName q) parent.iNo (some e.iNo)
        { r.extend name with parentDir := dir }
  | unknown {t t₁ : Fs} {name q : List UInt8} {i : ℕ} {last : Option ℕ}
      {r : PathSearchRecord} {e : DirEntry}
      (h : SearchAt E s p t name q i last r) (hname : name ≠ [])
      (hroom : r.searchedPath.length < maxPathLen) (hstring : name.length < maxFileNameLen)
      (hfound : Returns (searchDirEntry E r.parentDir name) t (some e) t₁)
      (hlen : (nextName q).length ≤ maxFileNameLen) (htype : e.fType ≠ .directory)
      (hregular : e.fType ≠ .regular) :
      SearchAt E s p t₁ (nextName q) (afterName q) i (some e.iNo) (r.extend name)

/-- `search_file` calls `path_parse` with `q`: with the whole path, and then after every entry it
has found. -/
def SearchCall (E : Env) (s : Fs) (p q : List UInt8) : Prop :=
  SearchParses p ∧ q = p ∨ ∃ t name i last r e t₁, SearchAt E s p t name q i last r ∧ name ≠ [] ∧
    r.searchedPath.length < maxPathLen ∧ name.length < maxFileNameLen ∧
    Returns (searchDirEntry E r.parentDir name) t (some e) t₁

/-! ## The loops stand there -/

section Runs

variable {E : Env} {s t s' : Fs} {p q name : List UInt8}

theorem length_nextName_add (q : List UInt8) :
    (nextName q).length + (afterName q).length ≤ q.length := by
  have h := (List.dropWhile_sublist (· == slash) (l := q)).length_le
  rwa [dropWhile_eq, List.length_append] at h

/-- What `path_depth_cnt` returns is what its loop returns from where it stands. -/
theorem DepthAt.returns_iff {depth : ℕ} (h : DepthAt p name q depth) (hne : nextName p ≠ []) :
    ∃ fuel, name.length + q.length < fuel ∧ ∀ s d s', Returns (pathDepthCnt p) s d s' ↔
      Returns (pathDepthFrom fuel name q depth) s d s' := by
  induction h with
  | start h =>
    have hlen := length_nextName_add p
    refine ⟨p.length + 1, by omega, fun s d s' ↦ ?_⟩
    rw [pathDepthCnt, Returns.bind_iff (returns_pathParse.mpr ⟨h, rfl, rfl⟩), returns_check_bind]
    exact and_iff_right hne
  | @next name q depth _ hname hlen ih =>
    obtain ⟨fuel, hfuel, ih⟩ := ih
    have hpos := List.length_pos_iff.mpr hname
    have hsum := length_nextName_add q
    obtain ⟨fuel, rfl⟩ := Nat.exists_eq_succ_of_ne_zero (show fuel ≠ 0 by omega)
    refine ⟨fuel, by omega, fun s d s' ↦ (ih s d s').trans ?_⟩
    rw [pathDepthFrom, if_neg hname, Returns.bind_iff (returns_pathParse.mpr ⟨hlen, rfl, rfl⟩)]

/-- What `search_file` returns is what its loop returns from where it stands. -/
theorem SearchAt.returns_iff {i : ℕ} {last : Option ℕ} {r : PathSearchRecord}
    (h : SearchAt E s p t name q i last r) :
    ∃ fuel, name.length + q.length < fuel ∧ ∀ x s', Returns (searchFile E p) s x s' ↔
      Returns (searchFrom E fuel name q i last r) t x s' := by
  induction h with
  | start hparses hlen =>
    obtain ⟨hspecial, hassert⟩ := hparses
    have hsum := length_nextName_add p
    refine ⟨p.length + 1, by omega, fun x s' ↦ ?_⟩
    rw [searchFile, returns_get_bind, if_neg hspecial, returns_check_bind, and_iff_right hassert,
      Returns.bind_iff (returns_pathParse.mpr ⟨hlen, rfl, rfl⟩)]
  | @directory t t₁ t₂ t₃ name q i last r e dir parent _ hname hroom hstring hfound hlen htype hparent
      hclose hopen ih =>
    obtain ⟨fuel, hfuel, ih⟩ := ih
    have hpos := List.length_pos_iff.mpr hname
    have hsum := length_nextName_add q
    obtain ⟨fuel, rfl⟩ := Nat.exists_eq_succ_of_ne_zero (show fuel ≠ 0 by omega)
    refine ⟨fuel, by omega, fun x s' ↦ (ih x s').trans ?_⟩
    rw [searchFrom, if_neg hname, returns_check_bind, and_iff_right hroom, returns_check_bind,
      and_iff_right hstring]
    change Returns (searchDirEntry E r.parentDir name >>= _) t x s' ↔ _
    rw [Returns.bind_iff hfound]
    dsimp only
    rw [Returns.bind_iff (returns_pathParse.mpr ⟨hlen, rfl, rfl⟩)]
    dsimp only
    rw [htype]
    have hdir : (r.extend name).parentDir = r.parentDir := rfl
    rw [hdir, Returns.bind_iff hparent, Returns.bind_iff hclose, Returns.bind_iff hopen]
  | @unknown t t₁ name q i last r e _ hname hroom hstring hfound hlen htype hregular ih =>
    obtain ⟨fuel, hfuel, ih⟩ := ih
    have hpos := List.length_pos_iff.mpr hname
    have hsum := length_nextName_add q
    obtain ⟨fuel, rfl⟩ := Nat.exists_eq_succ_of_ne_zero (show fuel ≠ 0 by omega)
    refine ⟨fuel, by omega, fun x s' ↦ (ih x s').trans ?_⟩
    rw [searchFrom, if_neg hname, returns_check_bind, and_iff_right hroom, returns_check_bind,
      and_iff_right hstring]
    change Returns (searchDirEntry E r.parentDir name >>= _) t x s' ↔ _
    rw [Returns.bind_iff hfound]
    dsimp only
    rw [Returns.bind_iff (returns_pathParse.mpr ⟨hlen, rfl, rfl⟩)]
    cases hf : e.fType with
    | directory => exact absurd hf htype
    | regular => exact absurd hf hregular
    | unknown => rfl
    | other => rfl

/-! ## What the calls store -/

/-- `search_file` takes off the components that `path_depth_cnt` takes off. -/
theorem SearchAt.exists_depthAt {i : ℕ} {last : Option ℕ} {r : PathSearchRecord}
    (h : SearchAt E s p t name q i last r) : ∃ depth, DepthAt p name q depth := by
  induction h with
  | start _ hlen => exact ⟨0, .start hlen⟩
  | directory _ hname _ _ _ hlen _ _ _ _ ih =>
    obtain ⟨depth, ih⟩ := ih
    exact ⟨depth + 1, ih.next hname hlen⟩
  | unknown _ hname _ _ _ hlen _ _ ih =>
    obtain ⟨depth, ih⟩ := ih
    exact ⟨depth + 1, ih.next hname hlen⟩

/-- `search_file` makes no call that `path_depth_cnt` does not make. -/
theorem SearchCall.depthCall (h : SearchCall E s p q) : DepthCall p q := by
  rcases h with ⟨-, rfl⟩ | ⟨t, name, i, last, r, e, t₁, hat, hname, -⟩
  · exact Or.inl rfl
  · obtain ⟨depth, h⟩ := hat.exists_depthAt
    exact Or.inr ⟨name, depth, h, Or.inl hname⟩

/-- The components of what is left are components of the path. -/
theorem DepthAt.subset {depth : ℕ} (h : DepthAt p name q depth) :
    components q ⊆ components p := by
  have hafter : ∀ q, components (afterName q) ⊆ components q := by
    intro q
    by_cases hnil : nextName q = []
    · rcases afterName_eq q with h | ⟨q', h⟩
      · rw [h]
        exact List.nil_subset _
      · have hd := dropWhile_eq q
        have hx := List.head?_dropWhile_not (· == slash) q
        rw [hd, hnil, h] at hx
        simp at hx
    · rw [components_afterName hnil]
      exact List.subset_cons_self ..
  induction h with
  | start => exact hafter p
  | next _ _ _ ih => exact List.Subset.trans (hafter _) ih

/-- What a call stores is nothing or a component. -/
theorem DepthCall.nextName (h : DepthCall p q) : nextName q = [] ∨ nextName q ∈ components p := by
  by_cases hnil : GlowOS.nextName q = []
  · exact Or.inl hnil
  · right
    rcases h with rfl | ⟨name, depth, h, -⟩
    · exact nextName_mem hnil
    · exact h.subset (nextName_mem hnil)

/-- As long as the arrays are large enough every component is stored. -/
theorem components_le_of_calls (h : ∀ q, DepthCall p q → CallFits q) :
    ∀ c ∈ components p, c.length ≤ maxFileNameLen - 1 := by
  have hgen : ∀ n q, q.length ≤ n → DepthCall p q →
      (q = p ∨ ∃ name depth, DepthAt p name q depth ∧ name ≠ []) →
      ∀ c ∈ components q, c.length ≤ maxFileNameLen - 1 := by
    intro n
    induction n with
    | zero =>
      intro q hn _ _ c hc
      obtain rfl := List.length_eq_zero_iff.mp (Nat.le_zero.mp hn)
      cases hc
    | succ n ih =>
      intro q hn hcall hat c hc
      by_cases hnil : nextName q = []
      · rw [components_eq_nil_iff.mpr hnil] at hc
        cases hc
      · have hfit := (h q hcall).bound
        rw [components_afterName hnil] at hc
        rcases List.mem_cons.mp hc with rfl | hc
        · exact hfit
        · -- the loop goes on with the rest of the path, which is shorter
          have hpos := List.length_pos_iff.mpr hnil
          have hsum := length_nextName_add q
          have hnext : ∃ depth, DepthAt p (nextName q) (afterName q) depth := by
            rcases hat with rfl | ⟨name, depth, hat, hname⟩
            · exact ⟨0, .start (hfit.trans (by decide))⟩
            · exact ⟨depth + 1, hat.next hname (hfit.trans (by decide))⟩
          obtain ⟨depth, hnext⟩ := hnext
          exact ih (afterName q) (by omega) (Or.inr ⟨_, depth, hnext, Or.inl hnil⟩)
            (Or.inr ⟨_, depth, hnext, hnil⟩) c hc
  exact hgen p.length p (Nat.le_refl _) (Or.inl rfl) (Or.inl rfl)

/-- Every call the two functions make on a path leaves a string in the array. -/
structure NamesFit (E : Env) (s : Fs) (p : List UInt8) : Prop where
  depth : ∀ q, DepthCall p q → CallFits q
  search : ∀ q, SearchCall E s p q → CallFits q

/-- **The arrays are large enough** exactly when the components have less than 16 characters. -/
theorem namesFit_iff : NamesFit E s p ↔ ∀ c ∈ components p, c.length ≤ maxFileNameLen - 1 := by
  constructor
  · exact fun h ↦ components_le_of_calls h.depth
  · intro h
    have hdepth : ∀ q, DepthCall p q → CallFits q := by
      intro q hq
      rw [callFits_iff]
      rcases hq.nextName with hnil | hmem
      · rw [hnil]
        exact Nat.zero_le _
      · exact h _ hmem
    exact ⟨hdepth, fun q hq ↦ hdepth q hq.depthCall⟩

end Runs

/-- The array ends with a component of 16 characters. -/
theorem longName_not_namesFit :
    ¬NamesFit (Env.bump samplePartition) Fs.rootWithFile (slash :: longName) := by
  intro h
  have hlen := (h.depth _ (Or.inl rfl)).bound
  revert hlen
  decide

end GlowOS
