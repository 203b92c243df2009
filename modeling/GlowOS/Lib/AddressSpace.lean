import Mathlib
import GlowOS.Lib.Paging

/-!
# Address spaces as functions

The lower part of a two-level address space, described by two partial functions: `table j` is the
frame of the page table of directory entry `j`, and `map p` is the frame of page `p`. `Space` says
that an image holds such a description below a directory.

The operations on page tables become updates of the two functions: a page is entered into a table
that exists (`Space.enter`), and an empty table is entered into the directory (`Space.extend`). What
is written elsewhere does not matter (`Space.congr`).
-/

namespace Paging

open Bytes

/-- An entry that points to a frame, or is not present. -/
def Points (w : ℕ) : Option ℕ → Prop
  | none => present w = false
  | some p => present w = true ∧ frame w = p

/-- The first `n` entries of the directory at `d` have the tables `table`, and these have the pages
`map`. -/
structure Space (f : Image) (d n : ℕ) (table map : ℕ → Option ℕ) : Prop where
  dir : ∀ j < n, Points (le32 f (d + 4 * j)) (table j)
  page : ∀ j < n, ∀ t, table j = some t → ∀ k < 1024,
    Points (le32 f (t + 4 * k)) (map (1024 * j + k))
  unmapped : ∀ j < n, table j = none → ∀ k < 1024, map (1024 * j + k) = none

namespace Space

variable {f g : Image} {d n va j k t w : ℕ} {table map : ℕ → Option ℕ}

/-- Translation applies the function of pages. -/
theorem walk (h : Space f d n table map) (hva : pdeIdx va < n) :
    Paging.walk f d va = (map (va / 4096)).map (· + va % 4096) := by
  have hpage : va / 4096 = 1024 * pdeIdx va + pteIdx va := by
    rw [pdeIdx, pteIdx]
    omega
  have hdir := h.dir _ hva
  cases ht : table (pdeIdx va) with
  | none =>
    rw [ht] at hdir
    rw [walk_of_pde hdir, hpage, h.unmapped _ hva ht _ (pteIdx_lt va), Option.map_none]
  | some t =>
    rw [ht] at hdir
    have hpte : pteAddr f d va = t + 4 * pteIdx va := by
      rw [pteAddr, pdeAddr, hdir.2]
    have hword := h.page _ hva t ht _ (pteIdx_lt va)
    rw [← hpage, ← hpte] at hword
    cases hm : map (va / 4096) with
    | none =>
      rw [hm] at hword
      rw [walk_of_pte hdir.1 hword, Option.map_none]
    | some p =>
      rw [hm] at hword
      rw [walk_of_present hdir.1 hword.1, hword.2, Option.map_some]

/-- Only the entries and the tables matter. -/
theorem congr (h : Space f d n table map)
    (hdir : ∀ j < n, le32 g (d + 4 * j) = le32 f (d + 4 * j))
    (htable : ∀ j < n, ∀ t, table j = some t → ∀ k < 1024,
      le32 g (t + 4 * k) = le32 f (t + 4 * k)) : Space g d n table map where
  dir j hj := by
    rw [hdir j hj]
    exact h.dir j hj
  page j hj t ht k hk := by
    rw [htable j hj t ht k hk]
    exact h.page j hj t ht k hk
  unmapped := h.unmapped

/-- The tables stand in frames of their own, apart from the directory. -/
structure Apart (d : ℕ) (table : ℕ → Option ℕ) : Prop where
  dir : d % 4096 = 0
  aligned : ∀ j t, table j = some t → t % 4096 = 0
  ne_dir : ∀ j t, table j = some t → t ≠ d
  inj : ∀ i j t, table i = some t → table j = some t → i = j

/-- A table in a frame of its own. -/
theorem Apart.extend (h : Apart d table) (ht : t % 4096 = 0) (hne : t ≠ d)
    (hnew : ∀ i, table i ≠ some t) : Apart d (Function.update table j (some t)) := by
  refine ⟨h.dir, fun i u hu ↦ ?_, fun i u hu ↦ ?_, fun i l u hi hl ↦ ?_⟩
  · by_cases hij : i = j
    · rw [hij, Function.update_self] at hu
      exact Option.some.inj hu ▸ ht
    · rw [Function.update_of_ne hij] at hu
      exact h.aligned i u hu
  · by_cases hij : i = j
    · rw [hij, Function.update_self] at hu
      exact Option.some.inj hu ▸ hne
    · rw [Function.update_of_ne hij] at hu
      exact h.ne_dir i u hu
  · by_cases hij : i = j <;> by_cases hlj : l = j
    · rw [hij, hlj]
    · rw [hij, Function.update_self] at hi
      rw [Function.update_of_ne hlj] at hl
      exact absurd (hl.trans hi.symm) (hnew l)
    · rw [hlj, Function.update_self] at hl
      rw [Function.update_of_ne hij] at hi
      exact absurd (hi.trans hl.symm) (hnew i)
    · rw [Function.update_of_ne hij] at hi
      rw [Function.update_of_ne hlj] at hl
      exact h.inj i l u hi hl

/-- A page is entered into its table. -/
theorem enter (h : Space f d n table map) (ha : Apart d table) (hn : n ≤ 1024) (hj : j < n)
    (hk : k < 1024) (ht : table j = some t) {p : ℕ} (hw : w < 2 ^ 32) (hp : Points w (some p)) :
    Space (setWord f (t + 4 * k) w) d n table (Function.update map (1024 * j + k) (some p)) := by
  have hd := ha.dir
  have hta := ha.aligned j t ht
  have hne := ha.ne_dir j t ht
  refine ⟨fun i hi ↦ ?_, fun i hi u hu l hl ↦ ?_, fun i hi hnone l hl ↦ ?_⟩
  · rw [le32_setWord_of_ne (by omega) (by omega) (by omega)]
    exact h.dir i hi
  · by_cases hij : i = j
    · subst hij
      obtain rfl := Option.some.inj (hu.symm.trans ht)
      by_cases hlk : l = k
      · rw [hlk, le32_setWord hw, Function.update_self]
        exact hp
      · rw [le32_setWord_of_ne (by omega) (by omega) (by omega),
          Function.update_of_ne (by omega)]
        exact h.page i hi u hu l hl
    · have hua := ha.aligned i u hu
      have hut : u ≠ t := fun heq ↦ hij (ha.inj i j t (heq ▸ hu) ht)
      rw [le32_setWord_of_ne (by omega) (by omega) (by omega), Function.update_of_ne (by omega)]
      exact h.page i hi u hu l hl
  · have hij : i ≠ j := by
      rintro rfl
      rw [ht] at hnone
      cases hnone
    rw [Function.update_of_ne (by omega)]
    exact h.unmapped i hi hnone l hl

/-- An empty table is entered into the directory. -/
theorem extend (h : Space f d n table map) (hj : j < n) (hnone : table j = none)
    (hword : Points (le32 g (d + 4 * j)) (some t))
    (hempty : ∀ k < 1024, present (le32 g (t + 4 * k)) = false)
    (hdir : ∀ i < n, i ≠ j → le32 g (d + 4 * i) = le32 f (d + 4 * i))
    (htable : ∀ i < n, ∀ u, table i = some u → ∀ k < 1024,
      le32 g (u + 4 * k) = le32 f (u + 4 * k)) :
    Space g d n (Function.update table j (some t)) map := by
  refine ⟨fun i hi ↦ ?_, fun i hi u hu k hk ↦ ?_, fun i hi hno k hk ↦ ?_⟩
  · by_cases hij : i = j
    · rw [hij, Function.update_self]
      exact hword
    · rw [Function.update_of_ne hij, hdir i hi hij]
      exact h.dir i hi
  · by_cases hij : i = j
    · subst hij
      rw [Function.update_self] at hu
      obtain rfl := Option.some.inj hu
      rw [h.unmapped i hi hnone k hk]
      exact hempty k hk
    · rw [Function.update_of_ne hij] at hu
      rw [htable i hi u hu k hk]
      exact h.page i hi u hu k hk
  · by_cases hij : i = j
    · rw [hij, Function.update_self] at hno
      cases hno
    · rw [Function.update_of_ne hij] at hno
      exact h.unmapped i hi hno k hk

end Space

/-! ## What a program sees -/

/-- The byte at a virtual address. -/
def seen (f : Image) (d va : ℕ) : Option UInt8 := (walk f d va).map f

theorem seen_congr {f g : Image} {d va : ℕ} (hw : walk g d va = walk f d va)
    (hb : ∀ pa, walk f d va = some pa → g pa = f pa) : seen g d va = seen f d va := by
  rw [seen, seen, hw]
  cases h : walk f d va with
  | none => rfl
  | some pa => exact congrArg some (hb pa h)

/-- A byte that is written is not seen if it is neither read by the translation nor translated
to. -/
theorem seen_update {f : Image} {d va pa : ℕ} {x : UInt8}
    (hreads : ∀ a, Reads f d va a → pa < a ∨ a + 4 ≤ pa) (hpa : walk f d va ≠ some pa) :
    seen (Function.update f pa x) d va = seen f d va := by
  have hwalk := (walk_congr (g := Function.update f pa x) fun a ha ↦
    le32_congr fun i hi ↦ Function.update_of_ne (by have := hreads a ha; omega) ..).1
  refine seen_congr hwalk fun q hq ↦ Function.update_of_ne ?_ ..
  rintro rfl
  exact hpa hq

end Paging
