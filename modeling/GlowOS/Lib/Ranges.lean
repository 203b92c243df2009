import Mathlib

/-!
# Ranges handed out and taken back

A list of ranges, each a start and a length, as an allocator hands them out. `Covers` says which
numbers they hold, `Apart` that no two of them meet. A range taken from the list uncovers what was
in it and nothing else.
-/

namespace Ranges

/-- The range holds the number. -/
def Holds (r : ℕ × ℕ) (j : ℕ) : Prop := r.1 ≤ j ∧ j < r.1 + r.2

/-- Some range of the list holds the number. -/
def Covers (live : List (ℕ × ℕ)) (j : ℕ) : Prop := ∃ r ∈ live, Holds r j

/-- No two ranges of the list meet. -/
def Apart (live : List (ℕ × ℕ)) : Prop :=
  live.Pairwise fun r s ↦ r.1 + r.2 ≤ s.1 ∨ s.1 + s.2 ≤ r.1

variable {live : List (ℕ × ℕ)} {r : ℕ × ℕ} {j : ℕ}

theorem not_covers_nil : ¬Covers [] j := by
  rintro ⟨r, hr, -⟩
  cases hr

theorem covers_cons : Covers (r :: live) j ↔ Holds r j ∨ Covers live j := by
  rw [Covers, List.exists_mem_cons_iff]
  exact Iff.rfl

/-- A range that holds nothing covered stands apart from the others. -/
theorem Apart.cons (h : Apart live) (hpos : ∀ s ∈ live, 0 < s.2) (hr : 0 < r.2)
    (hfree : ∀ j, Holds r j → ¬Covers live j) : Apart (r :: live) := by
  refine List.pairwise_cons.mpr ⟨fun s hs ↦ ?_, h⟩
  by_contra hmeet
  have hs' := hpos s hs
  -- the larger of the two starts is in both
  exact hfree (max r.1 s.1) ⟨by omega, by omega⟩ ⟨s, hs, by omega, by omega⟩

theorem Apart.perm {other : List (ℕ × ℕ)} (h : Apart live) (hp : live.Perm other) : Apart other :=
  (hp.pairwise_iff fun hrs ↦ hrs.symm).mp h

/-- Two members of a list that is mapped to ranges apart. -/
theorem Apart.of_map {α : Type*} {f : α → ℕ × ℕ} {l : List α} {a b : α} (h : Apart (l.map f))
    (ha : a ∈ l) (hb : b ∈ l) (hne : a ≠ b) :
    (f a).1 + (f a).2 ≤ (f b).1 ∨ (f b).1 + (f b).2 ≤ (f a).1 := by
  have hsymm : Std.Symm fun a b : α ↦
      (f a).1 + (f a).2 ≤ (f b).1 ∨ (f b).1 + (f b).2 ≤ (f a).1 := ⟨fun _ _ hab ↦ hab.symm⟩
  exact (List.pairwise_map.mp h).forall ha hb hne

theorem Apart.erase (h : Apart live) : Apart (live.erase r) :=
  List.Pairwise.sublist List.erase_sublist h

/-- What a range held is covered by no other. -/
theorem covers_erase (h : Apart live) (hr : r ∈ live) :
    Covers (live.erase r) j ↔ Covers live j ∧ ¬Holds r j := by
  have hperm := List.perm_cons_erase hr
  have hapart := List.pairwise_cons.mp (h.perm hperm)
  have hcov : Covers live j ↔ Holds r j ∨ Covers (live.erase r) j := by
    rw [← covers_cons]
    exact ⟨fun ⟨s, hs, hj⟩ ↦ ⟨s, hperm.mem_iff.mp hs, hj⟩,
      fun ⟨s, hs, hj⟩ ↦ ⟨s, hperm.mem_iff.mpr hs, hj⟩⟩
  rw [hcov]
  constructor
  · rintro ⟨s, hs, hj⟩
    refine ⟨.inr ⟨s, hs, hj⟩, fun hj' ↦ ?_⟩
    have hrs := hapart.1 s hs
    obtain ⟨h1, h2⟩ := hj
    obtain ⟨h3, h4⟩ := hj'
    omega
  · rintro ⟨hj | hj, hno⟩
    · exact absurd hj hno
    · exact hj

end Ranges
