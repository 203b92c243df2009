import Mathlib
import GlowOS.Lib.Paging

/-!
# Cached translations

What a processor remembers of the page tables: the frame of each page whose translation is cached.
A cache agrees with the tables if every cached translation is still the one the tables give. The
tables may change under it as long as no cached translation reads the words that change.
-/

namespace Paging

open Bytes

/-- The cached translations, from page numbers to physical addresses of frames. -/
abbrev Cache := ℕ → Option ℕ

/-- Every cached translation is the one the tables give. -/
def Agrees (f : Image) (d : ℕ) (c : Cache) : Prop :=
  ∀ p q, c p = some q → walk f d (4096 * p) = some q

/-- No cached translation reads the word at `a`. -/
def Unread (f : Image) (d : ℕ) (c : Cache) (a : ℕ) : Prop :=
  ∀ p q, c p = some q → ¬Reads f d (4096 * p) a

/-- The walk of `va` reads no word of the frame at `q`. -/
def Outside (f : Image) (d va q : ℕ) : Prop := ∀ a, Reads f d va a → a + 4 ≤ q ∨ q + 4096 ≤ a

variable {f g : Image} {d a w p q va : ℕ} {c : Cache}

theorem agrees_none : Agrees f d fun _ ↦ none := by
  rintro p q ⟨⟩

/-- A walk that reads the same words goes on reading them. -/
theorem reads_congr (h : ∀ a, Reads f d va a → le32 g a = le32 f a) :
    Reads g d va a ↔ Reads f d va a := by
  have hpde : le32 g (pdeAddr d va) = le32 f (pdeAddr d va) := h _ (.inl rfl)
  rw [Reads, Reads, hpde]
  refine or_congr_right (and_congr_right fun hp ↦ ?_)
  rw [(walk_congr h).2 hp]

theorem Outside.congr (h : Outside f d va q) (hg : ∀ a, Reads f d va a → le32 g a = le32 f a) :
    Outside g d va q :=
  fun a ha ↦ h a ((reads_congr hg).mp ha)

/-- A byte of the frame is written. -/
theorem Outside.le32_update (h : Outside f d va q) {i : ℕ} (hi : i < 4096) {x : UInt8} :
    ∀ a, Reads f d va a → le32 (Function.update f (q + i) x) a = le32 f a := by
  intro a ha
  have hout := h a ha
  exact le32_congr fun j hj ↦ Function.update_of_ne (by omega) ..

namespace Agrees

/-- A translation is looked up in the tables and cached. -/
theorem fill (h : Agrees f d c) (p : ℕ) :
    Agrees f d (Function.update c p (walk f d (4096 * p))) := by
  intro p' q hq
  obtain rfl | hne := eq_or_ne p' p
  · rwa [Function.update_self] at hq
  · rw [Function.update_of_ne hne] at hq
    exact h p' q hq

/-- A translation is dropped. -/
theorem drop (h : Agrees f d c) (p : ℕ) : Agrees f d (Function.update c p none) := by
  intro p' q hq
  obtain rfl | hne := eq_or_ne p' p
  · rw [Function.update_self] at hq
    cases hq
  · rw [Function.update_of_ne hne] at hq
    exact h p' q hq

/-- The words that the cached translations read stay the same. -/
theorem congr (h : Agrees f d c)
    (hg : ∀ p q, c p = some q → ∀ a, Reads f d (4096 * p) a → le32 g a = le32 f a) :
    Agrees g d c :=
  fun p q hq ↦ (walk_congr (hg p q hq)).1.trans (h p q hq)

theorem setWord (h : Agrees f d c) (hd : d % 4096 = 0) (ha : a % 4 = 0)
    (hun : Unread f d c a) : Agrees (Bytes.setWord f a w) d c := by
  refine h.congr fun p q hq b hb ↦ le32_setWord_of_ne ha (reads_mod hd hb) ?_
  rintro rfl
  exact hun p q hq hb

/-- A word that is not present is read by no cached translation. -/
theorem unread (h : Agrees f d c) (ha : present (le32 f a) = false) : Unread f d c a := by
  intro p q hq hr
  obtain ⟨h1, h2, -⟩ := walk_eq_some.mp (h p q hq)
  rcases hr with rfl | ⟨-, rfl⟩
  · exact absurd (h1.symm.trans ha) (by decide)
  · exact absurd (h2.symm.trans ha) (by decide)

end Agrees

end Paging
