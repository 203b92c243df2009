import Mathlib
import GlowOS.Lib.Program

/-!
# Recursion that may not end

A recursive function is a program with fuel, which stops with a fault of its own when the fuel is
used up. `Approx e m m'` says that `m'` does what `m` does unless `m` stops with that fault. More
fuel leads from one to the other, and the parts of a program pass this on to the whole.

Whether a recursion ends is a question about its calls. Where they can reach finitely many points
only, a well-founded recursion is one that does not come back to the point it started from.
-/

namespace Program

open Relation

/-! ## More fuel -/

section Approximation

variable {ε σ α β : Type} {e : ε} {m m' : StateT σ (Except ε) α} {s t : σ} {a : α}

theorem Returns.ne_error (h : Returns m s a t) : m s ≠ .error e := by
  intro hr
  rw [h] at hr
  cases hr

/-- Where `m` does not stop with `e`, `m'` does the same. -/
def Approx (e : ε) (m m' : StateT σ (Except ε) α) : Prop := ∀ s, m s ≠ .error e → m' s = m s

namespace Approx

theorem refl (e : ε) (m : StateT σ (Except ε) α) : Approx e m m := fun _ _ ↦ rfl

/-- A program that always stops with `e` approximates all. -/
theorem throw (e : ε) (m : StateT σ (Except ε) α) : Approx e (throw e) m :=
  fun _ hs ↦ absurd rfl hs

theorem bind {f f' : α → StateT σ (Except ε) β} (h : Approx e m m')
    (hf : ∀ a, Approx e (f a) (f' a)) : Approx e (m >>= f) (m' >>= f') := by
  intro s hs
  cases hm : m s with
  | error e₁ =>
    have hstop : (m >>= f) s = .error e₁ := bind_stop hm
    rw [hstop] at hs
    have hne : m s ≠ .error e := by
      rw [hm]
      exact fun h ↦ hs (congrArg Except.error (Except.error.inj h))
    have hm' : m' s = .error e₁ := (h s hne).trans hm
    rw [hstop, bind_stop hm']
  | ok r =>
    have hr : Returns m s r.1 r.2 := hm
    have hr' : Returns m' s r.1 r.2 := (h s hr.ne_error).trans hm
    rw [hr.bind_run] at hs ⊢
    rw [hr'.bind_run]
    exact hf _ _ hs

theorem ite {p : Prop} [Decidable p] {m₁ m₁' : StateT σ (Except ε) α} (h : Approx e m m')
    (h₁ : Approx e m₁ m₁') : Approx e (if p then m else m₁) (if p then m' else m₁') := by
  split_ifs
  · exact h
  · exact h₁

theorem returns (h : Approx e m m') (hr : Returns m s a t) : Returns m' s a t :=
  (h s hr.ne_error).trans hr

/-- What `m'` returns is what `m` returns, unless `m` stops with `e`. -/
theorem returns_of_ne (h : Approx e m m') (hs : m s ≠ .error e) (hr : Returns m' s a t) :
    Returns m s a t := (h s hs).symm.trans hr

end Approx

end Approximation

/-! ## Calls -/

section Calls

variable {α : Type*} {r : α → α → Prop} {a b : α}

/-- Calls that reach finitely many points, none of them from itself, are well founded. -/
theorem acc_of_acyclic (hfin : {b | ReflTransGen r a b}.Finite)
    (h : ∀ b, ReflTransGen r a b → ¬TransGen r b b) : Acc (Function.swap r) a := by
  have : Finite {b | ReflTransGen r a b} := hfin
  let calls (v w : {b | ReflTransGen r a b}) : Prop := TransGen r w.1 v.1
  have : IsTrans _ calls := ⟨fun u v w huv hvw ↦ TransGen.trans hvw huv⟩
  have : Std.Irrefl calls := ⟨fun v hv ↦ h v.1 v.2 hv⟩
  have hwf : WellFounded calls := Finite.wellFounded_of_trans_of_irrefl calls
  have hacc : ∀ v : {b | ReflTransGen r a b}, Acc (Function.swap r) v.1 := by
    intro v
    induction v using hwf.induction with
    | _ v ih =>
      exact .intro _ fun w hw ↦ ih ⟨w, v.2.tail hw⟩ (TransGen.single hw)
  exact hacc ⟨a, .refl⟩

theorem not_rel_of_acc (h : Acc r a) : ¬r a a := by
  induction h with
  | intro a _ ih => exact fun hr ↦ ih a hr hr

/-- Well-founded calls do not come back to a point. -/
theorem not_transGen_of_acc (h : Acc (Function.swap r) a) (hab : ReflTransGen r a b) :
    ¬TransGen r b b := by
  have hb : Acc (Function.swap r) b := by
    induction hab with
    | refl => exact h
    | tail _ hstep ih => exact ih.inv hstep
  intro hcycle
  have hloop : TransGen (Function.swap r) b b := transGen_swap.mpr hcycle
  exact not_rel_of_acc (acc_transGen_iff.mpr hb) hloop

end Calls

end Program
