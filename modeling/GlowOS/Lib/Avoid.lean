import Mathlib
import GlowOS.Lib.Program

/-!
# Programs that do not stop at a given fault

`Avoids e I m p` says what `Returns` cannot say, that a program never stops with the fault `e`, for
starts in which the invariant `I` holds. What is returned satisfies `p`, and the invariant holds
again, so that the statement for a composite program follows from those for its parts.
-/

namespace Program

variable {ε σ α β : Type} {e e' : ε} {I : σ → Prop} {p q : α → Prop}

/-- Started where `I` holds, the program does not stop with `e`; where it returns, `I` holds and the
value satisfies `p`. -/
def Avoids (e : ε) (I : σ → Prop) (m : StateT σ (Except ε) α) (p : α → Prop) : Prop :=
  ∀ s, I s → m s ≠ .error e ∧ ∀ a s', Returns m s a s' → I s' ∧ p a

namespace Avoids

theorem mono {m : StateT σ (Except ε) α} (h : Avoids e I m p) (hp : ∀ a, p a → q a) :
    Avoids e I m q :=
  fun s hs ↦ ⟨(h s hs).1, fun a s' hr ↦ ((h s hs).2 a s' hr).imp_right (hp a)⟩

theorem pure {a : α} (h : p a) : Avoids e I (pure a : StateT σ (Except ε) α) p := by
  refine fun s hs ↦ ⟨fun hr ↦ (by cases hr), fun b s' hr ↦ ?_⟩
  obtain ⟨rfl, rfl⟩ := returns_pure.mp hr
  exact ⟨hs, h⟩

theorem get : Avoids e I (get : StateT σ (Except ε) σ) I := by
  refine fun s hs ↦ ⟨fun hr ↦ (by cases hr), fun b s' hr ↦ ?_⟩
  obtain ⟨rfl, rfl⟩ := returns_get.mp hr
  exact ⟨hs, hs⟩

theorem throw (h : e' ≠ e) : Avoids e I (throw e' : StateT σ (Except ε) α) p := by
  refine fun s _ ↦ ⟨fun hr ↦ h ?_, fun a s' hr ↦ absurd hr returns_throw⟩
  have hrun : (MonadExcept.throw e' : StateT σ (Except ε) α) s = .error e' := rfl
  exact Except.error.inj (hrun.symm.trans hr)

theorem modify {f : σ → σ} (hf : ∀ s, I s → I (f s)) :
    Avoids e I (modify f : StateT σ (Except ε) PUnit) fun _ ↦ True := by
  refine fun s hs ↦ ⟨fun hr ↦ (by cases hr), fun u s' hr ↦ ?_⟩
  rw [returns_modify.mp hr]
  exact ⟨hf s hs, trivial⟩

theorem bind {m : StateT σ (Except ε) α} {f : α → StateT σ (Except ε) β} {q : β → Prop}
    (hm : Avoids e I m p) (hf : ∀ a, p a → Avoids e I (f a) q) : Avoids e I (m >>= f) q := by
  intro s hs
  obtain ⟨hstop, hret⟩ := hm s hs
  cases hrun : m s with
  | error e₁ =>
    have hbind : (m >>= f) s = .error e₁ := bind_stop hrun
    refine ⟨fun hr ↦ hstop ?_, fun b s' hr ↦ ?_⟩
    · rw [hrun, Except.error.inj (hbind.symm.trans hr)]
    · rw [Returns, hbind] at hr
      cases hr
  | ok r =>
    have hr : Returns m s r.1 r.2 := hrun
    obtain ⟨hI, ha⟩ := hret r.1 r.2 hr
    have hbind : (m >>= f) s = f r.1 r.2 := hr.bind_run
    obtain ⟨h1, h2⟩ := hf r.1 ha r.2 hI
    refine ⟨by rwa [hbind], fun b s' hr ↦ h2 b s' ?_⟩
    rwa [Returns, hbind] at hr

/-- An invariant that the program preserves does not have to be followed through it. -/
theorem keep {m : StateT σ (Except ε) α} (h : Avoids e (fun _ ↦ True) m p)
    (hI : ∀ s a s', Returns m s a s' → I s → I s') : Avoids e I m p :=
  fun s hs ↦ ⟨(h s trivial).1, fun a s' hr ↦ ⟨hI s a s' hr hs, ((h s trivial).2 a s' hr).2⟩⟩

/-- What the first part returns does not matter. -/
theorem seq {m : StateT σ (Except ε) α} {f : α → StateT σ (Except ε) β} {q : β → Prop}
    (hm : Avoids e I m p) (hf : ∀ a, Avoids e I (f a) q) : Avoids e I (m >>= f) q :=
  hm.bind fun a _ ↦ hf a

theorem ite {c : Prop} [Decidable c] {m m' : StateT σ (Except ε) α} (h : c → Avoids e I m p)
    (h' : ¬c → Avoids e I m' p) : Avoids e I (if c then m else m') p := by
  split_ifs with hc
  · exact h hc
  · exact h' hc

/-- A check for another fault leaves its condition behind. -/
theorem check {c : Prop} [Decidable c] (h : e' ≠ e) :
    Avoids e I (check e' c : StateT σ (Except ε) PUnit) fun _ ↦ c :=
  ite (fun hc ↦ pure hc) fun _ ↦ throw h

/-- A check that succeeds. -/
theorem check_of {c : Prop} [Decidable c] (h : c) :
    Avoids e I (Program.check e' c : StateT σ (Except ε) PUnit) fun _ ↦ True :=
  ite (fun _ ↦ pure trivial) fun hc ↦ absurd h hc

end Avoids

end Program
