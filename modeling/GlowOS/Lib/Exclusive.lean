import Mathlib
import GlowOS.Lib.Interleave

/-!
# What a thread has for itself

A part of the state that only one thread touches behaves as if that thread were alone. `Prog.alone`
is the run of a program that nobody disturbs, and `Prog.onPart` is a program for the part, run on the
whole state.
-/

namespace Interleave

variable {σ τ α β : Type}

namespace Prog

/-- What a program does when nobody disturbs it. -/
def alone : Prog σ α → σ → Option (α × σ)
  | ret a, s => some (a, s)
  | act f k, s => (f s).bind fun b ↦ (k b.1).alone b.2

/-- A program that has only a part of the state. -/
def onPart (get : σ → τ) (set : τ → σ → σ) : Prog τ α → Prog σ α
  | ret a => ret a
  | act f k => act (fun s ↦ (f (get s)).map fun b ↦ (b.1, set b.2 s)) fun b ↦ (k b).onPart get set

theorem alone_bind (p : Prog σ α) (k : α → Prog σ β) (s : σ) :
    (p >>= k).alone s = (p.alone s).bind fun b ↦ (k b.1).alone b.2 := by
  induction p generalizing s with
  | ret a => rfl
  | act f g ih =>
    change ((f s).bind fun b ↦ ((g b.1) >>= k).alone b.2) =
      ((f s).bind fun b ↦ (g b.1).alone b.2).bind fun b ↦ (k b.1).alone b.2
    rw [Option.bind_assoc]
    exact congrArg _ (funext fun b ↦ ih b.1 b.2)

@[simp] theorem alone_pure (a : α) (s : σ) : (pure a : Prog σ α).alone s = some (a, s) := rfl

@[simp] theorem alone_look_bind (f : σ → α) (k : α → Prog σ β) (s : σ) :
    (look f >>= k).alone s = (k (f s)).alone s := rfl

@[simp] theorem alone_assign_bind (f : σ → σ) (k : PUnit → Prog σ β) (s : σ) :
    (assign f >>= k).alone s = (k PUnit.unit).alone (f s) := rfl

@[simp] theorem alone_assign (f : σ → σ) (s : σ) :
    (assign f).alone s = some (PUnit.unit, f s) := rfl

theorem alone_bind_of {p : Prog σ α} {k : α → Prog σ β} {s s' : σ} {a : α}
    (h : p.alone s = some (a, s')) : (p >>= k).alone s = (k a).alone s' := by
  rw [alone_bind, h, Option.bind_some]

/-- Programs that end with nothing, one after the other. -/
def aloneAll (body : β → Prog σ PUnit) : List β → σ → Option σ
  | [], s => some s
  | b :: bs, s => ((body b).alone s).bind fun r ↦ aloneAll body bs r.2

theorem aloneAll_concat {body : β → Prog σ PUnit} {bs : List β} {b : β} {s r r' : σ}
    {u : PUnit} (h : aloneAll body bs s = some r) (hb : (body b).alone r = some (u, r')) :
    aloneAll body (bs ++ [b]) s = some r' := by
  induction bs generalizing s with
  | nil =>
    obtain rfl := Option.some.inj h
    simp [aloneAll, hb]
  | cons c bs ih =>
    obtain ⟨q, hq, h⟩ := Option.bind_eq_some_iff.mp h
    rw [List.cons_append, aloneAll, hq, Option.bind_some]
    exact ih h

end Prog

variable {I : σ → Prop} {G : ℕ → σ → σ → Prop} {E C : σ → σ → Prop} {t : ℕ}

/-- **The rule for a part of one's own.** While `own` holds nobody else changes the part, and what the
thread assigns to it concerns nobody else. -/
theorem Triple.onPart {get : σ → τ} {set : τ → σ → σ} {own : σ → Prop} {x : τ} (p : Prog τ α)
    (hstable : ∀ x, Stable I G E t fun s ↦ own s ∧ get s = x)
    (hset : ∀ s x, I s → own s → I (set x s) ∧ G t s (set x s) ∧ own (set x s) ∧ get (set x s) = x) :
    Triple I G E C t (fun s ↦ own s ∧ get s = x) (p.onPart get set) fun a s ↦
      own s ∧ p.alone x = some (a, get s) := by
  induction p generalizing x with
  | ret a =>
    refine .ret fun s _ h ↦ ⟨h.1, ?_⟩
    rw [h.2]
    rfl
  | act f k ih =>
    refine .act (M := fun b s ↦ own s ∧ ∃ y, f x = some (b, y) ∧ get s = y) (hstable x) ?_ ?_
    · intro s b s' hi hp hrun _
      obtain ⟨hown, rfl⟩ := hp
      obtain ⟨⟨c, y⟩, hf, hrun⟩ := Option.map_eq_some_iff.mp hrun
      obtain ⟨rfl, rfl⟩ := Prod.mk.inj hrun
      obtain ⟨hi', hg, hown', hget⟩ := hset s y hi hown
      exact ⟨hi', hg, hown', y, hf, hget⟩
    · intro b s hi hp
      obtain ⟨hown, y, hf, hget⟩ := hp
      have hrest : Triple I G E C t (fun s ↦ own s ∧ get s = y) ((k b).onPart get set) fun a s ↦
          own s ∧ (Prog.act f k).alone x = some (a, get s) := by
        refine (ih b).post fun a r _ h ↦ ⟨h.1, ?_⟩
        rw [Prog.alone, hf, Option.bind_some]
        exact h.2
      exact hrest s hi ⟨hown, hget⟩

end Interleave
