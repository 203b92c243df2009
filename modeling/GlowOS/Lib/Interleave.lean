import Mathlib

/-!
# Threads that share a state

A thread runs a program made of statements. A statement is taken at once, and between two of them
any other thread may run. A statement that cannot be taken in a state makes its thread wait there.

What the threads do together is proved thread by thread. `I` is kept by every statement, `G t` says
what a statement of the thread `t` may do to the state, and `E` what happens to it otherwise. While a
thread is between two statements the state changes by `Rely`, so it only knows what is `Stable`. The
judgement `Triple` is about one thread. If the calls that threads make have it, `I` holds of every
state of a run. A condition `C` on the statements taken may be assumed; the run is then one whose
statements all meet it.
-/

namespace Interleave

open Relation

variable {σ α β : Type}

/-! ## Programs -/

/-- A program has come to its end, or goes on with a statement. -/
inductive Prog (σ α : Type) : Type 1
  | ret (a : α)
  | act {β : Type} (f : σ → Option (β × σ)) (k : β → Prog σ α)

namespace Prog

/-- One program after another. -/
def bind : Prog σ α → (α → Prog σ β) → Prog σ β
  | ret a, k => k a
  | act f g, k => act f fun b ↦ (g b).bind k

instance : Monad (Prog σ) where
  pure := ret
  bind := bind

/-- A single statement. -/
def stmt (f : σ → Option (α × σ)) : Prog σ α := act f ret

/-- Read the state. -/
def look (f : σ → α) : Prog σ α := stmt fun s ↦ some (f s, s)

/-- Change the state. -/
def assign (f : σ → σ) : Prog σ PUnit := stmt fun s ↦ some (PUnit.unit, f s)

end Prog

/-- The threads and the state they share. -/
structure Threads (σ : Type) where
  shared : σ
  prog : ℕ → Prog σ PUnit

/-- A step: a thread that has nothing to do makes a call, a thread takes its next statement, or the
state changes otherwise. -/
inductive Step (calls : ℕ → Prog σ PUnit → Prop) (E : σ → σ → Prop) :
    Threads σ → Threads σ → Prop
  | call {s : σ} {p : ℕ → Prog σ PUnit} {t : ℕ} {q : Prog σ PUnit}
      (hidle : p t = .ret PUnit.unit) (hq : calls t q) :
      Step calls E ⟨s, p⟩ ⟨s, Function.update p t q⟩
  | act {s s' : σ} {p : ℕ → Prog σ PUnit} {t : ℕ} {β : Type} {f : σ → Option (β × σ)}
      {k : β → Prog σ PUnit} {b : β} (hp : p t = .act f k) (hf : f s = some (b, s')) :
      Step calls E ⟨s, p⟩ ⟨s', Function.update p t (k b)⟩
  | env {s s' : σ} {p : ℕ → Prog σ PUnit} (h : E s s') : Step calls E ⟨s, p⟩ ⟨s', p⟩

/-- The thread `t` takes its next statement. -/
def Threads.next (c : Threads σ) (t : ℕ) : Option (Threads σ) :=
  match c.prog t with
  | .ret _ => none
  | .act f k => (f c.shared).map fun b ↦ ⟨b.2, Function.update c.prog t (k b.1)⟩

/-- The threads of a list take their next statements one after the other. -/
def Threads.turns (c : Threads σ) : List ℕ → Option (Threads σ)
  | [] => some c
  | t :: ts => (c.next t).bind fun d ↦ d.turns ts

/-- The same, if each of the statements meets a condition. -/
def Threads.turnsWhen (C : σ → σ → Prop) [DecidableRel C] (c : Threads σ) :
    List ℕ → Option (Threads σ)
  | [] => some c
  | t :: ts => (c.next t).bind fun d ↦ if C c.shared d.shared then d.turnsWhen C ts else none

section Turns

variable {calls : ℕ → Prog σ PUnit → Prop} {E : σ → σ → Prop} {c d : Threads σ} {t : ℕ}

theorem step_of_next (h : c.next t = some d) : Step calls E c d := by
  rw [Threads.next] at h
  split at h
  · cases h
  · next f k hp =>
    obtain ⟨⟨b, s'⟩, hf, rfl⟩ := Option.map_eq_some_iff.mp h
    exact Step.act hp hf

theorem reaches_of_turns {ts : List ℕ} (h : c.turns ts = some d) :
    ReflTransGen (Step calls E) c d := by
  induction ts generalizing c with
  | nil =>
    obtain rfl := Option.some.inj h
    exact .refl
  | cons t ts ih =>
    obtain ⟨e, he, h⟩ := Option.bind_eq_some_iff.mp h
    exact .head (step_of_next he) (ih h)

end Turns

/-! ## One thread -/

section Rules

variable {I : σ → Prop} {G : ℕ → σ → σ → Prop} {E C : σ → σ → Prop} {t : ℕ}

variable (I G E) in
/-- What may happen between two statements of the thread `t`. -/
def Rely (t : ℕ) (s s' : σ) : Prop := I s' ∧ (E s s' ∨ ∃ u, u ≠ t ∧ G u s s')

variable (I G E) in
/-- A fact that the thread `t` may rely on between two statements. -/
def Stable (t : ℕ) (P : σ → Prop) : Prop := ∀ s s', I s → Rely I G E t s s' → P s → P s'

variable (I G E C) in
/-- From the state `s` on, the statements of the thread `t` keep `I` and stay in `G t`, and when the
program ends the postcondition holds. -/
def Ok (t : ℕ) (Q : α → σ → Prop) : Prog σ α → σ → Prop
  | .ret a, s => Q a s
  | .act f k, s => ∀ r, ReflTransGen (Rely I G E t) s r → ∀ b s', f r = some (b, s') → C r s' →
      I s' ∧ G t r s' ∧ Ok t Q (k b) s'

variable (I G E C) in
/-- The thread `t` may run the program where `P` holds. -/
def Triple (t : ℕ) (P : σ → Prop) (p : Prog σ α) (Q : α → σ → Prop) : Prop :=
  ∀ s, I s → P s → Ok I G E C t Q p s

theorem Stable.run {P : σ → Prop} {s r : σ} (h : Stable I G E t P) (hi : I s) (hp : P s)
    (hr : ReflTransGen (Rely I G E t) s r) : I r ∧ P r := by
  induction hr with
  | refl => exact ⟨hi, hp⟩
  | tail _ hstep ih => exact ⟨hstep.1, h _ _ ih.1 hstep ih.2⟩

theorem Stable.and {P Q : σ → Prop} (hp : Stable I G E t P) (hq : Stable I G E t Q) :
    Stable I G E t fun s ↦ P s ∧ Q s :=
  fun s s' hi hr h ↦ ⟨hp s s' hi hr h.1, hq s s' hi hr h.2⟩

theorem Ok.bind {Q : α → σ → Prop} {R : β → σ → Prop} {p : Prog σ α} {k : α → Prog σ β} {s : σ}
    (hi : I s) (hp : Ok I G E C t Q p s)
    (hk : ∀ a r, I r → Q a r → Ok I G E C t R (k a) r) : Ok I G E C t R (p >>= k) s := by
  induction p generalizing s with
  | ret a => exact hk a s hi hp
  | act f g ih =>
    intro r hr b s' hf hc
    obtain ⟨hi', hg, hrest⟩ := hp r hr b s' hf hc
    exact ⟨hi', hg, ih b hi' hrest⟩

/-- What a thread has still to do is not disturbed by the others. -/
theorem Ok.rely {Q : PUnit → σ → Prop} {p : Prog σ PUnit} {s s' : σ} (hi : I s)
    (hq : Stable I G E t (Q PUnit.unit)) (h : Ok I G E C t Q p s) (hr : Rely I G E t s s') :
    Ok I G E C t Q p s' := by
  cases p with
  | ret a => exact hq s s' hi hr h
  | act f k => exact fun r hr' ↦ h r (.head hr hr')

namespace Triple

variable {P P' : σ → Prop} {Q Q' : α → σ → Prop}

theorem ret {a : α} (h : ∀ s, I s → P s → Q a s) : Triple I G E C t P (.ret a) Q := h

/-- The rule for a statement. -/
theorem act {M : β → σ → Prop} {f : σ → Option (β × σ)} {k : β → Prog σ α}
    (hp : Stable I G E t P)
    (hf : ∀ s b s', I s → P s → f s = some (b, s') → C s s' → I s' ∧ G t s s' ∧ M b s')
    (hk : ∀ b, Triple I G E C t (M b) (k b) Q) : Triple I G E C t P (.act f k) Q := by
  intro s hi hs r hr b s' hb hc
  obtain ⟨hir, hpr⟩ := hp.run hi hs hr
  obtain ⟨hi', hg, hm⟩ := hf r b s' hir hpr hb hc
  exact ⟨hi', hg, hk b s' hi' hm⟩

theorem stmt {f : σ → Option (α × σ)} (hp : Stable I G E t P)
    (hf : ∀ s b s', I s → P s → f s = some (b, s') → C s s' → I s' ∧ G t s s' ∧ Q b s') :
    Triple I G E C t P (.stmt f) Q :=
  act hp hf fun _ ↦ ret fun _ _ h ↦ h

theorem bind {R : β → σ → Prop} {p : Prog σ α} {k : α → Prog σ β}
    (hp : Triple I G E C t P p Q) (hk : ∀ a, Triple I G E C t (Q a) (k a) R) :
    Triple I G E C t P (p >>= k) R :=
  fun s hi hs ↦ (hp s hi hs).bind hi fun a r ↦ hk a r

theorem pre (h : Triple I G E C t P p Q) (hp : ∀ s, I s → P' s → P s) :
    Triple I G E C t P' p Q :=
  fun s hi hs ↦ h s hi (hp s hi hs)

theorem post {p : Prog σ α} (h : Triple I G E C t P p Q) (hq : ∀ a s, I s → Q a s → Q' a s) :
    Triple I G E C t P p Q' := by
  intro s hi hs
  have hok := (h s hi hs).bind (k := .ret) hi fun a r hr ha ↦
    (show Ok I G E C t Q' (.ret a) r from hq a r hr ha)
  have hret : ∀ q : Prog σ α, q.bind .ret = q := by
    intro q
    induction q with
    | ret a => rfl
    | act f g ih => exact congrArg _ (funext ih)
  rwa [show p >>= Prog.ret = p from hret p] at hok

end Triple

end Rules

/-! ## All threads -/

section System

variable {I : σ → Prop} {G : ℕ → σ → σ → Prop} {E C : σ → σ → Prop}
variable {calls : ℕ → Prog σ PUnit → Prop} {idle : ℕ → σ → Prop} {c c' : Threads σ}

/-- A step whose statement meets the condition. -/
def StepWhen (C : σ → σ → Prop) (calls : ℕ → Prog σ PUnit → Prop) (E : σ → σ → Prop)
    (c c' : Threads σ) : Prop := Step calls E c c' ∧ C c.shared c'.shared

theorem reaches_of_turnsWhen [DecidableRel C] {d : Threads σ} {ts : List ℕ}
    (h : c.turnsWhen C ts = some d) : ReflTransGen (StepWhen C calls E) c d := by
  induction ts generalizing c with
  | nil =>
    obtain rfl := Option.some.inj h
    exact .refl
  | cons t ts ih =>
    obtain ⟨e, he, h⟩ := Option.bind_eq_some_iff.mp h
    obtain ⟨hC, h⟩ := Option.ite_none_right_eq_some.mp h
    exact .head ⟨step_of_next he, hC⟩ (ih h)

variable (I G E C idle) in
/-- `I` holds and every thread is in order. -/
def Good (c : Threads σ) : Prop :=
  I c.shared ∧ ∀ t, Ok I G E C t (fun _ ↦ idle t) (c.prog t) c.shared

theorem Good.step (hidle : ∀ t, Stable I G E t (idle t))
    (hcalls : ∀ t q, calls t q → Triple I G E C t (idle t) q fun _ ↦ idle t)
    (henv : ∀ s s', I s → E s s' → I s') (h : Good I G E C idle c)
    (hs : StepWhen C calls E c c') : Good I G E C idle c' := by
  obtain ⟨hi, hok⟩ := h
  obtain ⟨hs, hc⟩ := hs
  cases hs with
  | @call s p t q hret hq =>
    dsimp only at hi hok
    refine ⟨hi, fun u ↦ ?_⟩
    dsimp only
    by_cases hu : u = t
    · subst hu
      have hu := hok u
      rw [hret] at hu
      rw [Function.update_self]
      exact hcalls u q hq s hi hu
    · rw [Function.update_of_ne hu]
      exact hok u
  | @act s s' p t β f k b hp hf =>
    dsimp only at hi hok hc
    have ht := hok t
    rw [hp] at ht
    obtain ⟨hi', hg, hrest⟩ := ht s .refl b s' hf hc
    refine ⟨hi', fun u ↦ ?_⟩
    dsimp only
    by_cases hu : u = t
    · rw [hu, Function.update_self]
      exact hrest
    · rw [Function.update_of_ne hu]
      exact (hok u).rely hi (hidle u) ⟨hi', .inr ⟨t, Ne.symm hu, hg⟩⟩
  | @env s s' p he =>
    exact ⟨henv s s' hi he, fun u ↦ (hok u).rely hi (hidle u) ⟨henv s s' hi he, .inl he⟩⟩

/-- **The rule for a run.** If every call keeps `I`, it holds of every state of a run whose statements
meet the condition. -/
theorem Good.run (hidle : ∀ t, Stable I G E t (idle t))
    (hcalls : ∀ t q, calls t q → Triple I G E C t (idle t) q fun _ ↦ idle t)
    (henv : ∀ s s', I s → E s s' → I s') (h : Good I G E C idle c)
    (hr : ReflTransGen (StepWhen C calls E) c c') : Good I G E C idle c' := by
  induction hr with
  | refl => exact h
  | tail _ hs ih => exact ih.step hidle hcalls henv hs

/-- Threads that have nothing to do are in order. -/
theorem Good.start {s : σ} (hi : I s) (hidle : ∀ t, idle t s) :
    Good I G E C idle ⟨s, fun _ ↦ .ret PUnit.unit⟩ :=
  ⟨hi, hidle⟩

end System

end Interleave
