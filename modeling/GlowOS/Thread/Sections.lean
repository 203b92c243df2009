import Mathlib
import GlowOS.Lib.Exclusive
import GlowOS.Thread.State

/-!
# Sections under a lock

A call takes a lock, runs a body on what the lock guards, and gives the lock back. Any number of
threads make such calls, and each of them may lose the processor between any two statements, also
inside `lock_acquire`, inside the body and inside `lock_release`. What the lock guards is then as if
the bodies had run one after the other.

`done` are the calls that have given the lock back, in this order.
-/

namespace GlowOS.Sections

open Interleave Interleave.Prog Relation

variable {τ ε : Type}

/-! ## Data -/

/-- A lock and what it guards, with two ghosts: the owner of the lock and the calls that are done. -/
structure Guarded (τ ε : Type) where
  lock : Thread.Lock
  part : τ
  owner : Option ℕ
  done : List ε

/-- Assign what is guarded. -/
def Guarded.setPart (x : τ) (s : Guarded τ ε) : Guarded τ ε := { s with part := x }

/-- `ASSERT`. -/
def ASSERT (p : Guarded τ ε → Prop) [DecidablePred p] : Prog (Guarded τ ε) PUnit :=
  stmt fun s ↦ if p s then some (PUnit.unit, s) else none

/-- Assign the fields of the lock. -/
def modifyLock (f : Thread.Lock → Thread.Lock) : Prog (Guarded τ ε) PUnit :=
  assign fun s ↦ { s with lock := f s.lock }

/-- `sema_down`, which waits while the semaphore is down. -/
def semaDown (t : ℕ) : Prog (Guarded τ ε) PUnit :=
  stmt fun s ↦
    if s.lock.value = 1 then
      some (PUnit.unit, { s with lock := { s.lock with value := 0 }, owner := some t })
    else none

/-- `sema_up`. The call `e` is done. -/
def semaUp (e : ε) : Prog (Guarded τ ε) PUnit :=
  stmt fun s ↦
    if s.lock.value = 0 then
      some (PUnit.unit,
        { s with lock := { s.lock with value := 1 }, owner := none, done := s.done ++ [e] })
    else none

/-- `lock_acquire`. -/
def lockAcquire (t : ℕ) : Prog (Guarded τ ε) PUnit := do
  let holder ← look fun s ↦ s.lock.holder
  if holder ≠ some t then
    semaDown t
    modifyLock fun k ↦ { k with holder := some t }
    ASSERT fun s ↦ s.lock.holderRepeatNr = 0
    modifyLock fun k ↦ { k with holderRepeatNr := 1 }
  else modifyLock fun k ↦ { k with holderRepeatNr := (k.holderRepeatNr + 1) % 2 ^ 32 }

/-- `lock_release`, at the end of the call `e`. -/
def lockRelease (t : ℕ) (e : ε) : Prog (Guarded τ ε) PUnit := do
  ASSERT fun s ↦ s.lock.holder = some t
  let nr ← look fun s ↦ s.lock.holderRepeatNr
  if 1 < nr then modifyLock fun k ↦ { k with holderRepeatNr := k.holderRepeatNr - 1 }
  else
    ASSERT fun s ↦ s.lock.holderRepeatNr = 1
    modifyLock fun k ↦ { k with holder := none }
    modifyLock fun k ↦ { k with holderRepeatNr := 0 }
    semaUp e

/-- The call `e`, with its body under the lock. -/
def underLock (body : ε → Prog τ PUnit) (t : ℕ) (e : ε) : Prog (Guarded τ ε) PUnit := do
  lockAcquire t
  (body e).onPart Guarded.part Guarded.setPart
  lockRelease t e

/-- The programs that threads run: one call after the other. -/
inductive Calls (body : ε → Prog τ PUnit) (t : ℕ) : Prog (Guarded τ ε) PUnit → Prop
  | call (e : ε) : Calls body t (underLock body t e)

/-- After `lock_init`. -/
def Guarded.init (x : τ) : Guarded τ ε := ⟨⟨none, 1, 0⟩, x, none, []⟩

/-- Nothing but the threads changes the state. -/
def still (_ _ : Guarded τ ε) : Prop := False

/-- The states of runs in which threads make such calls. -/
def Reachable (body : ε → Prog τ PUnit) (x : τ) (c : Threads (Guarded τ ε)) : Prop :=
  ReflTransGen (Step (Calls body) still) ⟨Guarded.init x, fun _ ↦ .ret PUnit.unit⟩ c

/-! ## The invariant -/

variable (body : ε → Prog τ PUnit) (x : τ)

/-- The lock is free and what it guards is as the calls left it, or it has an owner that may not have
entered its name yet or has taken it out again. -/
structure Inv (s : Guarded τ ε) : Prop where
  free : s.owner = none → s.lock = ⟨none, 1, 0⟩ ∧ aloneAll body s.done x = some s.part
  held : ∀ t, s.owner = some t → s.lock.value = 0 ∧ (s.lock.holder = none ∨ s.lock.holder = some t)

/-- What a statement of the thread `t` leaves to the others. -/
structure Guar (t : ℕ) (s s' : Guarded τ ε) : Prop where
  owner : ∀ u ≠ t, s'.owner = some u ↔ s.owner = some u
  holder : ∀ u ≠ t, s'.lock.holder = some u ↔ s.lock.holder = some u
  mine : ∀ u ≠ t, s.owner = some u → s' = s

/-- The thread has nothing to do with the lock. -/
def Out (t : ℕ) (s : Guarded τ ε) : Prop := s.owner ≠ some t ∧ s.lock.holder ≠ some t

/-- The thread owns the lock, whose other fields are as given, and so are the calls that are done. -/
def Owns (t : ℕ) (holder : Option ℕ) (nr : ℕ) (es : List ε) (s : Guarded τ ε) : Prop :=
  s.owner = some t ∧ s.lock = ⟨holder, 0, nr⟩ ∧ s.done = es

/-- What is proved about a piece of a call. -/
abbrev Holds {α : Type} (t : ℕ) (P : Guarded τ ε → Prop) (p : Prog (Guarded τ ε) α)
    (Q : α → Guarded τ ε → Prop) : Prop :=
  Triple (Inv body x) Guar still (fun _ _ ↦ True) t P p Q

section Statements

variable {body x} {t nr nr' : ℕ} {holder holder' : Option ℕ} {es : List ε} {e : ε}
  {s s' : Guarded τ ε}

theorem Guar.refl (t : ℕ) (s : Guarded τ ε) : Guar t s s :=
  ⟨fun _ _ ↦ Iff.rfl, fun _ _ ↦ Iff.rfl, fun _ _ _ ↦ rfl⟩

theorem stable_out (t : ℕ) : Stable (Inv body x) Guar still t (Out t) := by
  rintro s s' - ⟨-, hE | ⟨u, hu, hg⟩⟩ ⟨howner, hholder⟩
  · exact hE.elim
  · exact ⟨fun h ↦ howner ((hg.owner t hu.symm).mp h),
      fun h ↦ hholder ((hg.holder t hu.symm).mp h)⟩

/-- The state of the owner does not change. -/
theorem stable_of_owner {P : Guarded τ ε → Prop} (h : ∀ s, P s → s.owner = some t) :
    Stable (Inv body x) Guar still t P := by
  rintro s s' - ⟨-, hE | ⟨u, hu, hg⟩⟩ hp
  · exact hE.elim
  · rwa [hg.mine t hu.symm (h s hp)]

theorem stable_owns : Stable (Inv body x) Guar still t (Owns t holder nr es) :=
  stable_of_owner fun _ h ↦ h.1

/-- A statement that only looks. -/
theorem holds_look {α : Type} {P : Guarded τ ε → Prop} {f : Guarded τ ε → α}
    {Q : α → Guarded τ ε → Prop} (hP : Stable (Inv body x) Guar still t P)
    (hQ : ∀ s, P s → Q (f s) s) : Holds body x t P (look f) Q := by
  refine .stmt hP fun s a s' hi hp hf _ ↦ ?_
  obtain ⟨rfl, rfl⟩ := Prod.mk.inj (Option.some.inj hf)
  exact ⟨hi, .refl t s, hQ s hp⟩

theorem holds_ASSERT {P : Guarded τ ε → Prop} {p : Guarded τ ε → Prop} [DecidablePred p]
    (hP : Stable (Inv body x) Guar still t P) : Holds body x t P (ASSERT p) fun _ ↦ P := by
  refine .stmt hP fun s a s' hi hp hf _ ↦ ?_
  obtain ⟨-, hf⟩ := Option.ite_none_right_eq_some.mp hf
  obtain ⟨-, rfl⟩ := Prod.mk.inj (Option.some.inj hf)
  exact ⟨hi, .refl t s, hp⟩

/-- The owner of the lock has it for itself. -/
theorem Guar.of_owner (howner : s.owner = some t) (howner' : ∀ u ≠ t, s'.owner ≠ some u)
    (hholder : ∀ u ≠ t, s.lock.holder ≠ some u) (hholder' : ∀ u ≠ t, s'.lock.holder ≠ some u) :
    Guar t s s' := by
  refine ⟨fun u hu ↦ iff_of_false (howner' u hu) fun h ↦ ?_,
    fun u hu ↦ iff_of_false (hholder' u hu) (hholder u hu), fun u hu h ↦ ?_⟩
  · exact hu (Option.some.inj (h.symm.trans howner))
  · exact absurd (Option.some.inj (h.symm.trans howner)) hu

theorem holder_ne {k : Thread.Lock} (h : k.holder = none ∨ k.holder = some t) :
    ∀ u ≠ t, k.holder ≠ some u := by
  intro u hu hk
  rcases h with h | h
  · cases h.symm.trans hk
  · exact hu (Option.some.inj (hk.symm.trans h))

/-- The owner assigns the other two fields of the lock. -/
theorem holds_modifyLock {f : Thread.Lock → Thread.Lock} {P : Guarded τ ε → Prop}
    (hf : f ⟨holder, 0, nr⟩ = ⟨holder', 0, nr'⟩) (hholder : holder' = none ∨ holder' = some t)
    (hP : ∀ s k, P s → P { s with lock := k }) :
    Holds body x t (fun s ↦ Owns t holder nr es s ∧ P s) (modifyLock f) fun _ s ↦
      Owns t holder' nr' es s ∧ P s := by
  refine .stmt (stable_of_owner fun _ h ↦ h.1.1) fun s a s' hi hp hrun _ ↦ ?_
  obtain ⟨-, rfl⟩ := Prod.mk.inj (Option.some.inj hrun)
  obtain ⟨⟨howner, hlock, hdone⟩, hp⟩ := hp
  have hnew : f s.lock = ⟨holder', 0, nr'⟩ := by rw [hlock, hf]
  have hin : (f s.lock).holder = none ∨ (f s.lock).holder = some t := by rwa [hnew]
  refine ⟨⟨fun h ↦ ?_, fun u hu ↦ ?_⟩, .of_owner howner (fun u hu h ↦ ?_)
    (holder_ne (hi.held t howner).2) (holder_ne hin), ⟨howner, hnew, hdone⟩, hP s _ hp⟩
  · cases h.symm.trans howner
  · obtain rfl := Option.some.inj (howner.symm.trans hu)
    exact ⟨congrArg Thread.Lock.value hnew, hin⟩
  · exact hu (Option.some.inj (h.symm.trans howner))

/-- Taking a free lock. -/
theorem holds_semaDown :
    Holds body x t (Out t) (semaDown t) fun _ s ↦
      Owns t none 0 s.done s ∧ aloneAll body s.done x = some s.part := by
  refine .stmt (stable_out t) fun s a s' hi hp hrun _ ↦ ?_
  obtain ⟨hv, hrun⟩ := Option.ite_none_right_eq_some.mp hrun
  obtain ⟨-, rfl⟩ := Prod.mk.inj (Option.some.inj hrun)
  have howner : s.owner = none := by
    cases howner : s.owner with
    | none => rfl
    | some u =>
      have hzero := (hi.held u howner).1
      omega
  obtain ⟨hlock, hpart⟩ := hi.free howner
  refine ⟨⟨fun h ↦ ?_, fun u hu ↦ ⟨rfl, .inl (congrArg Thread.Lock.holder hlock)⟩⟩,
    ⟨fun u hu ↦ ?_, fun _ _ ↦ Iff.rfl, fun u hu h ↦ ?_⟩, ⟨rfl, ?_, rfl⟩, hpart⟩
  · cases h
  · rw [howner]
    refine iff_of_false (fun h ↦ hu (Option.some.inj h).symm) fun h ↦ ?_
    cases h
  · cases h.symm.trans howner
  · dsimp only
    rw [hlock]

/-- Giving the lock back, when the body of the call has run. -/
theorem holds_semaUp :
    Holds body x t
      (fun s ↦ Owns t none 0 es s ∧ aloneAll body (es ++ [e]) x = some s.part)
      (semaUp e) fun _ ↦ Out t := by
  refine .stmt (stable_of_owner fun _ h ↦ h.1.1) fun s a s' hi hp hrun _ ↦ ?_
  obtain ⟨-, hrun⟩ := Option.ite_none_right_eq_some.mp hrun
  obtain ⟨-, rfl⟩ := Prod.mk.inj (Option.some.inj hrun)
  obtain ⟨⟨howner, hlock, rfl⟩, hpart⟩ := hp
  have hnew : ({ s.lock with value := 1 } : Thread.Lock) = ⟨none, 1, 0⟩ := by rw [hlock]
  have hholder : s.lock.holder = none := congrArg Thread.Lock.holder hlock
  refine ⟨⟨fun _ ↦ ⟨hnew, hpart⟩, fun u hu ↦ ?_⟩, .of_owner howner (fun u _ h ↦ ?_)
    (holder_ne (.inl hholder)) (holder_ne (.inl hholder)), fun h ↦ ?_, fun h ↦ ?_⟩
  · cases hu
  · cases h
  · cases h
  · cases hholder.symm.trans h

/-! ## A call -/

/-- `lock_acquire` hands out what the calls that are done have left. -/
theorem holds_lockAcquire :
    Holds body x t (Out t) (lockAcquire t) fun _ s ↦
      Owns t (some t) 1 s.done s ∧ aloneAll body s.done x = some s.part := by
  refine .bind (holds_look (stable_out t) (Q := fun holder s ↦ holder ≠ some t ∧ Out t s)
    fun s hp ↦ ⟨hp.2, hp⟩) fun holder ↦ ?_
  by_cases hne : holder ≠ some t
  · rw [if_pos hne]
    refine Triple.pre (P := Out t) ?_ fun s _ hp ↦ hp.2
    refine .bind holds_semaDown fun _ s hi hp ↦ ?_
    have hrest : Holds body x t
        (fun r ↦ Owns t none 0 s.done r ∧ aloneAll body s.done x = some r.part)
        (modifyLock (fun k ↦ { k with holder := some t }) >>= fun _ ↦
          ASSERT (fun s ↦ s.lock.holderRepeatNr = 0) >>= fun _ ↦
            modifyLock fun k ↦ { k with holderRepeatNr := 1 })
        fun _ r ↦ Owns t (some t) 1 s.done r ∧ aloneAll body s.done x = some r.part :=
      .bind (holds_modifyLock rfl (.inr rfl) fun _ _ h ↦ h) fun _ ↦
        .bind (holds_ASSERT (stable_of_owner fun _ h ↦ h.1.1)) fun _ ↦
          holds_modifyLock rfl (.inr rfl) fun _ _ h ↦ h
    refine (hrest.post fun _ r _ h ↦ ?_) s hi hp
    obtain ⟨hown, hpart⟩ := h
    obtain hdone := hown.2.2
    rw [hdone]
    exact ⟨hown, hpart⟩
  · intro s _ hp
    exact absurd hp.1 hne

/-- `lock_release`, when the body of the call has run. -/
theorem holds_lockRelease :
    Holds body x t
      (fun s ↦ Owns t (some t) 1 es s ∧ aloneAll body (es ++ [e]) x = some s.part)
      (lockRelease t e) fun _ ↦ Out t := by
  have hstable : Stable (Inv body x) Guar still t fun s ↦
      Owns t (some t) 1 es s ∧ aloneAll body (es ++ [e]) x = some s.part :=
    stable_of_owner fun _ h ↦ h.1.1
  refine .bind (holds_ASSERT hstable) fun _ ↦ ?_
  refine .bind (holds_look hstable (Q := fun nr s ↦ nr = 1 ∧ Owns t (some t) 1 es s ∧
    aloneAll body (es ++ [e]) x = some s.part) fun s hp ↦
      ⟨congrArg Thread.Lock.holderRepeatNr hp.1.2.1, hp⟩) fun nr ↦ ?_
  by_cases hnr : 1 < nr
  · intro s _ hp
    exact absurd hp.1 (by omega)
  · rw [if_neg hnr]
    refine Triple.pre (P := fun s ↦ Owns t (some t) 1 es s ∧
      aloneAll body (es ++ [e]) x = some s.part) ?_ fun s _ hp ↦ hp.2
    refine .bind (holds_ASSERT hstable) fun _ ↦ ?_
    exact .bind (holds_modifyLock rfl (.inl rfl) fun _ _ h ↦ h) fun _ ↦
      .bind (holds_modifyLock rfl (.inl rfl) fun _ _ h ↦ h) fun _ ↦ holds_semaUp

/-- The owner has the guarded part for itself. -/
theorem holds_body {y : τ} (p : Prog τ PUnit) :
    Holds body x t (fun s ↦ Owns t (some t) 1 es s ∧ s.part = y)
      (p.onPart Guarded.part Guarded.setPart) fun a s ↦
        Owns t (some t) 1 es s ∧ p.alone y = some (a, s.part) := by
  refine Triple.onPart p (fun y ↦ stable_of_owner fun _ h ↦ h.1.1) fun s y hi hown ↦ ?_
  refine ⟨⟨fun h ↦ ?_, hi.held⟩, .of_owner hown.1 (fun u hu h ↦ ?_)
    (holder_ne (hi.held t hown.1).2) (holder_ne (hi.held t hown.1).2), hown, rfl⟩
  · cases h.symm.trans hown.1
  · exact hu (Option.some.inj (h.symm.trans hown.1))

theorem holds_underLock (e : ε) :
    Holds body x t (Out t) (underLock body t e) fun _ ↦ Out t := by
  refine .bind holds_lockAcquire fun _ s hi hp ↦ ?_
  obtain ⟨hown, hpart⟩ := hp
  have hrest : Holds body x t (fun r ↦ Owns t (some t) 1 s.done r ∧ r.part = s.part)
      ((body e).onPart Guarded.part Guarded.setPart >>= fun _ ↦ lockRelease t e) fun _ ↦ Out t := by
    refine .bind (holds_body (body e)) fun a ↦ ?_
    refine Triple.pre holds_lockRelease fun r _ h ↦ ⟨h.1, ?_⟩
    exact aloneAll_concat hpart h.2
  exact hrest s hi ⟨hown, rfl⟩

end Statements

/-! ## Runs -/

variable {body x}

/-- **Calls under a lock run one after the other.** -/
theorem Reachable.inv {c : Threads (Guarded τ ε)} (h : Reachable body x c) :
    Inv body x c.shared := by
  have hstart : Good (Inv body x) Guar still (fun _ _ ↦ True) (fun t ↦ Out t)
      ⟨Guarded.init x, fun _ ↦ .ret PUnit.unit⟩ := by
    refine Good.start ⟨fun _ ↦ ⟨rfl, rfl⟩, fun u hu ↦ ?_⟩ fun t ↦ ⟨fun h ↦ ?_, fun h ↦ ?_⟩
    · cases hu
    · cases h
    · cases h
  have hrun : ReflTransGen (StepWhen (fun _ _ ↦ True) (Calls body) still)
      ⟨Guarded.init x, fun _ ↦ .ret PUnit.unit⟩ c :=
    ReflTransGen.mono (fun _ _ hs ↦ ⟨hs, trivial⟩) _ _ h
  refine (hstart.run (fun t ↦ stable_out t) (fun t q hq ↦ ?_) (fun _ _ _ hE ↦ hE.elim) hrun).1
  obtain ⟨e⟩ := hq
  exact holds_underLock e

end GlowOS.Sections
