import Mathlib
import GlowOS.Lib.Interleave
import GlowOS.Thread.State

/-!
# Process numbers

`allocate_pid`, called by any number of threads that may lose the processor between any two of its
statements, also inside `lock_acquire` and `lock_release`. The counter is read and written under
`pid_lock`, but the value that is returned is read again behind `lock_release`. Until then a thread
has counted its call and does not have its number; a second thread that counts in between takes the
number from it, and both return the same.

The count and the number are kept apart: `counted` is how many calls have incremented `next_pid`, a
16-bit word. `pending` says which threads stand between the increment and the last reading. A thread
whose assertion fails goes no further.
-/

namespace GlowOS.Pid

open Interleave Interleave.Prog Relation

/-! ## Data -/

/-- The variables of `allocate_pid`, and three ghosts: the owner of the lock, the calls that have
incremented `next_pid`, and the threads among them that have not read their number yet. -/
structure PidState where
  nextPid : ℤ
  pidLock : Thread.Lock
  owner : Option ℕ
  counted : ℕ
  pending : Finset ℕ
  /-- The numbers that were returned. -/
  returned : List ℤ

/-- A value as a `pid_t`. -/
def toPid (n : ℤ) : ℤ := (n + 2 ^ 15) % 2 ^ 16 - 2 ^ 15

/-- `ASSERT`. -/
def ASSERT (p : PidState → Prop) [DecidablePred p] : Prog PidState PUnit :=
  stmt fun s ↦ if p s then some (PUnit.unit, s) else none

/-- Assign the fields of the lock. -/
def modifyLock (f : Thread.Lock → Thread.Lock) : Prog PidState PUnit :=
  assign fun s ↦ { s with pidLock := f s.pidLock }

/-- `sema_down`, which waits while the semaphore is down. -/
def semaDown (t : ℕ) : Prog PidState PUnit :=
  stmt fun s ↦
    if s.pidLock.value = 1 then
      some (PUnit.unit, { s with pidLock := { s.pidLock with value := 0 }, owner := some t })
    else none

/-- `sema_up`. -/
def semaUp : Prog PidState PUnit :=
  stmt fun s ↦
    if s.pidLock.value = 0 then
      some (PUnit.unit, { s with pidLock := { s.pidLock with value := 1 }, owner := none })
    else none

/-- `lock_acquire`. -/
def lockAcquire (t : ℕ) : Prog PidState PUnit := do
  let holder ← look fun s ↦ s.pidLock.holder
  if holder ≠ some t then
    semaDown t
    modifyLock fun k ↦ { k with holder := some t }
    ASSERT fun s ↦ s.pidLock.holderRepeatNr = 0
    modifyLock fun k ↦ { k with holderRepeatNr := 1 }
  else modifyLock fun k ↦ { k with holderRepeatNr := (k.holderRepeatNr + 1) % 2 ^ 32 }

/-- `lock_release`. -/
def lockRelease (t : ℕ) : Prog PidState PUnit := do
  ASSERT fun s ↦ s.pidLock.holder = some t
  let nr ← look fun s ↦ s.pidLock.holderRepeatNr
  if 1 < nr then modifyLock fun k ↦ { k with holderRepeatNr := k.holderRepeatNr - 1 }
  else
    ASSERT fun s ↦ s.pidLock.holderRepeatNr = 1
    modifyLock fun k ↦ { k with holder := none }
    modifyLock fun k ↦ { k with holderRepeatNr := 0 }
    semaUp

/-- `next_pid++`, which is a reading and an assignment. -/
def increment (t : ℕ) : Prog PidState PUnit := do
  let pid ← look fun s ↦ s.nextPid
  assign fun s ↦ { s with
    nextPid := toPid (pid + 1)
    counted := s.counted + 1
    pending := insert t s.pending }

/-- `return next_pid`. -/
def readPid (t : ℕ) : Prog PidState ℤ :=
  stmt fun s ↦ some (s.nextPid,
    { s with
      pending := s.pending.erase t
      returned := s.nextPid :: s.returned })

/-- `allocate_pid`. -/
def allocatePid (t : ℕ) : Prog PidState ℤ := do
  lockAcquire t
  increment t
  lockRelease t
  readPid t

/-- `fork_pid`. -/
def forkPid (t : ℕ) : Prog PidState ℤ := allocatePid t

/-- The calls: `init_thread` and `sys_fork` store the number that they get. -/
inductive Calls (t : ℕ) : Prog PidState PUnit → Prop
  | initThread : Calls t (allocatePid t >>= fun _ ↦ pure PUnit.unit)
  | fork : Calls t (forkPid t >>= fun _ ↦ pure PUnit.unit)

/-- Before the first call. -/
def PidState.init : PidState where
  nextPid := 0
  pidLock := ⟨none, 1, 0⟩
  owner := none
  counted := 0
  pending := ∅
  returned := []

/-- A step in which a thread counts its call while another has not read its number. -/
def Crosses (s s' : PidState) : Prop := s'.counted ≠ s.counted ∧ s.pending ≠ ∅

instance : DecidableRel Crosses := fun s s' ↦
  inferInstanceAs (Decidable (s'.counted ≠ s.counted ∧ s.pending ≠ ∅))

/-- The numbers are positive and all different, as long as `next_pid` was incremented at most 32767
times. -/
def PidState.Unique (s : PidState) : Prop :=
  s.counted ≤ 32767 → (∀ pid ∈ s.returned, 0 < pid) ∧ s.returned.Nodup

/-! ## The invariant -/

/-- The lock is free, or it has an owner that may not have entered its name yet or has taken it out
again. Every number that was returned is one that was counted, and the last one is not among them
while a thread has still to read it. -/
structure Inv (s : PidState) : Prop where
  free : s.owner = none → s.pidLock = ⟨none, 1, 0⟩
  held : ∀ t, s.owner = some t →
    s.pidLock.value = 0 ∧ (s.pidLock.holder = none ∨ s.pidLock.holder = some t)
  one : ∀ t ∈ s.pending, ∀ u ∈ s.pending, t = u
  pid : s.counted ≤ 32767 → s.nextPid = s.counted
  counted : s.counted ≤ 32767 → ∀ pid ∈ s.returned, 0 < pid ∧ pid ≤ s.counted
  nodup : s.counted ≤ 32767 → s.returned.Nodup
  fresh : s.counted ≤ 32767 → ∀ t ∈ s.pending, 0 < s.counted ∧ (s.counted : ℤ) ∉ s.returned

/-- What a statement of the thread `t` leaves to the others. -/
structure Guar (t : ℕ) (s s' : PidState) : Prop where
  pending : ∀ u ≠ t, u ∈ s'.pending ↔ u ∈ s.pending
  owner : ∀ u ≠ t, s'.owner = some u ↔ s.owner = some u
  holder : ∀ u ≠ t, s'.pidLock.holder = some u ↔ s.pidLock.holder = some u
  mine : ∀ u ≠ t, s.owner = some u →
    s'.pidLock = s.pidLock ∧ s'.nextPid = s.nextPid ∧ s'.counted = s.counted

/-- The thread has nothing to do with the lock. -/
def Out (t : ℕ) (b : Bool) (s : PidState) : Prop :=
  s.owner ≠ some t ∧ s.pidLock.holder ≠ some t ∧ (t ∈ s.pending ↔ b)

/-- The thread owns the lock, whose other fields are as given. -/
def Owns (t : ℕ) (holder : Option ℕ) (nr : ℕ) (b : Bool) (s : PidState) : Prop :=
  s.owner = some t ∧ s.pidLock = ⟨holder, 0, nr⟩ ∧ (t ∈ s.pending ↔ b)

/-- Nothing but the threads changes these variables. -/
def still (_ _ : PidState) : Prop := False

section Stability

variable {t : ℕ}

theorem stable_out (t : ℕ) (b : Bool) : Stable Inv Guar still t (Out t b) := by
  rintro s s' - ⟨-, hE | ⟨u, hu, hg⟩⟩ ⟨howner, hholder, hpending⟩
  · exact hE.elim
  · exact ⟨fun h ↦ howner ((hg.owner t hu.symm).mp h), fun h ↦ hholder ((hg.holder t hu.symm).mp h),
      (hg.pending t hu.symm).trans hpending⟩

theorem stable_owns (t : ℕ) (holder : Option ℕ) (nr : ℕ) (b : Bool) :
    Stable Inv Guar still t (Owns t holder nr b) := by
  rintro s s' - ⟨-, hE | ⟨u, hu, hg⟩⟩ ⟨howner, hlock, hpending⟩
  · exact hE.elim
  · exact ⟨(hg.owner t hu.symm).mpr howner, (hg.mine t hu.symm howner).1.trans hlock,
      (hg.pending t hu.symm).trans hpending⟩

/-- The counter does not change under the lock. -/
theorem stable_owns_pid (t : ℕ) (holder : Option ℕ) (nr : ℕ) (b : Bool) (pid : ℤ) :
    Stable Inv Guar still t fun s ↦ Owns t holder nr b s ∧ s.nextPid = pid := by
  rintro s s' hi hr ⟨hown, hpid⟩
  refine ⟨stable_owns t holder nr b s s' hi hr hown, ?_⟩
  obtain ⟨-, hE | ⟨u, hu, hg⟩⟩ := hr
  · exact hE.elim
  · exact (hg.mine t hu.symm hown.1).2.1.trans hpid

end Stability

/-! ## The statements -/

section Statements

variable {t nr nr' : ℕ} {b : Bool} {holder holder' : Option ℕ} {s s' : PidState}

/-- What is proved about a piece of `allocate_pid`: in a run without crossing. -/
abbrev Step {α : Type} (t : ℕ) (P : PidState → Prop) (p : Prog PidState α)
    (Q : α → PidState → Prop) : Prop :=
  Triple Inv Guar still (fun s s' ↦ ¬Crosses s s') t P p Q

theorem Guar.refl (t : ℕ) (s : PidState) : Guar t s s :=
  ⟨fun _ _ ↦ Iff.rfl, fun _ _ ↦ Iff.rfl, fun _ _ ↦ Iff.rfl, fun _ _ _ ↦ ⟨rfl, rfl, rfl⟩⟩

/-- A statement that only looks. -/
theorem step_look {α : Type} {P : PidState → Prop} {f : PidState → α} {Q : α → PidState → Prop}
    (hP : Stable Inv Guar still t P) (hQ : ∀ s, P s → Q (f s) s) : Step t P (look f) Q := by
  refine .stmt hP fun s a s' hi hp hf _ ↦ ?_
  obtain ⟨rfl, rfl⟩ := Prod.mk.inj (Option.some.inj hf)
  exact ⟨hi, .refl t s, hQ s hp⟩

theorem step_ASSERT {P : PidState → Prop} {p : PidState → Prop} [DecidablePred p]
    (hP : Stable Inv Guar still t P) : Step t P (ASSERT p) fun _ ↦ P := by
  refine .stmt hP fun s a s' hi hp hf _ ↦ ?_
  obtain ⟨-, hf⟩ := Option.ite_none_right_eq_some.mp hf
  obtain ⟨-, rfl⟩ := Prod.mk.inj (Option.some.inj hf)
  exact ⟨hi, .refl t s, hp⟩

/-- Only the owner of a lock is in it. -/
theorem Inv.holder_ne (h : Inv s) (howner : s.owner = some t) {u : ℕ} (hu : u ≠ t) :
    s.pidLock.holder ≠ some u := by
  rcases (h.held t howner).2 with hk | hk
  · rw [hk]
    intro hc
    cases hc
  · rw [hk]
    intro hc
    exact hu (Option.some.inj hc).symm

/-- The owner assigns the other two fields of the lock. -/
theorem step_modifyLock {f : Thread.Lock → Thread.Lock} (hf : f ⟨holder, 0, nr⟩ = ⟨holder', 0, nr'⟩)
    (hholder : holder' = none ∨ holder' = some t) :
    Step t (Owns t holder nr b) (modifyLock f) fun _ ↦ Owns t holder' nr' b := by
  refine .stmt (stable_owns t holder nr b) fun s a s' hi hp hrun _ ↦ ?_
  obtain ⟨-, rfl⟩ := Prod.mk.inj (Option.some.inj hrun)
  obtain ⟨howner, hlock, hpending⟩ := hp
  have hnew : f s.pidLock = ⟨holder', 0, nr'⟩ := by rw [hlock, hf]
  refine ⟨⟨fun h ↦ ?_, fun u hu ↦ ?_, hi.one, hi.pid, hi.counted, hi.nodup, hi.fresh⟩,
    ⟨fun _ _ ↦ Iff.rfl, fun _ _ ↦ Iff.rfl, fun u hu ↦ ?_, fun u hu h ↦ ?_⟩, howner, hnew, hpending⟩
  · rw [howner] at h
    cases h
  · obtain rfl := Option.some.inj (howner.symm.trans hu)
    dsimp only
    rw [hnew]
    exact ⟨rfl, hholder⟩
  · dsimp only
    rw [hnew]
    refine ⟨fun h ↦ ?_, fun h ↦ absurd h (hi.holder_ne howner hu)⟩
    rcases hholder with hk | hk
    · cases hk.symm.trans h
    · exact absurd (Option.some.inj (hk.symm.trans h)).symm hu
  · exact absurd (Option.some.inj (h.symm.trans howner)) hu

/-- A free semaphore has no owner. -/
theorem Inv.owner_of_value (h : Inv s) (hv : s.pidLock.value = 1) : s.owner = none := by
  cases howner : s.owner with
  | none => rfl
  | some u =>
    have hzero := (h.held u howner).1
    omega

theorem step_semaDown : Step t (Out t b) (semaDown t) fun _ ↦ Owns t none 0 b := by
  refine .stmt (stable_out t b) fun s a s' hi hp hrun _ ↦ ?_
  obtain ⟨hv, hrun⟩ := Option.ite_none_right_eq_some.mp hrun
  obtain ⟨-, rfl⟩ := Prod.mk.inj (Option.some.inj hrun)
  have howner := hi.owner_of_value hv
  have hlock := hi.free howner
  refine ⟨⟨fun h ↦ ?_, fun u hu ↦ ⟨rfl, .inl ?_⟩, hi.one, hi.pid, hi.counted, hi.nodup, hi.fresh⟩,
    ⟨fun _ _ ↦ Iff.rfl, fun u hu ↦ ?_, fun _ _ ↦ Iff.rfl, fun u hu h ↦ ?_⟩, rfl, ?_, hp.2.2⟩
  · cases h
  · exact congrArg Thread.Lock.holder hlock
  · rw [howner]
    exact ⟨fun h ↦ absurd (Option.some.inj h).symm hu, fun h ↦ (by cases h)⟩
  · rw [howner] at h
    cases h
  · dsimp only
    rw [hlock]

theorem step_semaUp : Step t (Owns t none 0 b) semaUp fun _ ↦ Out t b := by
  refine .stmt (stable_owns t none 0 b) fun s a s' hi hp hrun _ ↦ ?_
  obtain ⟨-, hrun⟩ := Option.ite_none_right_eq_some.mp hrun
  obtain ⟨-, rfl⟩ := Prod.mk.inj (Option.some.inj hrun)
  obtain ⟨howner, hlock, hpending⟩ := hp
  have hnew : ({ s.pidLock with value := 1 } : Thread.Lock) = ⟨none, 1, 0⟩ := by rw [hlock]
  refine ⟨⟨fun _ ↦ hnew, fun u hu ↦ ?_, hi.one, hi.pid, hi.counted, hi.nodup, hi.fresh⟩,
    ⟨fun _ _ ↦ Iff.rfl, fun u hu ↦ ?_, fun _ _ ↦ Iff.rfl, fun u hu h ↦ ?_⟩, ?_, ?_, hpending⟩
  · cases hu
  · rw [howner]
    exact ⟨fun h ↦ (by cases h), fun h ↦ absurd (Option.some.inj h).symm hu⟩
  · exact absurd (Option.some.inj (h.symm.trans howner)) hu
  · intro h
    cases h
  · dsimp only
    rw [hlock]
    intro h
    cases h

/-- Counting, with nobody else on the way to read a number. -/
theorem step_increment :
    Step t (Owns t (some t) 1 false) (increment t) fun _ ↦ Owns t (some t) 1 true := by
  refine .bind (step_look (stable_owns t (some t) 1 false) (Q := fun pid s ↦
    Owns t (some t) 1 false s ∧ s.nextPid = pid) fun s hp ↦ ⟨hp, rfl⟩) fun pid ↦ ?_
  refine .stmt (stable_owns_pid t (some t) 1 false pid) fun s a s' hi hp hrun hcross ↦ ?_
  obtain ⟨-, rfl⟩ := Prod.mk.inj (Option.some.inj hrun)
  obtain ⟨⟨howner, hlock, -⟩, rfl⟩ := hp
  have hnone : s.pending = ∅ := by
    by_contra hne
    exact hcross ⟨Nat.succ_ne_self _, hne⟩
  have honly : ∀ u ∈ insert t s.pending, u = t := by
    intro u hu
    rwa [hnone, insert_empty_eq, Finset.mem_singleton] at hu
  have hout : s.counted + 1 ≤ 32767 → ((s.counted + 1 : ℕ) : ℤ) ∉ s.returned := by
    intro hle hmem
    have hold := (hi.counted (by omega) _ hmem).2
    omega
  refine ⟨⟨hi.free, hi.held, fun u hu v hv ↦ (honly u hu).trans (honly v hv).symm, fun hle ↦ ?_,
    fun hle pid hpid ↦ ?_, fun hle ↦ hi.nodup (by dsimp only at hle; omega),
    fun hle u _ ↦ ⟨Nat.succ_pos _, hout hle⟩⟩,
    ⟨fun u hu ↦ Finset.mem_insert.trans (or_iff_right hu), fun _ _ ↦ Iff.rfl, fun _ _ ↦ Iff.rfl,
      fun u hu h ↦ ?_⟩, howner, hlock, iff_of_true (Finset.mem_insert_self ..) rfl⟩
  · dsimp only at hle ⊢
    rw [hi.pid (by omega), toPid]
    push_cast
    omega
  · dsimp only at hle ⊢
    obtain ⟨hpos, hold⟩ := hi.counted (by omega) pid hpid
    refine ⟨hpos, ?_⟩
    push_cast
    omega
  · exact absurd (Option.some.inj (h.symm.trans howner)) hu

/-- The number that is read is the one that was counted. -/
theorem step_readPid : Step t (Out t true) (readPid t) fun _ ↦ Out t false := by
  refine .stmt (stable_out t true) fun s a s' hi hp hrun _ ↦ ?_
  obtain ⟨-, rfl⟩ := Prod.mk.inj (Option.some.inj hrun)
  obtain ⟨howner, hholder, hpending⟩ := hp
  have hpending : t ∈ s.pending := hpending.mpr rfl
  have hnobody : ∀ u, u ∉ s.pending.erase t := by
    intro u hu
    obtain ⟨hne, hu⟩ := Finset.mem_erase.mp hu
    exact hne (hi.one u hu t hpending)
  refine ⟨⟨hi.free, hi.held, fun u hu ↦ absurd hu (hnobody u), hi.pid, fun hle pid hpid ↦ ?_,
    fun hle ↦ ?_, fun _ u hu ↦ absurd hu (hnobody u)⟩,
    ⟨fun u hu ↦ Finset.mem_erase.trans (and_iff_right hu), fun _ _ ↦ Iff.rfl, fun _ _ ↦ Iff.rfl,
      fun _ _ _ ↦ ⟨rfl, rfl, rfl⟩⟩, howner, hholder,
    iff_of_false (Finset.notMem_erase t _) Bool.false_ne_true⟩
  · obtain ⟨hpos, -⟩ := hi.fresh hle t hpending
    rcases List.mem_cons.mp hpid with rfl | hpid
    · rw [hi.pid hle]
      exact ⟨Int.natCast_pos.mpr hpos, le_rfl⟩
    · exact hi.counted hle pid hpid
  · obtain ⟨-, hnew⟩ := hi.fresh hle t hpending
    rw [List.nodup_cons, hi.pid hle]
    exact ⟨hnew, hi.nodup hle⟩

/-! ## The calls -/

theorem step_lockAcquire : Step t (Out t false) (lockAcquire t) fun _ ↦ Owns t (some t) 1 false := by
  refine .bind (step_look (stable_out t false) (Q := fun holder s ↦ holder ≠ some t ∧
    Out t false s) fun s hp ↦ ⟨hp.2.1, hp⟩) fun holder ↦ ?_
  by_cases hne : holder ≠ some t
  · rw [if_pos hne]
    refine Triple.pre (P := Out t false) ?_ fun s _ hp ↦ hp.2
    refine .bind step_semaDown fun _ ↦ .bind (step_modifyLock rfl (.inr rfl)) fun _ ↦ ?_
    exact .bind (step_ASSERT (stable_owns t (some t) 0 false)) fun _ ↦
      step_modifyLock rfl (.inr rfl)
  · intro s _ hp
    exact absurd hp.1 hne

theorem step_lockRelease : Step t (Owns t (some t) 1 true) (lockRelease t) fun _ ↦ Out t true := by
  refine .bind (step_ASSERT (stable_owns t (some t) 1 true)) fun _ ↦ ?_
  refine .bind (step_look (stable_owns t (some t) 1 true) (Q := fun nr s ↦ nr = 1 ∧
    Owns t (some t) 1 true s) fun s hp ↦ ⟨congrArg Thread.Lock.holderRepeatNr hp.2.1, hp⟩)
    fun nr ↦ ?_
  by_cases hnr : 1 < nr
  · intro s _ hp
    exact absurd hp.1 (by omega)
  · rw [if_neg hnr]
    refine Triple.pre (P := Owns t (some t) 1 true) ?_ fun s _ hp ↦ hp.2
    refine .bind (step_ASSERT (stable_owns t (some t) 1 true)) fun _ ↦ ?_
    exact .bind (step_modifyLock rfl (.inl rfl)) fun _ ↦ .bind (step_modifyLock rfl (.inl rfl))
      fun _ ↦ step_semaUp

theorem step_allocatePid : Step t (Out t false) (allocatePid t) fun _ ↦ Out t false :=
  .bind step_lockAcquire fun _ ↦ .bind step_increment fun _ ↦ .bind step_lockRelease fun _ ↦
    step_readPid

theorem step_calls {q : Prog PidState PUnit} (h : Calls t q) :
    Step t (Out t false) q fun _ ↦ Out t false := by
  cases h with
  | initThread => exact .bind step_allocatePid fun _ ↦ .ret fun _ _ h ↦ h
  | fork => exact .bind step_allocatePid fun _ ↦ .ret fun _ _ h ↦ h

end Statements

/-! ## Runs -/

theorem inv_init : Inv PidState.init where
  free _ := rfl
  held _ h := by cases h
  one _ h := absurd h (Finset.notMem_empty _)
  pid _ := rfl
  counted _ _ h := absurd h List.not_mem_nil
  nodup _ := List.nodup_nil
  fresh _ _ h := absurd h (Finset.notMem_empty _)

/-- **Numbers are unique in a run without crossing.** -/
theorem unique_of_not_crosses {c : Interleave.Threads PidState}
    (h : ReflTransGen (StepWhen (fun s s' ↦ ¬Crosses s s') Calls still)
      ⟨PidState.init, fun _ ↦ .ret PUnit.unit⟩ c) : c.shared.Unique := by
  have hgood : Good Inv Guar still (fun s s' ↦ ¬Crosses s s') (fun t ↦ Out t false)
      ⟨PidState.init, fun _ ↦ .ret PUnit.unit⟩ :=
    Good.start inv_init fun t ↦ ⟨fun h ↦ (by cases h), fun h ↦ (by cases h), fun h ↦ (by cases h), fun h ↦ (by cases h)⟩
  have hend := hgood.run (fun t ↦ stable_out t false) (fun t q hq ↦ step_calls hq)
    (fun _ _ _ hE ↦ hE.elim) h
  intro hle
  exact ⟨fun pid hpid ↦ (hend.1.counted hle pid hpid).1, hend.1.nodup hle⟩

/-- Two threads, each at the start of a call. -/
def twoCalls : Interleave.Threads PidState :=
  ⟨PidState.init, Function.update (Function.update (fun _ ↦ .ret PUnit.unit) 0
    (allocatePid 0 >>= fun _ ↦ pure PUnit.unit)) 1 (forkPid 1 >>= fun _ ↦ pure PUnit.unit)⟩

/-- One call after the other: 1 and 2 are returned. -/
theorem unique_two_calls : ∃ c : Interleave.Threads PidState,
    ReflTransGen (StepWhen (fun s s' ↦ ¬Crosses s s') Calls still)
      ⟨PidState.init, fun _ ↦ .ret PUnit.unit⟩ c ∧ c.shared.Unique ∧ c.shared.returned = [2, 1] := by
  have hcalls : ReflTransGen (StepWhen (fun s s' ↦ ¬Crosses s s') Calls still)
      ⟨PidState.init, fun _ ↦ .ret PUnit.unit⟩ twoCalls :=
    .tail (.tail .refl ⟨.call rfl .initThread, fun h ↦ h.1 rfl⟩)
      ⟨.call rfl .fork, fun h ↦ h.1 rfl⟩
  have hturns : ((twoCalls.turnsWhen (fun s s' ↦ ¬Crosses s s')
      (List.replicate 14 0 ++ List.replicate 14 1)).map fun c ↦ c.shared.returned) =
      some [2, 1] := by
    decide +kernel
  obtain ⟨c, hc, hret⟩ := Option.map_eq_some_iff.mp hturns
  have hrun := hcalls.trans (reaches_of_turnsWhen hc)
  exact ⟨c, hrun, unique_of_not_crosses hrun, hret⟩

/-- The second thread counts its call before the first one reads its number. Both get 2. -/
theorem not_unique_of_crosses :
    ¬∀ c : Interleave.Threads PidState, ReflTransGen (Interleave.Step Calls still)
      ⟨PidState.init, fun _ ↦ .ret PUnit.unit⟩ c → c.shared.Unique := by
  intro hall
  have hcalls : ReflTransGen (Interleave.Step Calls still)
      ⟨PidState.init, fun _ ↦ .ret PUnit.unit⟩ twoCalls :=
    .tail (.tail .refl (.call rfl .initThread)) (.call rfl .fork)
  have hturns : ((twoCalls.turns (List.replicate 13 0 ++ List.replicate 14 1 ++ [0])).map
      fun c ↦ (c.shared.returned, c.shared.counted)) = some ([2, 2], 2) := by
    decide +kernel
  obtain ⟨c, hc, hret⟩ := Option.map_eq_some_iff.mp hturns
  obtain ⟨hlist, hcount⟩ := Prod.mk.inj hret
  have hunique := (hall c (hcalls.trans (reaches_of_turns hc)) (by rw [hcount]; decide)).2
  rw [hlist] at hunique
  exact absurd hunique (by decide)

end GlowOS.Pid
