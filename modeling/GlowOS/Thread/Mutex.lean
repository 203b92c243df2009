import Mathlib
import GlowOS.Thread.Lock

/-!
# Mutual exclusion

Threads that call `lock_release` only for an acquisition of their own are properly nested. Then at
most one thread is inside: the owner, from where it took the semaphore to where it gives it back.
`Pc.Facts` says for each control point of the owner what the fields of the lock are. While nobody
is inside the lock is as `lock_init` left it.

`holder_repeat_nr` has 32 bits. When the owner acquires the lock for the 2³²-th time the count returns
to zero, which the owner's next `lock_release` takes for an error.
-/

namespace GlowOS.Thread

open Program Links

/-! ## The owner -/

/-- The thread has the semaphore at this control point. -/
def Pc.inner : Pc → Bool
  | .setHolder | .assertRepeat | .setRepeat | .incRepeat | .release | .testRepeat | .decRepeat
  | .assertOne | .clearHolder | .clearRepeat | .up => true
  | _ => false

/-- The thread is between its outermost `lock_acquire` and the matching `lock_release`. -/
def LockSys.Inside (σ : LockSys) (t : ℕ) : Prop := 0 < σ.depth t ∨ (σ.pc t).inner = true

/-- The fields of the lock while the thread `t` is inside at this control point. -/
def Pc.Facts (k : Lock) (t d : ℕ) : Pc → Prop
  | .out => k.holder = some t ∧ k.holderRepeatNr = d ∧ 0 < d
  | .acquire | .incRepeat => k.holder = some t ∧ k.holderRepeatNr = d ∧ 0 < d ∧ d + 1 < 2 ^ 32
  | .setHolder => k.holder = none ∧ k.holderRepeatNr = 0 ∧ d = 0
  | .assertRepeat | .setRepeat => k.holder = some t ∧ k.holderRepeatNr = 0 ∧ d = 0
  | .release | .testRepeat => k.holder = some t ∧ k.holderRepeatNr = d + 1
  | .decRepeat => k.holder = some t ∧ k.holderRepeatNr = d + 1 ∧ 0 < d
  | .assertOne | .clearHolder => k.holder = some t ∧ k.holderRepeatNr = 1 ∧ d = 0
  | .clearRepeat => k.holder = none ∧ k.holderRepeatNr = 1 ∧ d = 0
  | .up => k.holder = none ∧ k.holderRepeatNr = 0 ∧ d = 0
  | .down | .downWait _ | .idleBlock | .idleHalt => False

/-- The thread `o` is inside, or nobody is. -/
structure OwnInv (l : ℕ) (σ : LockSys) (o : Option ℕ) : Prop where
  inside : ∀ t, σ.Inside t ↔ o = some t
  free : o = none → σ.sys.lock l = ⟨none, 1, 0⟩
  owned : ∀ t, o = some t →
    (σ.sys.lock l).value = 0 ∧ (σ.pc t).Facts (σ.sys.lock l) t (σ.depth t)

/-- The steps of threads that call `lock_release` only inside. -/
def ProperStep (l : ℕ) (σ σ' : LockSys) : Prop :=
  ∃ e, LockStep l σ e σ' ∧ (e = .release → 0 < σ.depth σ.sys.running)

/-- The proper steps that keep the nesting below 2³². -/
def NestedStep (l : ℕ) (σ σ' : LockSys) : Prop :=
  ∃ e, LockStep l σ e σ' ∧ (e = .release → 0 < σ.depth σ.sys.running) ∧
    (e = .acquire → σ.depth σ.sys.running + 1 < 2 ^ 32)

section Owner

variable {l t : ℕ} {σ σ' : LockSys} {s : Threads} {qs : Queue → List ℕ} {o : Option ℕ}

theorem LockInit.ownInv (h : LockInit l σ) : OwnInv l σ none := by
  refine ⟨fun t ↦ ?_, fun _ ↦ h.lock, nofun⟩
  have hpc : (σ.pc t).inner = false := by
    by_cases ht : t = σ.sys.idleThread
    · rw [ht]
      rcases h.idle with hi | hi <;> rw [hi] <;> rfl
    · rw [h.out t ht]
      rfl
  simp [LockSys.Inside, h.depth, hpc]

namespace OwnInv

/-- The state after a step of the thread `t`. -/
theorem inside_update {p : Pc} {d u : ℕ} :
    LockSys.Inside ⟨s, Function.update σ.pc t p, Function.update σ.depth t d⟩ u ↔
      (u = t ∧ (0 < d ∨ p.inner = true)) ∨ (u ≠ t ∧ σ.Inside u) := by
  by_cases hu : u = t
  · simp [LockSys.Inside, hu]
  · simp [LockSys.Inside, hu]

/-- The owner goes on. -/
theorem own (h : OwnInv l σ o) (ht : o = some t) {p : Pc} {d : ℕ}
    (hin : 0 < d ∨ p.inner = true) (hv : (s.lock l).value = 0) (hf : p.Facts (s.lock l) t d) :
    OwnInv l ⟨s, Function.update σ.pc t p, Function.update σ.depth t d⟩ o := by
  refine ⟨fun u ↦ ?_, fun hn ↦ by simp [ht] at hn, fun u hu ↦ ?_⟩
  · rw [inside_update, h.inside u, ht, Option.some.injEq]
    by_cases hut : u = t
    · simp [hut, hin]
    · simp [hut]
  · obtain rfl : t = u := Option.some.inj (ht.symm.trans hu)
    simpa using ⟨hv, hf⟩

/-- A thread that is not inside goes on outside. -/
theorem other (h : OwnInv l σ o) (ht : o ≠ some t) {p : Pc} {d : ℕ}
    (hout : d = 0 ∧ p.inner = false) (hlock : s.lock l = σ.sys.lock l) :
    OwnInv l ⟨s, Function.update σ.pc t p, Function.update σ.depth t d⟩ o := by
  refine ⟨fun u ↦ ?_, fun hn ↦ hlock.trans (h.free hn), fun u hu ↦ ?_⟩
  · rw [inside_update, h.inside u]
    by_cases hut : u = t
    · simp [hut, hout, ht]
    · simp [hut]
  · have hut : u ≠ t := fun hut ↦ ht (hut ▸ hu)
    simpa [hut, hlock] using h.owned u hu

/-- A thread enters. -/
theorem enter (h : OwnInv l σ none) {p : Pc} {d : ℕ} (hin : p.inner = true)
    (hv : (s.lock l).value = 0) (hf : p.Facts (s.lock l) t d) :
    OwnInv l ⟨s, Function.update σ.pc t p, Function.update σ.depth t d⟩ (some t) := by
  refine ⟨fun u ↦ ?_, nofun, fun u hu ↦ ?_⟩
  · rw [inside_update, h.inside u, Option.some.injEq]
    by_cases hut : u = t
    · simp [hut, hin]
    · simp [hut, Ne.symm hut]
  · obtain rfl := Option.some.inj hu
    simpa using ⟨hv, hf⟩

/-- The owner leaves. -/
theorem leave (h : OwnInv l σ (some t)) {p : Pc} {d : ℕ} (hout : d = 0 ∧ p.inner = false)
    (hlock : s.lock l = ⟨none, 1, 0⟩) :
    OwnInv l ⟨s, Function.update σ.pc t p, Function.update σ.depth t d⟩ none := by
  refine ⟨fun u ↦ ?_, fun _ ↦ hlock, nofun⟩
  rw [inside_update, h.inside u, Option.some.injEq]
  by_cases hut : u = t
  · simp [hut, hout]
  · simp [hut, Ne.symm hut]

/-- A thread at an inner control point is the owner. -/
theorem eq_of_inner (h : OwnInv l σ o) (hp : (σ.pc t).inner = true) : o = some t :=
  (h.inside t).mp (Or.inr hp)

theorem depth_eq_zero (h : OwnInv l σ o) (ht : o ≠ some t) : σ.depth t = 0 := by
  by_contra hd
  exact ht ((h.inside t).mp (Or.inl (Nat.pos_of_ne_zero hd)))

/-- The owner is the holder, except for a moment. -/
theorem holder_ne (h : OwnInv l σ o) (ht : o ≠ some t) : (σ.sys.lock l).holder ≠ some t := by
  intro hh
  cases o with
  | none =>
    rw [h.free rfl] at hh
    cases hh
  | some u =>
    have hf := (h.owned u rfl).2
    have hut : some u ≠ some t := ht
    cases hp : σ.pc u <;> rw [hp] at hf <;> simp only [Pc.Facts] at hf
    all_goals
      rw [hf.1] at hh
      first
        | exact hut hh
        | cases hh

/-- **The step of a statement.** Outside, a thread takes a semaphore that is free or waits; inside, it
follows `Pc.Facts`. -/
theorem run (h : OwnInv l σ o) (hw : WaitInv l σ qs) {pc : Pc}
    (hpc : σ.pc σ.sys.running ≠ .out)
    (hret : Returns ((σ.pc σ.sys.running).exec l) σ.sys pc s) :
    ∃ o', OwnInv l ⟨s, Function.update σ.pc σ.sys.running pc,
      Function.update σ.depth σ.sys.running
        (σ.depth σ.sys.running + if (σ.pc σ.sys.running).acquires then 1 else 0)⟩ o' := by
  -- a round of `sema_down` is made by a thread that is not inside
  have hround : ∀ {b old}, (∀ k t d, ¬(σ.pc σ.sys.running).Facts k t d) →
      (σ.pc σ.sys.running).acquires = false → σ.sys.running ≠ σ.sys.idleThread →
      Returns (downRound l old) (σ.sys.setIntr b) pc s →
      ∃ o', OwnInv l ⟨s, Function.update σ.pc σ.sys.running pc,
        Function.update σ.depth σ.sys.running
          (σ.depth σ.sys.running + if (σ.pc σ.sys.running).acquires then 1 else 0)⟩ o' := by
    intro b old hno hacq hidle hret
    have ho : o ≠ some σ.sys.running := fun ho ↦ hno _ _ _ (h.owned _ ho).2
    have hd := h.depth_eq_zero ho
    rw [hacq, hd]
    obtain hv | hv : (σ.sys.lock l).value = 0 ∨ (σ.sys.lock l).value = 1 := by
      have := hw.value_le
      omega
    · obtain ⟨s', qs', hblock, -, hframe, -⟩ := (hw.ok.setIntr b).semaDownRound_blocks hidle hv
      have hdown : Returns (downRound l old) (σ.sys.setIntr b) (.downWait old) s' :=
        returns_bind.mpr ⟨_, _, hblock, returns_pure.mpr ⟨rfl, rfl⟩⟩
      obtain ⟨rfl, rfl⟩ := hret.unique hdown
      exact ⟨o, h.other ho ⟨rfl, rfl⟩ (congrFun hframe.lock l)⟩
    · have hdown : Returns (downRound l old) (σ.sys.setIntr b) .setHolder
          (((σ.sys.setIntr b).setLock l { σ.sys.lock l with value := 0 }).setIntr old) :=
        returns_bind.mpr ⟨_, _, returns_semaDownRound_takes hv,
          returns_bind.mpr ⟨PUnit.unit, _, rfl, returns_pure.mpr ⟨rfl, rfl⟩⟩⟩
      obtain ⟨rfl, rfl⟩ := hret.unique hdown
      obtain rfl : o = none := by
        cases o with
        | none => rfl
        | some u =>
          have := (h.owned u rfl).1
          omega
      refine ⟨_, h.enter rfl (by simp) ?_⟩
      simp [Pc.Facts, h.free rfl]
  -- at the other control points the statement says what it does to the lock
  have hinner : (σ.pc σ.sys.running).inner = true → o = some σ.sys.running ∧
      (σ.sys.lock l).value = 0 ∧ (σ.pc σ.sys.running).Facts (σ.sys.lock l) σ.sys.running
        (σ.depth σ.sys.running) := fun hp ↦ ⟨h.eq_of_inner hp, h.owned _ (h.eq_of_inner hp)⟩
  cases hp : σ.pc σ.sys.running with
  | out => exact absurd hp hpc
  | acquire =>
    rw [hp] at hret
    obtain ⟨rfl, rfl⟩ := returns_pure.mp hret
    by_cases ho : o = some σ.sys.running
    · obtain ⟨hv, hf⟩ := h.owned _ ho
      rw [hp] at hf
      rw [if_neg (by simp [hf.1])]
      exact ⟨o, h.own ho (Or.inr rfl) hv hf⟩
    · rw [if_pos (h.holder_ne ho)]
      exact ⟨o, h.other ho ⟨by simp [h.depth_eq_zero ho, Pc.acquires], rfl⟩ rfl⟩
  | down =>
    rw [hp] at hret
    obtain ⟨b, t, h1, hret⟩ := returns_bind.mp hret
    obtain ⟨rfl, rfl⟩ := returns_intrDisable.mp h1
    rw [← hp]
    exact hround (by simp [hp, Pc.Facts]) (by rw [hp]; rfl)
      (hw.running_ne_idle (by simp [hp]) (by simp [hp])) hret
  | downWait old =>
    rw [hp] at hret
    rw [← hp]
    exact hround (by simp [hp, Pc.Facts]) (by rw [hp]; rfl)
      (hw.running_ne_idle (by simp [hp]) (by simp [hp])) hret
  | setHolder =>
    obtain ⟨ho, hv, hf⟩ := hinner (by rw [hp]; rfl)
    rw [hp] at hret hf
    rw [Pc.exec, returns_get_bind] at hret
    obtain ⟨rfl, rfl⟩ := returns_modifyLock.mp hret
    refine ⟨o, h.own ho (Or.inr rfl) (by simpa using hv) ?_⟩
    simpa [Pc.Facts, Pc.acquires] using hf.2
  | assertRepeat =>
    obtain ⟨ho, hv, hf⟩ := hinner (by rw [hp]; rfl)
    rw [hp] at hret hf
    rw [Pc.exec, returns_get_bind, returns_check_bind, returns_pure] at hret
    obtain ⟨-, rfl, rfl⟩ := hret
    exact ⟨o, h.own ho (Or.inr rfl) hv hf⟩
  | setRepeat =>
    obtain ⟨ho, hv, hf⟩ := hinner (by rw [hp]; rfl)
    rw [hp] at hret hf
    obtain ⟨rfl, rfl⟩ := returns_modifyLock.mp hret
    refine ⟨o, h.own ho (Or.inl (by simp [Pc.acquires])) (by simpa using hv) ?_⟩
    simp [Pc.Facts, Pc.acquires, hf.1, hf.2.2]
  | incRepeat =>
    obtain ⟨ho, hv, hf⟩ := hinner (by rw [hp]; rfl)
    rw [hp] at hret hf
    obtain ⟨rfl, rfl⟩ := returns_modifyLock.mp hret
    refine ⟨o, h.own ho (Or.inl (by simp [Pc.acquires])) (by simpa using hv)
      ⟨by simpa using hf.1, ?_, by simp [Pc.acquires]⟩⟩
    rw [Threads.setLock_lock, Function.update_self, hf.2.1]
    exact Nat.mod_eq_of_lt hf.2.2.2
  | release =>
    obtain ⟨ho, hv, hf⟩ := hinner (by rw [hp]; rfl)
    rw [hp] at hret hf
    rw [Pc.exec, returns_get_bind, returns_check_bind, returns_pure] at hret
    obtain ⟨-, rfl, rfl⟩ := hret
    exact ⟨o, h.own ho (Or.inr rfl) hv hf⟩
  | testRepeat =>
    obtain ⟨ho, hv, hf⟩ := hinner (by rw [hp]; rfl)
    rw [hp] at hret hf
    obtain ⟨rfl, rfl⟩ := returns_pure.mp hret
    by_cases hd : σ.depth σ.sys.running = 0
    · rw [if_neg (by rw [hf.2, hd]; decide)]
      exact ⟨o, h.own ho (Or.inr rfl) hv ⟨hf.1, by rw [hf.2, hd], hd⟩⟩
    · rw [if_pos (by rw [hf.2]; omega)]
      exact ⟨o, h.own ho (Or.inr rfl) hv ⟨hf.1, hf.2, Nat.pos_of_ne_zero hd⟩⟩
  | decRepeat =>
    obtain ⟨ho, hv, hf⟩ := hinner (by rw [hp]; rfl)
    rw [hp] at hret hf
    obtain ⟨rfl, rfl⟩ := returns_modifyLock.mp hret
    refine ⟨o, h.own ho (Or.inl hf.2.2) (by simpa using hv) ?_⟩
    simp [Pc.Facts, Pc.acquires, hf.1, hf.2.1, hf.2.2]
  | assertOne =>
    obtain ⟨ho, hv, hf⟩ := hinner (by rw [hp]; rfl)
    rw [hp] at hret hf
    rw [Pc.exec, returns_get_bind, returns_check_bind, returns_pure] at hret
    obtain ⟨-, rfl, rfl⟩ := hret
    exact ⟨o, h.own ho (Or.inr rfl) hv hf⟩
  | clearHolder =>
    obtain ⟨ho, hv, hf⟩ := hinner (by rw [hp]; rfl)
    rw [hp] at hret hf
    obtain ⟨rfl, rfl⟩ := returns_modifyLock.mp hret
    refine ⟨o, h.own ho (Or.inr rfl) (by simpa using hv) ?_⟩
    simp [Pc.Facts, Pc.acquires, hf.2.1, hf.2.2]
  | clearRepeat =>
    obtain ⟨ho, hv, hf⟩ := hinner (by rw [hp]; rfl)
    rw [hp] at hret hf
    obtain ⟨rfl, rfl⟩ := returns_modifyLock.mp hret
    refine ⟨o, h.own ho (Or.inr rfl) (by simpa using hv) ?_⟩
    simp [Pc.Facts, Pc.acquires, hf.1, hf.2.2]
  | up =>
    obtain ⟨rfl, hv, hf⟩ := hinner (by rw [hp]; rfl)
    rw [hp] at hret hf
    obtain ⟨_, t, h1, hret⟩ := returns_bind.mp hret
    obtain ⟨rfl, rfl⟩ := returns_pure.mp hret
    refine ⟨none, h.leave ⟨by simp [hf.2.2, Pc.acquires], rfl⟩ ?_⟩
    cases hq : qs (.waiters l) with
    | nil =>
      obtain ⟨-, rfl⟩ := h1.unique (hw.ok.returns_semaUp_nil hv hq)
      simp [hf.1, hf.2.1]
    | cons u us =>
      obtain ⟨-, rfl⟩ := h1.unique (hw.ok.semaUp_cons hv hq).1
      simp [Threads.upped, hf.1, hf.2.1]
  | idleBlock =>
    have ho : o ≠ some σ.sys.running := by
      intro ho
      have hf := (h.owned _ ho).2
      rwa [hp] at hf
    rw [hp] at hret
    obtain ⟨_, t, h1, hret⟩ := returns_bind.mp hret
    obtain ⟨rfl, rfl⟩ := returns_pure.mp hret
    obtain ⟨s', qs', hret', -, hframe, -⟩ :=
      (hw.ok.blocking (Or.inl rfl)).threadBlock (Or.inl rfl)
    obtain ⟨-, rfl⟩ := h1.unique hret'
    refine ⟨o, h.other ho ⟨by simp [h.depth_eq_zero ho, Pc.acquires], rfl⟩ ?_⟩
    exact congrFun hframe.lock l
  | idleHalt =>
    have ho : o ≠ some σ.sys.running := by
      intro ho
      have hf := (h.owned _ ho).2
      rwa [hp] at hf
    rw [hp] at hret
    obtain ⟨rfl, rfl⟩ := returns_pure.mp hret
    exact ⟨o, h.other ho ⟨by simp [h.depth_eq_zero ho, Pc.acquires], rfl⟩ rfl⟩

/-- **The step**: a properly nested step keeps the owner, or changes it. -/
theorem step (h : OwnInv l σ o) (hw : WaitInv l σ qs) (hstep : NestedStep l σ σ') :
    ∃ o', OwnInv l σ' o' := by
  obtain ⟨e, hstep, hrel, hacq⟩ := hstep
  have hdepth : ∀ d : ℕ → ℕ, d = Function.update d σ.sys.running (d σ.sys.running) :=
    fun d ↦ (Function.update_eq_self ..).symm
  cases hstep with
  | @tick s hintr hret =>
    obtain ⟨s', qs', hret', -, hframe, -⟩ := hw.ok.intrTimerHandler
    obtain ⟨-, rfl⟩ := hret.unique hret'
    refine ⟨o, h.inside, ?_, ?_⟩
    · rw [hframe.lock]
      exact h.free
    · rw [hframe.lock]
      exact h.owned
  | run hpc hret => exact h.run hw hpc hret
  | acquire hpc =>
    rw [hdepth σ.depth]
    by_cases ho : o = some σ.sys.running
    · obtain ⟨hv, hf⟩ := h.owned _ ho
      rw [hpc] at hf
      exact ⟨o, h.own ho (Or.inl hf.2.2) hv ⟨hf.1, hf.2.1, hf.2.2, hacq rfl⟩⟩
    · exact ⟨o, h.other ho ⟨h.depth_eq_zero ho, rfl⟩ rfl⟩
  | release hpc =>
    have hd := hrel rfl
    have ho := (h.inside _).mp (Or.inl hd)
    obtain ⟨hv, hf⟩ := h.owned _ ho
    rw [hpc] at hf
    refine ⟨o, h.own ho (Or.inr rfl) hv ⟨hf.1, ?_⟩⟩
    have := hf.2.1
    omega
  | setIntr b hpc => exact ⟨o, h.inside, h.free, h.owned⟩

end OwnInv

/-! ## Mutual exclusion -/

/-- What a lock guarantees. -/
structure LockOk (l : ℕ) (σ : LockSys) : Prop where
  /-- At most one thread is inside. -/
  mutex : ∀ t u, σ.Inside t → σ.Inside u → t = u
  /-- While no statement of the two functions is in progress the lock knows its holder and how often
  it was acquired. -/
  holder : ∀ t, 0 < σ.depth t → σ.pc t = .out →
    (σ.sys.lock l).holder = some t ∧ (σ.sys.lock l).holderRepeatNr = σ.depth t
  /-- No assertion fails. -/
  returns : ∃ p s, Returns ((σ.pc σ.sys.running).exec l) σ.sys p s

/-- The statement at the control point of the running thread returns. -/
theorem OwnInv.returns (h : OwnInv l σ o) (hw : WaitInv l σ qs) :
    ∃ p s, Returns ((σ.pc σ.sys.running).exec l) σ.sys p s := by
  have hround : ∀ b old, σ.sys.running ≠ σ.sys.idleThread →
      ∃ p s, Returns (downRound l old) (σ.sys.setIntr b) p s := by
    intro b old hidle
    obtain hv | hv : (σ.sys.lock l).value = 0 ∨ (σ.sys.lock l).value = 1 := by
      have := hw.value_le
      omega
    · obtain ⟨s', -, hblock, -⟩ := (hw.ok.setIntr b).semaDownRound_blocks hidle hv
      exact ⟨_, _, returns_bind.mpr ⟨_, _, hblock, returns_pure.mpr ⟨rfl, rfl⟩⟩⟩
    · exact ⟨_, _, returns_bind.mpr ⟨_, _, returns_semaDownRound_takes hv,
        returns_bind.mpr ⟨PUnit.unit, _, rfl, returns_pure.mpr ⟨rfl, rfl⟩⟩⟩⟩
  have hfacts : (σ.pc σ.sys.running).inner = true → (σ.sys.lock l).value = 0 ∧
      (σ.pc σ.sys.running).Facts (σ.sys.lock l) σ.sys.running (σ.depth σ.sys.running) :=
    fun hp ↦ h.owned _ (h.eq_of_inner hp)
  cases hp : σ.pc σ.sys.running with
  | out => exact ⟨_, _, returns_pure.mpr ⟨rfl, rfl⟩⟩
  | acquire => exact ⟨_, _, returns_pure.mpr ⟨rfl, rfl⟩⟩
  | testRepeat => exact ⟨_, _, returns_pure.mpr ⟨rfl, rfl⟩⟩
  | setHolder => exact ⟨_, _, (returns_get_bind.mpr (returns_modifyLock.mpr ⟨rfl, rfl⟩))⟩
  | setRepeat => exact ⟨_, _, returns_modifyLock.mpr ⟨rfl, rfl⟩⟩
  | incRepeat => exact ⟨_, _, returns_modifyLock.mpr ⟨rfl, rfl⟩⟩
  | decRepeat => exact ⟨_, _, returns_modifyLock.mpr ⟨rfl, rfl⟩⟩
  | clearHolder => exact ⟨_, _, returns_modifyLock.mpr ⟨rfl, rfl⟩⟩
  | clearRepeat => exact ⟨_, _, returns_modifyLock.mpr ⟨rfl, rfl⟩⟩
  | idleHalt => exact ⟨_, _, returns_pure.mpr ⟨rfl, rfl⟩⟩
  | assertRepeat =>
    obtain ⟨-, hf⟩ := hfacts (by rw [hp]; rfl)
    rw [hp] at hf
    exact ⟨_, _, returns_get_bind.mpr (returns_check_bind.mpr
      ⟨hf.2.1, returns_pure.mpr ⟨rfl, rfl⟩⟩)⟩
  | release =>
    obtain ⟨-, hf⟩ := hfacts (by rw [hp]; rfl)
    rw [hp] at hf
    exact ⟨_, _, returns_get_bind.mpr (returns_check_bind.mpr
      ⟨hf.1, returns_pure.mpr ⟨rfl, rfl⟩⟩)⟩
  | assertOne =>
    obtain ⟨-, hf⟩ := hfacts (by rw [hp]; rfl)
    rw [hp] at hf
    exact ⟨_, _, returns_get_bind.mpr (returns_check_bind.mpr
      ⟨hf.2.1, returns_pure.mpr ⟨rfl, rfl⟩⟩)⟩
  | up =>
    obtain ⟨hv, -⟩ := hfacts (by rw [hp]; rfl)
    cases hq : qs (.waiters l) with
    | nil =>
      exact ⟨_, _, returns_bind.mpr ⟨_, _, hw.ok.returns_semaUp_nil hv hq,
        returns_pure.mpr ⟨rfl, rfl⟩⟩⟩
    | cons u us =>
      exact ⟨_, _, returns_bind.mpr ⟨_, _, (hw.ok.semaUp_cons hv hq).1,
        returns_pure.mpr ⟨rfl, rfl⟩⟩⟩
  | down =>
    obtain ⟨p, s, hret⟩ := hround false σ.sys.intr
      (hw.running_ne_idle (by simp [hp]) (by simp [hp]))
    exact ⟨p, s, returns_bind.mpr ⟨_, _, returns_intrDisable.mpr ⟨rfl, rfl⟩, hret⟩⟩
  | downWait old =>
    exact hround σ.sys.intr old (hw.running_ne_idle (by simp [hp]) (by simp [hp]))
  | idleBlock =>
    obtain ⟨s, -, hret, -⟩ := (hw.ok.blocking (Or.inl rfl)).threadBlock (Or.inl rfl)
    exact ⟨_, _, returns_bind.mpr ⟨_, _, hret, returns_pure.mpr ⟨rfl, rfl⟩⟩⟩

theorem OwnInv.lockOk (h : OwnInv l σ o) (hw : WaitInv l σ qs) : LockOk l σ where
  mutex t u ht hu := Option.some.inj (((h.inside t).mp ht).symm.trans ((h.inside u).mp hu))
  holder t hd hpc := by
    have hf := (h.owned t ((h.inside t).mp (Or.inl hd))).2
    rw [hpc] at hf
    exact ⟨hf.1, hf.2.1⟩
  returns := h.returns hw

/-- The running thread, its control point and its nesting. -/
structure LockSys.At (σ : LockSys) (s : Threads) (p : Pc) (d : ℕ) : Prop where
  sys : σ.sys = s
  pc : σ.pc s.running = p
  depth : σ.depth s.running = d

/-- The running thread executes a statement and stays on the processor. -/
theorem LockSys.At.run {p : Pc} {d : ℕ} (h : σ.At s p d) (p' : Pc) (s' : Threads) (hne : p ≠ .out)
    (hrun : s'.running = s.running) (hret : Returns (p.exec l) s p' s') :
    ∃ σ', ProperStep l σ σ' ∧ σ'.At s' p' (d + if p.acquires then 1 else 0) := by
  obtain ⟨rfl, rfl, rfl⟩ := h
  refine ⟨_, ⟨.run, .run hne hret, nofun⟩, rfl, ?_, ?_⟩
  · rw [hrun]
    exact Function.update_self ..
  · rw [hrun]
    exact Function.update_self ..

/-- The running thread calls `lock_acquire`. -/
theorem LockSys.At.acquire {d : ℕ} (h : σ.At s .out d) :
    ∃ σ', ProperStep l σ σ' ∧ σ'.At s .acquire d := by
  obtain ⟨rfl, hpc, rfl⟩ := h
  exact ⟨_, ⟨.acquire, .acquire hpc, nofun⟩, rfl, Function.update_self .., rfl⟩

/-- A thread acquires a lock that is free. -/
theorem LockSys.At.first (h : σ.At s .out 0) (hlock : s.lock l = ⟨none, 1, 0⟩) :
    ∃ σ' s', Relation.ReflTransGen (ProperStep l) σ σ' ∧ σ'.At s' .out 1 ∧
      s'.lock l = ⟨some s'.running, 0, 1⟩ := by
  obtain ⟨σ₁, h1, a1⟩ := h.acquire (l := l)
  obtain ⟨σ₂, h2, a2⟩ := a1.run (l := l) .down s (by decide) rfl
    (returns_pure.mpr ⟨by simp [hlock], rfl⟩)
  let s₃ := ((s.setIntr false).setLock l { s.lock l with value := 0 }).setIntr s.intr
  have hdown : Returns (Pc.exec l .down) s .setHolder s₃ := by
    have htake : Returns (semaDownRound l) (s.setIntr false) true _ :=
      returns_semaDownRound_takes (by simp [hlock])
    exact returns_bind.mpr ⟨_, _, returns_intrDisable.mpr ⟨rfl, rfl⟩, returns_bind.mpr ⟨_, _, htake,
      returns_bind.mpr ⟨PUnit.unit, _, rfl, returns_pure.mpr ⟨rfl, rfl⟩⟩⟩⟩
  obtain ⟨σ₃, h3, a3⟩ := a2.run .setHolder s₃ (by decide) rfl hdown
  have hlock₃ : s₃.lock l = ⟨none, 0, 0⟩ := by simp [s₃, hlock]
  let s₄ := s₃.setLock l ⟨some s₃.running, 0, 0⟩
  obtain ⟨σ₄, h4, a4⟩ := a3.run (l := l) .assertRepeat s₄ (by decide) rfl
    (returns_get_bind.mpr (returns_modifyLock.mpr ⟨rfl, by rw [hlock₃]⟩))
  have hlock₄ : s₄.lock l = ⟨some s₃.running, 0, 0⟩ := by simp [s₄]
  obtain ⟨σ₅, h5, a5⟩ := a4.run (l := l) .setRepeat s₄ (by decide) rfl
    (returns_get_bind.mpr (returns_check_bind.mpr ⟨by rw [hlock₄], returns_pure.mpr ⟨rfl, rfl⟩⟩))
  obtain ⟨σ₆, h6, a6⟩ := a5.run (l := l) .out (s₄.setLock l ⟨some s₃.running, 0, 1⟩) (by decide) rfl (returns_modifyLock.mpr ⟨rfl, by rw [hlock₄]⟩)
  exact ⟨σ₆, _, (((((Relation.ReflTransGen.single h1).tail h2).tail h3).tail h4).tail h5).tail h6,
    a6, by simp [s₄, s₃]⟩

/-- The holder acquires the lock once more. -/
theorem LockSys.At.again {d : ℕ} (h : σ.At s .out d)
    (hlock : s.lock l = ⟨some s.running, 0, d % 2 ^ 32⟩) :
    ∃ σ' s', Relation.ReflTransGen (ProperStep l) σ σ' ∧ σ'.At s' .out (d + 1) ∧
      s'.lock l = ⟨some s'.running, 0, (d + 1) % 2 ^ 32⟩ := by
  obtain ⟨σ₁, h1, a1⟩ := h.acquire (l := l)
  obtain ⟨σ₂, h2, a2⟩ := a1.run (l := l) .incRepeat s (by decide) rfl
    (returns_pure.mpr ⟨by simp [hlock], rfl⟩)
  have hnr : (d % 2 ^ 32 + 1) % 2 ^ 32 = (d + 1) % 2 ^ 32 := Nat.mod_add_mod d (2 ^ 32) 1
  obtain ⟨σ₃, h3, a3⟩ := a2.run (l := l) .out
    (s.setLock l ⟨some s.running, 0, (d + 1) % 2 ^ 32⟩) (by decide) rfl (returns_modifyLock.mpr ⟨rfl, by rw [hlock, hnr]⟩)
  exact ⟨σ₃, _, ((Relation.ReflTransGen.single h1).tail h2).tail h3, a3, by simp⟩

/-- A thread acquires a lock `n + 1` times. -/
theorem LockSys.At.repeat (h : σ.At s .out 0) (hlock : s.lock l = ⟨none, 1, 0⟩) (n : ℕ) :
    ∃ σ' s', Relation.ReflTransGen (ProperStep l) σ σ' ∧ σ'.At s' .out (n + 1) ∧
      s'.lock l = ⟨some s'.running, 0, (n + 1) % 2 ^ 32⟩ := by
  induction n with
  | zero => exact h.first hlock
  | succ n ih =>
    obtain ⟨σ₁, s₁, h1, a1, hlock₁⟩ := ih
    obtain ⟨σ₂, s₂, h2, a2, hlock₂⟩ := a1.again hlock₁
    exact ⟨σ₂, s₂, h1.trans h2, a2, hlock₂⟩

end Owner

end GlowOS.Thread
