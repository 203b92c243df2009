import Mathlib
import GlowOS.Thread.Boot
import GlowOS.Thread.Sync

/-!
# Locks

`lock_acquire` and `lock_release` of `thread/sync.c`, called by any number of threads. A thread may
lose the processor between any two statements that run with interrupts on, so a thread is at a
control point, and a step is one statement of the thread on the processor, or a tick. What runs with
interrupts off, a round of `sema_down` and all of `sema_up`, is one step.

The idle thread takes part with its loop, since `schedule` falls back on it.
-/

namespace GlowOS.Thread

open Program Links

/-! ## Control points -/

/-- Where a thread is in `lock_acquire`, `lock_release` or `idle`. -/
inductive Pc
  /-- In none of these functions. -/
  | out
  /-- At the test for the holder in `lock_acquire`. -/
  | acquire
  /-- At the call of `sema_down`. -/
  | down
  /-- In the loop of `sema_down`, back from `thread_block`; `old` is the status it will restore. -/
  | downWait (old : Bool)
  /-- At the assignment of `holder`, the assertion behind it, and the assignment of
  `holder_repeat_nr`. -/
  | setHolder
  | assertRepeat
  | setRepeat
  /-- At the increment of `holder_repeat_nr`. -/
  | incRepeat
  /-- At the assertion that `lock_release` starts with. -/
  | release
  /-- At the test of `holder_repeat_nr` in `lock_release`, and at its decrement. -/
  | testRepeat
  | decRepeat
  /-- At the second assertion of `lock_release`, the two assignments behind it, and the call of
  `sema_up`. -/
  | assertOne
  | clearHolder
  | clearRepeat
  | up
  /-- At the call of `thread_block` in `idle`, and at `sti; hlt`. -/
  | idleBlock
  | idleHalt
  deriving DecidableEq, Repr

/-- A round of `sema_down`, in a call that will restore the interrupt status `old`. -/
def downRound (l : ℕ) (old : Bool) : ThM Pc := do
  let taken ← semaDownRound l
  if taken then
    intrSetStatus old
    pure .setHolder
  else pure (.downWait old)

/-- Assign the fields of a lock. -/
def modifyLock (l : ℕ) (f : Lock → Lock) : ThM PUnit :=
  modify fun s ↦ s.setLock l (f (s.lock l))

/-- Execute the statement at a control point: the next control point of the thread. -/
def Pc.exec (l : ℕ) : Pc → ThM Pc
  | .out => pure .out
  | .acquire => do
    let s ← get
    pure (if (s.lock l).holder ≠ some s.running then .down else .incRepeat)
  | .down => do
    let old ← intrDisable
    downRound l old
  | .downWait old => downRound l old
  | .setHolder => do
    let s ← get
    modifyLock l fun k ↦ { k with holder := some s.running }
    pure .assertRepeat
  | .assertRepeat => do
    let s ← get
    ASSERT ((s.lock l).holderRepeatNr = 0)
    pure .setRepeat
  | .setRepeat => do
    modifyLock l fun k ↦ { k with holderRepeatNr := 1 }
    pure .out
  | .incRepeat => do
    modifyLock l fun k ↦ { k with holderRepeatNr := (k.holderRepeatNr + 1) % 2 ^ 32 }
    pure .out
  | .release => do
    let s ← get
    ASSERT ((s.lock l).holder = some s.running)
    pure .testRepeat
  | .testRepeat => do
    let s ← get
    pure (if 1 < (s.lock l).holderRepeatNr then .decRepeat else .assertOne)
  | .decRepeat => do
    modifyLock l fun k ↦ { k with holderRepeatNr := k.holderRepeatNr - 1 }
    pure .out
  | .assertOne => do
    let s ← get
    ASSERT ((s.lock l).holderRepeatNr = 1)
    pure .clearHolder
  | .clearHolder => do
    modifyLock l fun k ↦ { k with holder := none }
    pure .clearRepeat
  | .clearRepeat => do
    modifyLock l fun k ↦ { k with holderRepeatNr := 0 }
    pure .up
  | .up => do
    semaUp l
    pure .out
  | .idleBlock => do
    threadBlock .blocked
    pure .idleHalt
  | .idleHalt => do
    intrSetStatus true
    pure .idleBlock

/-- The statement is the last one of `lock_acquire`. -/
def Pc.acquires : Pc → Bool
  | .setRepeat | .incRepeat => true
  | _ => false

/-! ## Steps -/

/-- The threads, the control point of each, and how many calls of `lock_acquire` it has completed
without calling `lock_release` for them. -/
structure LockSys where
  sys : Threads
  pc : ℕ → Pc
  depth : ℕ → ℕ

/-- What happens in a step: a tick, a statement of the running thread, or that it calls a function or
sets its interrupt status. -/
inductive LockEvent
  | tick
  | run
  | acquire
  | release
  | setIntr (b : Bool)

/-- The steps of threads that use the lock `l`. -/
inductive LockStep (l : ℕ) (σ : LockSys) : LockEvent → LockSys → Prop
  | tick {s : Threads} (hintr : σ.sys.intr = true)
      (hret : Returns intrTimerHandler σ.sys PUnit.unit s) : LockStep l σ .tick { σ with sys := s }
  | run {s : Threads} {pc : Pc} (hpc : σ.pc σ.sys.running ≠ .out)
      (hret : Returns ((σ.pc σ.sys.running).exec l) σ.sys pc s) :
      LockStep l σ .run
        { sys := s
          pc := Function.update σ.pc σ.sys.running pc
          depth := Function.update σ.depth σ.sys.running
            (σ.depth σ.sys.running + if (σ.pc σ.sys.running).acquires then 1 else 0) }
  | acquire (hpc : σ.pc σ.sys.running = .out) :
      LockStep l σ .acquire { σ with pc := Function.update σ.pc σ.sys.running .acquire }
  | release (hpc : σ.pc σ.sys.running = .out) :
      LockStep l σ .release
        { σ with
          pc := Function.update σ.pc σ.sys.running .release
          depth := Function.update σ.depth σ.sys.running (σ.depth σ.sys.running - 1) }
  | setIntr (b : Bool) (hpc : σ.pc σ.sys.running = .out) :
      LockStep l σ (.setIntr b) { σ with sys := σ.sys.setIntr b }

/-- A state the scheduler can be in, right after `lock_init`. -/
structure LockInit (l : ℕ) (σ : LockSys) : Prop where
  sched : SchedReachable σ.sys
  lock : σ.sys.lock l = ⟨none, 1, 0⟩
  depth : ∀ t, σ.depth t = 0
  out : ∀ t ≠ σ.sys.idleThread, σ.pc t = .out
  idle : σ.pc σ.sys.idleThread = .idleBlock ∨ σ.pc σ.sys.idleThread = .idleHalt

/-! ## The waiters -/

/-- The invariant of the waiters of `l`. A thread in the loop of `sema_down` is among them, or it was
woken and did not run since. -/
structure WaitInv (l : ℕ) (σ : LockSys) (qs : Queue → List ℕ) : Prop where
  ok : QueueOk σ.sys qs
  value_le : (σ.sys.lock l).value ≤ 1
  waiting : ∀ t ∈ qs (.waiters l), ∃ old, σ.pc t = .downWait old
  wait : ∀ t old, σ.pc t = .downWait old →
    t ∈ qs .all ∧ (t ∈ qs (.waiters l) ∨ σ.sys.Awake t)
  woken : (σ.sys.lock l).value = 1 → qs (.waiters l) ≠ [] →
    ∃ t old, σ.pc t = .downWait old ∧ t ∉ qs (.waiters l) ∧ σ.sys.Awake t
  idle : σ.pc σ.sys.idleThread = .idleBlock ∨ σ.pc σ.sys.idleThread = .idleHalt

section Waiters

variable {l t : ℕ} {σ σ' : LockSys} {e : LockEvent} {s : Threads} {qs qs' : Queue → List ℕ}

theorem LockInit.waitInv (h : LockInit l σ) : ∃ qs, WaitInv l σ qs := by
  obtain ⟨qs, hok, hwait, -⟩ := h.sched.inv
  refine ⟨qs, hok, by simp [h.lock], by simp [hwait], ?_, by simp [hwait], h.idle⟩
  intro t old hpc
  have hne : σ.pc t ≠ .out := by rw [hpc]; nofun
  have ht : t = σ.sys.idleThread := by
    by_contra hidle
    exact hne (h.out t hidle)
  rw [ht] at hpc
  rcases h.idle with hi | hi <;> rw [hi] at hpc <;> cases hpc

namespace WaitInv

/-- A step that leaves the waiters and the value alone. -/
theorem keep (h : WaitInv l σ qs) {pc : Pc} {depth : ℕ → ℕ} (hok : QueueOk s qs')
    (hqs : ∀ q ≠ .ready, qs' q = qs q) (hvalue : (s.lock l).value = (σ.sys.lock l).value)
    (hidle : s.idleThread = σ.sys.idleThread)
    (hawake : ∀ u ≠ σ.sys.running, σ.sys.Awake u → s.Awake u)
    (hpc : ∀ old, σ.pc σ.sys.running ≠ .downWait old) (hpc' : ∀ old, pc ≠ .downWait old)
    (hip : σ.sys.running = σ.sys.idleThread → pc = .idleBlock ∨ pc = .idleHalt) :
    WaitInv l ⟨s, Function.update σ.pc σ.sys.running pc, depth⟩ qs' := by
  have hall := hqs .all (by decide)
  have hwaiters := hqs (.waiters l) (by simp)
  -- a thread in the loop of `sema_down` is not the one that made the step
  have hother : ∀ u old, Function.update σ.pc σ.sys.running pc u = .downWait old →
      u ≠ σ.sys.running ∧ σ.pc u = .downWait old := by
    intro u old hu
    by_cases hur : u = σ.sys.running
    · rw [hur, Function.update_self] at hu
      exact absurd hu (hpc' old)
    · rw [Function.update_of_ne hur] at hu
      exact ⟨hur, hu⟩
  have hsame : ∀ u old, σ.pc u = .downWait old →
      Function.update σ.pc σ.sys.running pc u = .downWait old := by
    intro u old hu
    rw [Function.update_of_ne, hu]
    rintro rfl
    exact hpc old hu
  refine ⟨hok, by rw [hvalue]; exact h.value_le, ?_, ?_, ?_, ?_⟩
  · intro u hu
    rw [hwaiters] at hu
    obtain ⟨old, hold⟩ := h.waiting u hu
    exact ⟨old, hsame u old hold⟩
  · intro u old hu
    obtain ⟨hur, hu⟩ := hother u old hu
    obtain ⟨hmem, hw⟩ := h.wait u old hu
    rw [hall, hwaiters]
    exact ⟨hmem, hw.imp_right (hawake u hur)⟩
  · intro hv hne
    rw [hvalue] at hv
    rw [hwaiters] at hne ⊢
    obtain ⟨u, old, hu, hnot, haw⟩ := h.woken hv hne
    exact ⟨u, old, hsame u old hu, hnot, hawake u (fun hur ↦ hpc old (hur ▸ hu)) haw⟩
  · change Function.update σ.pc σ.sys.running pc s.idleThread = _ ∨
      Function.update σ.pc σ.sys.running pc s.idleThread = _
    rw [hidle]
    by_cases hi : σ.sys.idleThread = σ.sys.running
    · rw [hi, Function.update_self]
      exact hip hi.symm
    · rw [Function.update_of_ne hi]
      exact h.idle

/-- A thread in a function of the lock is not the idle thread. -/
theorem running_ne_idle (h : WaitInv l σ qs) (h₁ : σ.pc σ.sys.running ≠ .idleBlock)
    (h₂ : σ.pc σ.sys.running ≠ .idleHalt) : σ.sys.running ≠ σ.sys.idleThread := by
  intro heq
  rw [heq] at h₁ h₂
  exact h.idle.elim h₁ h₂

/-- A thread in the loop of `sema_down` is one of the threads. -/
theorem notMem_running (h : WaitInv l σ qs) : σ.sys.running ∉ qs (.waiters l) :=
  (h.ok.running_free h.ok.running_status).2 l

/-- A round of `sema_down`: the thread takes the semaphore, or it is the last waiter now. In the
first case nobody needs to be woken, because the value is zero. -/
theorem round (h : WaitInv l σ qs) (hidle : σ.sys.running ≠ σ.sys.idleThread) {pc : Pc}
    {depth : ℕ → ℕ} {b old : Bool} (hret : Returns (downRound l old) (σ.sys.setIntr b) pc s) :
    ∃ qs', WaitInv l ⟨s, Function.update σ.pc σ.sys.running pc, depth⟩ qs' := by
  have hok := h.ok.setIntr b
  have hnot := h.notMem_running
  have hother : ∀ u ≠ σ.sys.running, ∀ p, Function.update σ.pc σ.sys.running p u = σ.pc u :=
    fun u hu p ↦ Function.update_of_ne hu ..
  have hip : ∀ p, (Function.update σ.pc σ.sys.running p σ.sys.idleThread = .idleBlock ∨
      Function.update σ.pc σ.sys.running p σ.sys.idleThread = .idleHalt) := by
    intro p
    rw [Function.update_of_ne (Ne.symm hidle)]
    exact h.idle
  obtain hv | hv : (σ.sys.lock l).value = 0 ∨ (σ.sys.lock l).value = 1 := by
    have := h.value_le
    omega
  · obtain ⟨s', qs', hround, hok', hframe, -⟩ := hok.semaDownRound_blocks hidle hv
    have hdown : Returns (downRound l old) (σ.sys.setIntr b) (.downWait old) s' :=
      returns_bind.mpr ⟨_, _, hround, returns_pure.mpr ⟨rfl, rfl⟩⟩
    obtain ⟨rfl, rfl⟩ := hret.unique hdown
    have hall : qs' .all = qs .all :=
      (hframe.queues .all (by decide)).trans (Function.update_of_ne (by simp) ..)
    have hwaiters : qs' (.waiters l) = qs (.waiters l) ++ [σ.sys.running] :=
      (hframe.queues _ (by simp)).trans (Function.update_self ..)
    have hlock : s.lock = σ.sys.lock := hframe.lock
    have hidle' : s.idleThread = σ.sys.idleThread := hframe.idleThread
    refine ⟨qs', hok', by rw [hlock, hv]; decide, ?_, ?_, ?_, by rw [hidle']; exact hip _⟩
    · intro u hu
      rw [hwaiters] at hu
      by_cases hur : u = σ.sys.running
      · exact ⟨old, by rw [hur]; exact Function.update_self ..⟩
      · obtain ⟨old', hold⟩ := h.waiting u (by simpa [hur] using hu)
        exact ⟨old', (hother u hur _).trans hold⟩
    · intro u old' hu
      rw [hall, hwaiters]
      by_cases hur : u = σ.sys.running
      · rw [hur]
        exact ⟨h.ok.running_mem, Or.inl (by simp)⟩
      · obtain ⟨hmem, hw⟩ := h.wait u old' ((hother u hur _).symm.trans hu)
        refine ⟨hmem, hw.imp (fun hu ↦ by simp [hu]) fun haw ↦ hframe.awake u ?_⟩
        simpa [Threads.waitingFor, Threads.blocking, Threads.Awake, hur] using haw
    · intro hone
      rw [hlock, hv] at hone
      cases hone
  · have hdown : Returns (downRound l old) (σ.sys.setIntr b) .setHolder
        (((σ.sys.setIntr b).setLock l { σ.sys.lock l with value := 0 }).setIntr old) :=
      returns_bind.mpr ⟨_, _, returns_semaDownRound_takes hv,
        returns_bind.mpr ⟨PUnit.unit, _, rfl, returns_pure.mpr ⟨rfl, rfl⟩⟩⟩
    obtain ⟨rfl, rfl⟩ := hret.unique hdown
    refine ⟨qs, (hok.setLock _).setIntr old, by simp, ?_, ?_, ?_, hip _⟩
    · intro u hu
      obtain ⟨old', hold⟩ := h.waiting u hu
      exact ⟨old', (hother u (fun hur ↦ hnot (hur ▸ hu)) _).trans hold⟩
    · intro u old' hu
      by_cases hur : u = σ.sys.running
      · rw [hur] at hu
        exact absurd ((Function.update_self ..).symm.trans hu) (by simp)
      · exact h.wait u old' ((hother u hur _).symm.trans hu)
    · intro hone
      simp at hone

/-- `sema_up`: a waiter that it wakes is the one the value 1 asks for. -/
theorem up (h : WaitInv l σ qs) (hpc : σ.pc σ.sys.running = .up) {depth : ℕ → ℕ}
    (hret : Returns (semaUp l) σ.sys PUnit.unit s) :
    ∃ qs', WaitInv l ⟨s, Function.update σ.pc σ.sys.running .out, depth⟩ qs' := by
  have hv := value_of_returns_semaUp hret
  have hidle := h.running_ne_idle (by rw [hpc]; decide) (by rw [hpc]; decide)
  have hip : (Function.update σ.pc σ.sys.running .out σ.sys.idleThread = .idleBlock ∨
      Function.update σ.pc σ.sys.running .out σ.sys.idleThread = .idleHalt) := by
    rw [Function.update_of_ne (Ne.symm hidle)]
    exact h.idle
  have hsame : ∀ u old, σ.pc u = .downWait old →
      Function.update σ.pc σ.sys.running .out u = .downWait old := by
    intro u old hu
    rw [Function.update_of_ne, hu]
    rintro rfl
    rw [hpc] at hu
    cases hu
  have hback : ∀ u old, Function.update σ.pc σ.sys.running .out u = .downWait old →
      σ.pc u = .downWait old := by
    intro u old hu
    by_cases hur : u = σ.sys.running
    · rw [hur, Function.update_self] at hu
      cases hu
    · rwa [Function.update_of_ne hur] at hu
  cases hq : qs (.waiters l) with
  | nil =>
    obtain ⟨-, rfl⟩ := hret.unique (h.ok.returns_semaUp_nil hv hq)
    refine ⟨qs, h.ok.setLock _, by simp, by simp [hq], ?_, by simp [hq], hip⟩
    intro u old hu
    obtain ⟨hmem, hw⟩ := h.wait u old (hback u old hu)
    exact ⟨hmem, hw⟩
  | cons t ts =>
    obtain ⟨hret', hok⟩ := h.ok.semaUp_cons hv hq
    obtain ⟨-, rfl⟩ := hret.unique hret'
    have hnd := h.ok.rep.nodup (.waiters l)
    rw [hq, List.nodup_cons] at hnd
    have hwaiters : withWoken qs l t ts (.waiters l) = ts := by simp [withWoken]
    have hall : withWoken qs l t ts .all = qs .all := by simp [withWoken]
    have hawake : ∀ u, σ.sys.Awake u ∨ u = t → (σ.sys.upped l t).Awake u := by
      intro u hu
      by_cases hut : u = t
      · exact Or.inl (by simp [Threads.upped, Threads.unblocked, hut])
      · simpa [Threads.upped, Threads.unblocked, Threads.Awake, hut] using hu.resolve_right hut
    have hwait : ∀ u ∈ t :: ts, ∃ old, σ.pc u = .downWait old := by
      intro u hu
      exact h.waiting u (by rwa [hq])
    refine ⟨withWoken qs l t ts, hok, by simp [Threads.upped], ?_, ?_, ?_, hip⟩
    · intro u hu
      rw [hwaiters] at hu
      obtain ⟨old, hold⟩ := hwait u (List.mem_cons_of_mem _ hu)
      exact ⟨old, hsame u old hold⟩
    · intro u old hu
      obtain ⟨hmem, hw⟩ := h.wait u old (hback u old hu)
      rw [hall, hwaiters]
      refine ⟨hmem, ?_⟩
      rcases hw with hw | hw
      · rw [hq] at hw
        rcases List.mem_cons.mp hw with hut | hts
        · exact Or.inr (hawake u (Or.inr hut))
        · exact Or.inl hts
      · exact Or.inr (hawake u (Or.inl hw))
    · intro _ _
      obtain ⟨old, hold⟩ := hwait t List.mem_cons_self
      rw [hwaiters]
      exact ⟨t, old, hsame t old hold, hnd.1, hawake t (Or.inr rfl)⟩

end WaitInv

/-- What a statement leaves alone that neither blocks nor wakes. -/
structure Quiet (l : ℕ) (s s' : Threads) : Prop where
  task : s'.task = s.task
  tags : s'.tags = s.tags
  running : s'.running = s.running
  idleThread : s'.idleThread = s.idleThread
  created : s'.created = s.created
  value : (s'.lock l).value = (s.lock l).value

theorem Quiet.ok {s' : Threads} (h : Quiet l s s') (hok : QueueOk s qs) : QueueOk s' qs :=
  hok.congr h.task h.tags h.running h.idleThread h.created

theorem Quiet.refl (l : ℕ) (s : Threads) : Quiet l s s := ⟨rfl, rfl, rfl, rfl, rfl, rfl⟩

theorem Quiet.setLock {k : Lock} (hk : k.value = (s.lock l).value) :
    Quiet l s (s.setLock l k) := by
  refine ⟨rfl, rfl, rfl, rfl, rfl, ?_⟩
  simp [hk]

theorem returns_modifyLock {f : Lock → Lock} {p p' : Pc} {s' : Threads} :
    Returns (do
        modifyLock l f
        pure p : ThM Pc) s p' s' ↔ p' = p ∧ s' = s.setLock l (f (s.lock l)) := by
  rw [modifyLock, returns_modify_bind, returns_pure]

/-- The statement switches to another thread or calls `sema_up`. -/
def Pc.switches : Pc → Bool
  | .down | .downWait _ | .up | .idleBlock => true
  | _ => false

/-- The other statements are quiet. -/
theorem Pc.exec_quiet {s' : Threads} {p p' : Pc} (hp : p.switches = false)
    (hret : Returns (p.exec l) s p' s') :
    Quiet l s s' ∧ (∀ old, p' ≠ .downWait old) ∧ (p = .idleHalt → p' = .idleBlock) := by
  cases p with
  | out =>
    obtain ⟨rfl, rfl⟩ := returns_pure.mp hret
    exact ⟨.refl l _, by simp, by simp⟩
  | acquire =>
    obtain ⟨rfl, rfl⟩ := returns_pure.mp hret
    refine ⟨.refl l _, ?_, by simp⟩
    split_ifs <;> simp
  | testRepeat =>
    obtain ⟨rfl, rfl⟩ := returns_pure.mp hret
    refine ⟨.refl l _, ?_, by simp⟩
    split_ifs <;> simp
  | assertRepeat =>
    rw [Pc.exec, returns_get_bind, returns_check_bind, returns_pure] at hret
    obtain ⟨-, rfl, rfl⟩ := hret
    exact ⟨.refl l _, by simp, by simp⟩
  | release =>
    rw [Pc.exec, returns_get_bind, returns_check_bind, returns_pure] at hret
    obtain ⟨-, rfl, rfl⟩ := hret
    exact ⟨.refl l _, by simp, by simp⟩
  | assertOne =>
    rw [Pc.exec, returns_get_bind, returns_check_bind, returns_pure] at hret
    obtain ⟨-, rfl, rfl⟩ := hret
    exact ⟨.refl l _, by simp, by simp⟩
  | setHolder =>
    rw [Pc.exec, returns_get_bind] at hret
    obtain ⟨rfl, rfl⟩ := returns_modifyLock.mp hret
    exact ⟨.setLock rfl, by simp, by simp⟩
  | setRepeat =>
    obtain ⟨rfl, rfl⟩ := returns_modifyLock.mp hret
    exact ⟨.setLock rfl, by simp, by simp⟩
  | incRepeat =>
    obtain ⟨rfl, rfl⟩ := returns_modifyLock.mp hret
    exact ⟨.setLock rfl, by simp, by simp⟩
  | decRepeat =>
    obtain ⟨rfl, rfl⟩ := returns_modifyLock.mp hret
    exact ⟨.setLock rfl, by simp, by simp⟩
  | clearHolder =>
    obtain ⟨rfl, rfl⟩ := returns_modifyLock.mp hret
    exact ⟨.setLock rfl, by simp, by simp⟩
  | clearRepeat =>
    obtain ⟨rfl, rfl⟩ := returns_modifyLock.mp hret
    exact ⟨.setLock rfl, by simp, by simp⟩
  | idleHalt =>
    obtain ⟨rfl, rfl⟩ := returns_pure.mp hret
    exact ⟨⟨rfl, rfl, rfl, rfl, rfl, rfl⟩, by simp, by simp⟩
  | down => cases hp
  | downWait old => cases hp
  | up => cases hp
  | idleBlock => cases hp

/-- **The step**: the invariant of the waiters is kept. -/
theorem WaitInv.step (h : WaitInv l σ qs) (hstep : LockStep l σ e σ') :
    ∃ qs', WaitInv l σ' qs' := by
  have hidle : ∀ p, σ.pc σ.sys.running = p → p ≠ .idleBlock → p ≠ .idleHalt →
      σ.sys.running ≠ σ.sys.idleThread := by
    rintro p rfl h₁ h₂
    exact h.running_ne_idle h₁ h₂
  cases hstep with
  | @tick s hintr hret =>
    obtain ⟨s', qs', hret', hok, hframe, -⟩ := h.ok.intrTimerHandler
    obtain ⟨-, rfl⟩ := hret.unique hret'
    have hall := hframe.queues .all (by decide)
    have hwaiters := hframe.queues (.waiters l) (by simp)
    refine ⟨qs', hok, by rw [hframe.lock]; exact h.value_le, ?_, ?_, ?_, ?_⟩
    · rw [hwaiters]
      exact h.waiting
    · intro u old hu
      rw [hall, hwaiters]
      exact (h.wait u old hu).imp_right (Or.imp_right (hframe.awake u))
    · rw [hframe.lock, hwaiters]
      intro hv hne
      obtain ⟨u, old, hu, hnot, haw⟩ := h.woken hv hne
      exact ⟨u, old, hu, hnot, hframe.awake u haw⟩
    · rw [hframe.idleThread]
      exact h.idle
  | @run s pc hpc hret =>
    cases hsw : (σ.pc σ.sys.running).switches with
    | false =>
      obtain ⟨hquiet, hpc', hhalt⟩ := Pc.exec_quiet hsw hret
      refine ⟨qs, h.keep (hquiet.ok h.ok) (fun _ _ ↦ rfl) hquiet.value hquiet.idleThread ?_ ?_ hpc'
        ?_⟩
      · intro u _ haw
        rwa [Threads.Awake, hquiet.task]
      · intro old heq
        rw [heq] at hsw
        cases hsw
      · intro hri
        have hi := h.idle
        rw [← hri] at hi
        rcases hi with hi | hi
        · rw [hi] at hsw
          cases hsw
        · exact Or.inl (hhalt hi)
    | true =>
      cases hp : σ.pc σ.sys.running with
      | down =>
        rw [hp] at hret
        obtain ⟨b, t, h1, hret⟩ := returns_bind.mp hret
        obtain ⟨rfl, rfl⟩ := returns_intrDisable.mp h1
        exact h.round (hidle _ hp (by simp) (by simp)) hret
      | downWait old =>
        rw [hp] at hret
        exact h.round (hidle _ hp (by simp) (by simp)) hret
      | up =>
        rw [hp] at hret
        obtain ⟨_, t, h1, hret⟩ := returns_bind.mp hret
        obtain ⟨rfl, rfl⟩ := returns_pure.mp hret
        exact h.up hp h1
      | idleBlock =>
        rw [hp] at hret
        obtain ⟨_, t, h1, hret⟩ := returns_bind.mp hret
        obtain ⟨rfl, rfl⟩ := returns_pure.mp hret
        obtain ⟨s', qs', hret', hok, hframe, -⟩ :=
          (h.ok.blocking (Or.inl rfl)).threadBlock (Or.inl rfl)
        obtain ⟨-, rfl⟩ := h1.unique hret'
        refine ⟨qs', h.keep hok hframe.queues (by rw [hframe.lock]; rfl) hframe.idleThread ?_ ?_
          (by simp) (fun _ ↦ Or.inr rfl)⟩
        · intro u hu haw
          refine hframe.awake u ?_
          simpa [Threads.blocking, Threads.Awake, hu] using haw
        · intro old heq
          rw [hp] at heq
          cases heq
      | _ =>
        rw [hp] at hsw
        cases hsw
  | acquire hpc =>
    refine ⟨qs, h.keep h.ok (fun _ _ ↦ rfl) rfl rfl (fun _ _ ha ↦ ha) ?_ (by simp) ?_⟩
    · rw [hpc]
      simp
    · exact fun hri ↦ absurd hri (hidle _ hpc (by simp) (by simp))
  | release hpc =>
    refine ⟨qs, h.keep h.ok (fun _ _ ↦ rfl) rfl rfl (fun _ _ ha ↦ ha) ?_ (by simp) ?_⟩
    · rw [hpc]
      simp
    · exact fun hri ↦ absurd hri (hidle _ hpc (by simp) (by simp))
  | setIntr b hpc =>
    exact ⟨qs, h.ok.setIntr b, h.value_le, h.waiting, h.wait, h.woken, h.idle⟩

/-- The states that threads reach which call the two functions in any order. -/
inductive LockReachable (l : ℕ) : LockSys → Prop
  | init {σ : LockSys} (h : LockInit l σ) : LockReachable l σ
  | step {σ σ' : LockSys} {e : LockEvent} (h : LockReachable l σ) (hstep : LockStep l σ e σ') :
      LockReachable l σ'

theorem LockReachable.waitInv (h : LockReachable l σ) : ∃ qs, WaitInv l σ qs := by
  induction h with
  | init h => exact h.waitInv
  | step _ hstep ih =>
    obtain ⟨qs, hinv⟩ := ih
    exact hinv.step hstep

/-- The waiters are distinct blocked threads that are not ready. If the semaphore is free, a thread
that was woken has yet to test it. -/
def WaitersOk (l : ℕ) (σ : LockSys) : Prop :=
  ∃ ts : List ℕ, σ.sys.tags.IsList (.head (.waiters l)) (.tail (.waiters l))
      (ts.map fun t ↦ .elem (.general t)) ∧ ts.Nodup ∧
    (∀ t ∈ ts, (σ.sys.task t).status = .blocked ∧ ¬σ.sys.InQueue .ready t) ∧
    ((σ.sys.lock l).value = 1 → ts ≠ [] → ∃ t old, σ.pc t = .downWait old ∧ t ∉ ts ∧
      ((σ.sys.task t).status = .ready ∨ t = σ.sys.running))

end Waiters

/-- The threads of a booted system, which have not called anything yet. -/
def LockSys.start (s : Threads) : LockSys where
  sys := s
  pc t := if t = s.idleThread then .idleBlock else .out
  depth _ := 0

theorem exists_lockInit : ∃ s, LockInit 0 (LockSys.start s) ∧ s.running ≠ s.idleThread := by
  obtain ⟨s, h⟩ : ∃ s, Returns (do
      threadInit 1 (some 8) 2
      let s ← get
      pure (s.running, s.idleThread, (s.lock 0).holder, (s.lock 0).value,
        (s.lock 0).holderRepeatNr) : ThM _) Threads.off (0, 2, none, 1, 0) s :=
    exists_returns (by decide +kernel)
  obtain ⟨_, s', h, h'⟩ := returns_bind.mp h
  rw [returns_get_bind, returns_pure, Prod.mk.injEq, Prod.mk.injEq, Prod.mk.injEq,
    Prod.mk.injEq] at h'
  obtain ⟨⟨hrun, hidle, h1, h2, h3⟩, rfl⟩ := h'
  refine ⟨s, ⟨.boot ⟨Threads.off, 1, some 8, 2, rfl, rfl, by decide, by decide, by decide, h⟩, ?_,
    fun _ ↦ rfl, fun t ht ↦ if_neg ht, Or.inl (if_pos rfl)⟩, by rw [← hrun, ← hidle]; decide⟩
  change (⟨(s.lock 0).holder, (s.lock 0).value, (s.lock 0).holderRepeatNr⟩ : Lock) = _
  rw [← h1, ← h2, ← h3]

end GlowOS.Thread
