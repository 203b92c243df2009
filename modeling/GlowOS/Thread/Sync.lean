import Mathlib
import GlowOS.Thread.Sched

/-!
# Semaphores

`sema_down` and `sema_up` of `thread/sync.c`. Both run with interrupts off. The loop of `sema_down`
gives up the processor in every round but the last, so that a round is what runs without
interruption: it takes the semaphore or puts the thread into the waiters and blocks it. A thread that
`sema_up` wakes comes back to the loop, and may find the semaphore taken by another thread.
-/

namespace GlowOS.Thread

open Program Links

/-! ## The functions -/

/-- Replace a lock. -/
@[simps -fullyApplied] def Threads.setLock (s : Threads) (l : ℕ) (k : Lock) : Threads :=
  { s with lock := Function.update s.lock l k }

/-- Assign the value of a semaphore. -/
def setValue (l value : ℕ) : ThM PUnit :=
  modify fun s ↦ s.setLock l { s.lock l with value := value }

/-- A round of the loop of `sema_down`: whether the thread has the semaphore. If not, it has left the
processor, and the next round is its own when it runs again. -/
def semaDownRound (l : ℕ) : ThM Bool := do
  let s ← get
  if (s.lock l).value = 0 then
    let found ← elemFind (.waiters l) (.general s.running)
    ASSERT (found = false)
    listAppend (.waiters l) (.general s.running)
    threadBlock .blocked
    pure false
  else
    setValue l ((s.lock l).value - 1)
    ASSERT ((s.lock l).value - 1 = 0)
    pure true

/-- Wake the first thread that waits for a semaphore. -/
def wakeWaiter (l : ℕ) : ThM PUnit := do
  let empty ← listEmpty (.waiters l)
  if empty then pure PUnit.unit
  else
    let t ← listPop (.waiters l)
    threadUnblock t

/-- `sema_up`. -/
def semaUp (l : ℕ) : ThM PUnit := do
  let old ← intrDisable
  let s ← get
  ASSERT ((s.lock l).value = 0)
  wakeWaiter l
  let s ← get
  setValue l ((s.lock l).value + 1)
  ASSERT ((s.lock l).value + 1 = 1)
  intrSetStatus old

/-! ## What they do -/

section Sema

variable {s : Threads} {qs : Queue → List ℕ} {l t : ℕ} {ts : List ℕ}

/-- The state in which a thread that waits for a semaphore calls `schedule`. -/
def Threads.waitingFor (s : Threads) (l : ℕ) : Threads :=
  (s.setTags (s.tags.appendQueue (.waiters l) (.general s.running))).blocking .blocked

/-- The running thread becomes the last waiter. -/
def withWaiter (qs : Queue → List ℕ) (l t : ℕ) : Queue → List ℕ :=
  Function.update qs (.waiters l) (qs (.waiters l) ++ [t])

theorem QueueOk.waitingFor (h : QueueOk s qs) (hidle : s.running ≠ s.idleThread) (l : ℕ) :
    Mid (s.waitingFor l) (withWaiter qs l s.running) := by
  obtain ⟨hnot, hwait⟩ := h.running_free h.running_status
  have hself : ((s.waitingFor l).task s.running).status = .blocked := by
    simp [Threads.waitingFor, Threads.blocking]
  have hready : (s.task s.running).status ≠ .ready := by
    rw [h.running_status]
    decide
  refine h.toMid.set (t := s.running) ?_ rfl rfl (Function.update_of_ne (by simp) ..) ?_ ?_ ?_ ?_
    ?_ ?_
  · exact (h.rep.append_general (by simp) (h.toMid.free hready hwait)
      (h.toMid.queue_lt (by simp) h.running_mem (hwait l))).congr rfl rfl
  · exact fun u hu ↦ Function.update_of_ne hu ..
  · rw [hself]
    decide
  · simp [Threads.waitingFor, Threads.blocking]
  · exact fun _ ↦ rfl
  · intro u
    rw [withWaiter, Function.update_of_ne (by simp), hself]
    by_cases hut : u = s.running
    · simp [hut, hnot]
    · simp [hut]
  · intro l' u hu
    by_cases hut : u = s.running
    · exact Or.inr ⟨hut, h.running_mem, hidle, hself⟩
    · refine Or.inl ⟨hut, ?_⟩
      by_cases hl : l' = l
      · subst hl
        rw [withWaiter, Function.update_self] at hu
        simpa [hut] using hu
      · rwa [withWaiter, Function.update_of_ne (by simpa using hl)] at hu

/-- A round of `sema_down` on a semaphore that is taken blocks the thread. -/
theorem QueueOk.semaDownRound_blocks (h : QueueOk s qs) (hidle : s.running ≠ s.idleThread)
    (hv : (s.lock l).value = 0) :
    ∃ s' qs', Returns (semaDownRound l) s false s' ∧ QueueOk s' qs' ∧
      Frame (s.waitingFor l) (withWaiter qs l s.running) s' qs' ∧
      s'.cr3 = (s'.task s'.running).pgdir := by
  have hfind := h.rep.returns_elemFind (.waiters l) s.running
  rw [decide_eq_false ((h.running_free h.running_status).2 l)] at hfind
  obtain ⟨s', qs', hret, hout⟩ := (h.waitingFor hidle l).threadBlock (Or.inl rfl)
  refine ⟨s', qs', ?_, hout⟩
  rw [semaDownRound, returns_get_bind]
  refine returns_ite.mpr (Or.inl ⟨hv, ?_⟩)
  refine returns_bind.mpr ⟨_, _, hfind, ?_⟩
  rw [returns_check_bind]
  refine ⟨rfl, returns_bind.mpr ⟨PUnit.unit, _, rfl, ?_⟩⟩
  exact returns_bind.mpr ⟨_, _, hret, rfl⟩

/-- A round of `sema_down` on a semaphore that is free takes it. -/
theorem returns_semaDownRound_takes (hv : (s.lock l).value = 1) :
    Returns (semaDownRound l) s true (s.setLock l { s.lock l with value := 0 }) := by
  rw [semaDownRound, returns_get_bind]
  refine returns_ite.mpr (Or.inr ⟨by omega, ?_⟩)
  rw [hv]
  exact returns_bind.mpr ⟨PUnit.unit, _, rfl, (returns_check_bind.mpr ⟨rfl, rfl⟩)⟩

theorem Mid.setLock (h : Mid s qs) (k : Lock) : Mid (s.setLock l k) qs :=
  h.congr rfl rfl rfl rfl rfl

theorem QueueOk.setLock (h : QueueOk s qs) (k : Lock) : QueueOk (s.setLock l k) qs :=
  h.congr rfl rfl rfl rfl rfl

theorem QueueOk.setIntr (h : QueueOk s qs) (b : Bool) : QueueOk (s.setIntr b) qs :=
  h.congr rfl rfl rfl rfl rfl

/-- The first waiter leaves the list of waiters. -/
theorem QueueOk.popWaiter (h : QueueOk s qs) (hq : qs (.waiters l) = t :: ts) :
    QueueOk (s.setTags (s.tags.remove (.elem (.general t)))) (Function.update qs (.waiters l) ts) where
  rep := h.rep.pop_general (by simp) hq
  running_mem := by
    rw [Function.update_of_ne (by simp)]
    exact h.running_mem
  idle_mem := by
    rw [Function.update_of_ne (by simp)]
    exact h.idle_mem
  running_eq := by
    rw [Function.update_of_ne (by simp)]
    exact h.running_eq
  ready_iff := by
    rw [Function.update_of_ne (by simp), Function.update_of_ne (by simp)]
    exact h.ready_iff
  waiting l' u hu := by
    rw [Function.update_of_ne (by simp)]
    refine h.waiting l' u ?_
    by_cases hl : l' = l
    · subst hl
      rw [Function.update_self] at hu
      rw [hq]
      exact List.mem_cons_of_mem _ hu
    · rwa [Function.update_of_ne (by simpa using hl)] at hu
  not_died := by
    rw [Function.update_of_ne (by simp)]
    exact h.not_died
  magic := by
    rw [Function.update_of_ne (by simp)]
    exact h.magic
  running_status := h.running_status

/-- `sema_up` without waiters. -/
theorem QueueOk.returns_semaUp_nil (h : QueueOk s qs) (hv : (s.lock l).value = 0)
    (hq : qs (.waiters l) = []) :
    Returns (semaUp l) s PUnit.unit (s.setLock l { s.lock l with value := 1 }) := by
  have hempty := (h.setIntr false).rep.returns_listEmpty (.waiters l)
  rw [decide_eq_true hq] at hempty
  rw [semaUp]
  refine returns_bind.mpr ⟨_, _, returns_intrDisable.mpr ⟨rfl, rfl⟩, ?_⟩
  rw [returns_get_bind, returns_check_bind]
  refine ⟨hv, returns_bind.mpr ⟨PUnit.unit, s.setIntr false, ?_, ?_⟩⟩
  · exact returns_bind.mpr ⟨_, _, hempty, rfl⟩
  · rw [returns_get_bind, show ((s.setIntr false).lock l).value = 0 from hv]
    exact returns_bind.mpr ⟨PUnit.unit, _, rfl, returns_check_bind.mpr ⟨rfl, rfl⟩⟩

/-- The state after `sema_up` woke the thread `t`. -/
def Threads.upped (s : Threads) (l t : ℕ) : Threads :=
  ((s.setTags (s.tags.remove (.elem (.general t)))).unblocked t).setLock l
    { s.lock l with value := 1 }

/-- The first waiter becomes the first ready thread. -/
def withWoken (qs : Queue → List ℕ) (l t : ℕ) (ts : List ℕ) : Queue → List ℕ :=
  Function.update (Function.update qs (.waiters l) ts) .ready (t :: qs .ready)

/-- `sema_up` wakes the first waiter. -/
theorem QueueOk.semaUp_cons (h : QueueOk s qs) (hv : (s.lock l).value = 0)
    (hq : qs (.waiters l) = t :: ts) :
    Returns (semaUp l) s PUnit.unit (s.upped l t) ∧ QueueOk (s.upped l t) (withWoken qs l t ts) := by
  have hmem : t ∈ qs (.waiters l) := by
    rw [hq]
    exact List.mem_cons_self
  obtain ⟨hall, -, hst⟩ := h.waiting l t hmem
  have hpop := h.popWaiter hq
  have hwait : ∀ l', t ∉ Function.update qs (.waiters l) ts (.waiters l') := by
    intro l' ht
    by_cases hl : l' = l
    · subst hl
      rw [Function.update_self] at ht
      have hnd := h.rep.nodup (.waiters l')
      rw [hq, List.nodup_cons] at hnd
      exact hnd.1 ht
    · rw [Function.update_of_ne (by simpa using hl)] at ht
      have heq := h.rep.disjoint (by simp) (by simp) ht hmem
      simp only [Queue.waiters.injEq] at heq
      exact hl heq
  have hmid := hpop.toMid.unblocked (by rwa [Function.update_of_ne (by simp)]) (Or.inl hst) hwait
  rw [Function.update_of_ne (by simp)] at hmid
  have hne : s.running ≠ t := by
    rintro rfl
    rw [h.running_status] at hst
    cases hst
  constructor
  · have hoff := h.setIntr false
    have hne' : qs (.waiters l) ≠ [] := by simp [hq]
    have hwake : Returns (wakeWaiter l) (s.setIntr false) PUnit.unit
        (((s.setIntr false).setTags (s.tags.remove (.elem (.general t)))).unblocked t) :=
      returns_bind.mpr ⟨_, _, hoff.rep.returns_listEmpty_false hne',
        returns_bind.mpr ⟨_, _, hoff.rep.returns_listPop (by simp) hq,
          (hoff.popWaiter hq).toMid.returns_threadUnblock (Or.inl hst)⟩⟩
    rw [semaUp]
    refine returns_bind.mpr ⟨_, _, returns_intrDisable.mpr ⟨rfl, rfl⟩, ?_⟩
    rw [returns_get_bind, returns_check_bind]
    refine ⟨hv, returns_bind.mpr ⟨PUnit.unit, _, hwake, ?_⟩⟩
    have hv' : ((((s.setIntr false).setTags (s.tags.remove (.elem (.general t)))).unblocked t).lock
        l).value = 0 := hv
    rw [returns_get_bind, hv']
    exact returns_bind.mpr ⟨PUnit.unit, _, rfl, returns_check_bind.mpr ⟨rfl, rfl⟩⟩
  · refine QueueOk.setLock ⟨hmid, ?_⟩ _
    simpa [Threads.unblocked, hne] using h.running_status

theorem value_of_returns_semaUp {s' : Threads} {u : PUnit} (h : Returns (semaUp l) s u s') :
    (s.lock l).value = 0 := by
  obtain ⟨b, t, h1, h⟩ := returns_bind.mp h
  obtain ⟨-, rfl⟩ := returns_intrDisable.mp h1
  rw [returns_get_bind, returns_check_bind] at h
  exact h.1

end Sema

end GlowOS.Thread
