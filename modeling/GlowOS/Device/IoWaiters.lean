import Mathlib
import GlowOS.Device.IoQueue

/-!
# The waiters of the ring buffer

`consumer` and `producer` name threads that sleep in `ioq_wait`. A thread in `ioq_wait` that is not
named there was woken, whatever the threads do (`IoFacts`).

That the queue is empty while a consumer sleeps is another matter. A thread tests the queue, takes the
lock and registers, but does not test again after the lock let it wait. So the property holds in a run
exactly if no thread finds, when it comes back from the lock, that there is something to do now.
-/

namespace GlowOS.Device

open Program Thread

/-! ## Threads and control points -/

/-- What holds at the control points, whoever is running. -/
structure IoFacts (s : IoState) (pc : ℕ → IoPc) (qs : Queue → List ℕ) : Prop where
  main : ∀ m, s.threads.mainThread = some m → m ∈ qs .all
  idle : pc s.threads.idleThread = .out
  live : ∀ t, pc t ≠ .out → t ∈ qs .all
  lock : ∀ l, ∀ t ∈ qs (.waiters l), ∃ op, pc t = .lock op
  slot : ∀ w t, s.ioq.waiter w = some t →
    (∃ op, pc t = .wait op ∧ op.waiter = w) ∧ (s.threads.task t).status = .blocked
  wait : ∀ t op, pc t = .wait op → s.ioq.waiter op.waiter = some t ∨ s.threads.Awake t

/-- The scheduler is in order, too. -/
structure IoInv (s : IoState) (pc : ℕ → IoPc) (qs : Queue → List ℕ) : Prop
    extends IoFacts s pc qs where
  ok : QueueOk s.threads qs

/-- The control point a thread comes out at. -/
def Outcome.pc : Outcome → IoPc
  | .sleeps p => p
  | _ => .out

/-- What `lock_acquire` does to the invariant. -/
def Acquired (s : IoState) (pc : ℕ → IoPc) (qs : Queue → List ℕ) (b : Bool) (r : Threads) : Prop :=
  (b = true ∧ IoInv { s with threads := r } pc qs ∧ r.running = s.threads.running ∧
      r.idleThread = s.threads.idleThread) ∨
    (b = false ∧ ∀ op, ∃ qs', IoInv { s with threads := r }
      (Function.update pc s.threads.running (.lock op)) qs')

section Invariant

variable {s s' : IoState} {pc : ℕ → IoPc} {qs qs' : Queue → List ℕ} {l t : ℕ} {op : IoOp}
  {o : Outcome} {u : PUnit} {r : Threads}

/-- A thread with the status `blocked` is not awake. -/
theorem not_awake {r : Threads} (h : (r.task t).status = .blocked) : ¬r.Awake t := by
  rw [Threads.Awake, h]
  decide

namespace IoFacts

/-- Threads and lists change, but no thread in `ioq_wait` does, except that it may be woken. -/
theorem map (h : IoFacts s pc qs) (hw : s'.ioq.waiter = s.ioq.waiter)
    (hmain : s'.threads.mainThread = s.threads.mainThread)
    (hidle : s'.threads.idleThread = s.threads.idleThread) (hall : ∀ t ∈ qs .all, t ∈ qs' .all)
    (hlock : ∀ l, ∀ t ∈ qs' (.waiters l), t ∈ qs (.waiters l))
    (hblocked : ∀ t op, pc t = .wait op → (s.threads.task t).status = .blocked →
      (s'.threads.task t).status = .blocked)
    (hawake : ∀ t op, pc t = .wait op → s.threads.Awake t → s'.threads.Awake t) :
    IoFacts s' pc qs' where
  main m hm := hall m (h.main m (hmain ▸ hm))
  idle := by rw [hidle]; exact h.idle
  live t ht := hall t (h.live t ht)
  lock l t ht := h.lock l t (hlock l t ht)
  slot w t ht := by
    rw [hw] at ht
    obtain ⟨⟨op, hpc, hop⟩, hst⟩ := h.slot w t ht
    exact ⟨⟨op, hpc, hop⟩, hblocked t op hpc hst⟩
  wait t op hpc := by
    rw [hw]
    exact (h.wait t op hpc).imp_right (hawake t op hpc)

/-- The functions of the scheduler keep the facts. -/
theorem frame (h : IoFacts s pc qs) (hf : Frame s.threads qs r qs') :
    IoFacts { s with threads := r } pc qs' := by
  have hne : ∀ t op, pc t = .wait op → t ≠ s.threads.idleThread := by
    rintro t op hpc rfl
    rw [h.idle] at hpc
    cases hpc
  refine h.map rfl hf.mainThread hf.idleThread ?_ ?_ ?_ fun t _ _ ↦ hf.awake t
  · rw [hf.queues .all (by decide)]
    exact fun _ ht ↦ ht
  · intro l t ht
    rwa [hf.queues _ (by simp)] at ht
  · intro t op hpc hst
    rw [show ({ s with threads := r } : IoState).threads = r from rfl,
      hf.asleep t (hne t op hpc) (not_awake hst), hst]

/-- A thread outside of the functions changes. -/
theorem setTask (h : IoFacts s pc qs) (hpc : ∀ op, pc t ≠ .wait op)
    (hmain : r.mainThread = s.threads.mainThread) (hidle : r.idleThread = s.threads.idleThread)
    (htask : ∀ v ≠ t, r.task v = s.threads.task v) (hall : ∀ v ∈ qs .all, v ∈ qs' .all)
    (hlock : ∀ l, ∀ v ∈ qs' (.waiters l), v ∈ qs (.waiters l)) :
    IoFacts { s with threads := r } pc qs' := by
  have hne : ∀ v op, pc v = .wait op → v ≠ t := by
    rintro v op hv rfl
    exact hpc op hv
  refine h.map rfl hmain hidle hall hlock (fun v op hv hst ↦ ?_) fun v op hv haw ↦ ?_
  · exact (congrArg _ (htask v (hne v op hv))).trans hst
  · rwa [Threads.Awake, htask v (hne v op hv)]

/-- The running thread is in none of the functions, for the time of a step. -/
theorem leave (h : IoFacts s pc qs) (hok : QueueOk s.threads qs) :
    IoFacts s (Function.update pc s.threads.running .out) qs := by
  have hother : ∀ t ≠ s.threads.running, ∀ p, Function.update pc s.threads.running p t = pc t :=
    fun t ht p ↦ Function.update_of_ne ht ..
  have hback : ∀ t p, p ≠ .out → Function.update pc s.threads.running .out t = p → pc t = p := by
    intro t p hp ht
    by_cases hr : t = s.threads.running
    · rw [hr, Function.update_self] at ht
      exact absurd ht.symm hp
    · rwa [hother t hr] at ht
  refine ⟨h.main, ?_, ?_, ?_, ?_, ?_⟩
  · by_cases hi : s.threads.idleThread = s.threads.running
    · rw [hi, Function.update_self]
    · rw [hother _ hi]
      exact h.idle
  · intro t ht
    have hr : t ≠ s.threads.running := by
      rintro rfl
      exact ht (Function.update_self ..)
    rw [hother t hr] at ht
    exact h.live t ht
  · intro l t ht
    have hr : t ≠ s.threads.running := by
      rintro rfl
      exact (hok.running_free hok.running_status).2 l ht
    rw [hother t hr]
    exact h.lock l t ht
  · intro w t ht
    obtain ⟨hop, hst⟩ := h.slot w t ht
    have hr : t ≠ s.threads.running := by
      rintro rfl
      rw [hok.running_status] at hst
      cases hst
    rw [hother t hr]
    exact ⟨hop, hst⟩
  · intro t op ht
    exact h.wait t op (hback t _ (by simp) ht)

end IoFacts

/-! ## The lock -/

namespace IoInv

/-- The lock changes. -/
theorem setLock (h : IoInv s pc qs) (l : ℕ) (k : Lock) :
    IoInv { s with threads := s.threads.setLock l k } pc qs :=
  ⟨h.toIoFacts.map rfl rfl rfl (fun _ ht ↦ ht) (fun _ _ ht ↦ ht) (fun _ _ _ ht ↦ ht)
    fun _ _ _ ht ↦ ht, h.ok.setLock k⟩

theorem setIntr (h : IoInv s pc qs) (b : Bool) :
    IoInv { s with threads := s.threads.setIntr b } pc qs :=
  ⟨h.toIoFacts.map rfl rfl rfl (fun _ ht ↦ ht) (fun _ _ ht ↦ ht) (fun _ _ _ ht ↦ ht)
    fun _ _ _ ht ↦ ht, h.ok.setIntr b⟩

/-- The ring changes. -/
theorem setRing (h : IoInv s pc qs) (buf : ℕ → UInt8) (head tail : ℕ) :
    IoInv (s.setIoq { s.ioq with buf := buf, head := head, tail := tail }) pc qs :=
  ⟨h.toIoFacts.map rfl rfl rfl (fun _ ht ↦ ht) (fun _ _ ht ↦ ht) (fun _ _ _ ht ↦ ht)
    fun _ _ _ ht ↦ ht, h.ok⟩

/-- `sema_up` wakes a thread at the lock. -/
theorem semaUp (h : IoInv s pc qs) (hret : Returns (semaUp l) s.threads u r) :
    ∃ qs', IoInv { s with threads := r } pc qs' ∧ r.running = s.threads.running ∧
      r.idleThread = s.threads.idleThread := by
  have hv := value_of_returns_semaUp hret
  cases hq : qs (.waiters l) with
  | nil =>
    obtain ⟨-, rfl⟩ := hret.unique (h.ok.returns_semaUp_nil hv hq)
    exact ⟨qs, h.setLock l _, rfl, rfl⟩
  | cons t ts =>
    obtain ⟨hret', hok⟩ := h.ok.semaUp_cons hv hq
    obtain ⟨-, rfl⟩ := hret.unique hret'
    obtain ⟨op, hop⟩ := h.lock l t (by rw [hq]; exact List.mem_cons_self)
    refine ⟨_, ⟨h.toIoFacts.setTask (t := t) (by simp [hop]) rfl rfl ?_ ?_ ?_, hok⟩, rfl, rfl⟩
    · intro v hv
      simp [Threads.upped, Threads.unblocked, hv]
    · intro v hv
      simpa [withWoken] using hv
    · intro l' v hv
      rw [withWoken, Function.update_of_ne (by simp)] at hv
      by_cases hl : l' = l
      · rw [hl, Function.update_self] at hv
        rw [hl, hq]
        exact List.mem_cons_of_mem t hv
      · rwa [Function.update_of_ne (by simpa using hl)] at hv

theorem lockRelease (h : IoInv s pc qs) (hret : Returns (lockRelease l) s.threads u r) :
    ∃ qs', IoInv { s with threads := r } pc qs' ∧ r.running = s.threads.running ∧
      r.idleThread = s.threads.idleThread := by
  rw [Device.lockRelease, returns_get_bind, returns_check_bind] at hret
  rcases returns_ite.mp hret.2 with ⟨-, hret⟩ | ⟨-, hret⟩
  · rw [returns_modify.mp hret]
    exact ⟨qs, h.setLock l _, rfl, rfl⟩
  · rw [returns_check_bind] at hret
    obtain ⟨-, hret⟩ := hret
    simp only [modifyLock, returns_modify_bind] at hret
    exact ((h.setLock l _).setLock l _).semaUp hret

/-- A round of `sema_down` in `lock_acquire`: the thread has the lock, or waits for it. -/
theorem acquireRound (h : IoInv s pc qs) (hpc : pc s.threads.running = .out)
    (hidle : s.threads.running ≠ s.threads.idleThread) {old b : Bool}
    (hret : Returns (acquireRound l old) s.threads b r) : Acquired s pc qs b r := by
  obtain ⟨taken, r₁, h1, hret⟩ := returns_bind.mp hret
  by_cases hv : (s.threads.lock l).value = 0
  · -- the semaphore is taken: the thread becomes the last waiter and blocks
    obtain ⟨r', qs', hround, hok, hframe, -⟩ := h.ok.semaDownRound_blocks hidle hv
    obtain ⟨rfl, rfl⟩ := h1.unique hround
    obtain ⟨rfl, rfl⟩ := returns_pure.mp hret
    refine Or.inr ⟨rfl, fun op ↦ ⟨qs', ⟨IoFacts.frame (s := ⟨s.threads.waitingFor l, s.ioq⟩) ?_
      hframe, hok⟩⟩⟩
    have hother : ∀ v p, v ≠ s.threads.running →
        Function.update pc s.threads.running p v = pc v :=
      fun v p hv ↦ Function.update_of_ne hv ..
    have hout : ∀ v p, pc v = p → p ≠ .out → v ≠ s.threads.running := by
      rintro v p hv hp rfl
      exact hp (hv.symm.trans hpc)
    have hall : withWaiter qs l s.threads.running .all = qs .all :=
      Function.update_of_ne (by simp) ..
    refine ⟨?_, ?_, ?_, ?_, ?_, ?_⟩
    · rw [hall]
      exact h.main
    · exact (hother _ _ (Ne.symm hidle)).trans h.idle
    · rw [hall]
      intro v hv
      by_cases hr : v = s.threads.running
      · rw [hr]
        exact h.ok.running_mem
      · exact h.live v (by rwa [hother v _ hr] at hv)
    · intro l' v hv
      by_cases hr : v = s.threads.running
      · exact ⟨op, by rw [hr, Function.update_self]⟩
      · rw [hother v _ hr]
        by_cases hl : l' = l
        · rw [hl, withWaiter, Function.update_self] at hv
          exact h.lock l v (by simpa [hr] using hv)
        · rw [withWaiter, Function.update_of_ne (by simpa using hl)] at hv
          exact h.lock l' v hv
    · intro w v hv
      obtain ⟨⟨op', hop, hw⟩, hst⟩ := h.slot w v hv
      have hr := hout v _ hop (by simp)
      refine ⟨⟨op', (hother v _ hr).trans hop, hw⟩, ?_⟩
      simpa [Threads.waitingFor, Threads.blocking, hr] using hst
    · intro v op' hv
      have hr : v ≠ s.threads.running := by
        rintro rfl
        rw [Function.update_self] at hv
        cases hv
      rw [hother v _ hr] at hv
      refine (h.wait v op' hv).imp_right fun haw ↦ ?_
      simpa [Threads.waitingFor, Threads.blocking, Threads.Awake, hr] using haw
  · -- the semaphore is free
    rw [semaDownRound, returns_get_bind] at h1
    obtain ⟨-, h1⟩ := (returns_ite.mp h1).resolve_left fun h' ↦ hv h'.1
    rw [setValue, returns_modify_bind, returns_check_bind] at h1
    obtain ⟨-, rfl, rfl⟩ := h1
    obtain ⟨-, hret⟩ := (returns_ite.mp hret).resolve_right fun h' ↦ h'.1 rfl
    simp only [intrSetStatus, modifyLock, returns_modify_bind, returns_get_bind, returns_check_bind,
      returns_pure] at hret
    obtain ⟨-, rfl, rfl⟩ := hret
    exact Or.inl ⟨rfl, (((h.setLock l _).setIntr old).setLock l _).setLock l _, rfl, rfl⟩

theorem lockAcquire (h : IoInv s pc qs) (hpc : pc s.threads.running = .out)
    (hidle : s.threads.running ≠ s.threads.idleThread) {b : Bool}
    (hret : Returns (lockAcquire l) s.threads b r) : Acquired s pc qs b r := by
  rw [Device.lockAcquire, returns_get_bind] at hret
  rcases returns_ite.mp hret with ⟨-, hret⟩ | ⟨-, hret⟩
  · obtain ⟨old, r₁, h1, hret⟩ := returns_bind.mp hret
    obtain ⟨rfl, rfl⟩ := returns_intrDisable.mp h1
    exact (h.setIntr false).acquireRound hpc hidle hret
  · rw [modifyLock, returns_modify_bind, returns_pure] at hret
    obtain ⟨rfl, rfl⟩ := hret
    exact Or.inl ⟨rfl, h.setLock l _, rfl, rfl⟩

/-! ## The functions -/

/-- `ioq_wait`: the thread is named in the field when it sleeps. -/
theorem ioqWait (h : IoInv s pc qs) (hpc : pc s.threads.running = .out)
    (hidle : s.threads.running ≠ s.threads.idleThread)
    (hret : Returns (ioqWait op.waiter) s u s') :
    ∃ qs', IoInv s' (Function.update pc s.threads.running (.wait op)) qs' := by
  rw [Device.ioqWait, returns_get_bind, returns_check_bind] at hret
  obtain ⟨hnone, hret⟩ := hret
  rw [setWaiter, returns_modify_bind] at hret
  obtain ⟨r, hblock, rfl⟩ := returns_onThreads.mp hret
  obtain ⟨r', qs', hret', hok, hframe, -⟩ := (h.ok.blocking (Or.inl rfl)).threadBlock (Or.inl rfl)
  obtain ⟨-, rfl⟩ := hblock.unique hret'
  let q : Ioqueue := { s.ioq with
    waiter := Function.update s.ioq.waiter op.waiter (some s.threads.running) }
  refine ⟨qs', ⟨IoFacts.frame (s := ⟨s.threads.blocking .blocked, q⟩) ?_ hframe, hok⟩⟩
  have hother : ∀ v p, v ≠ s.threads.running →
      Function.update pc s.threads.running p v = pc v :=
    fun v p hv ↦ Function.update_of_ne hv ..
  refine ⟨h.main, ?_, ?_, ?_, ?_, ?_⟩
  · exact (hother _ _ (Ne.symm hidle)).trans h.idle
  · intro v hv
    by_cases hr : v = s.threads.running
    · rw [hr]
      exact h.ok.running_mem
    · exact h.live v (by rwa [hother v _ hr] at hv)
  · intro l' v hv
    have hr : v ≠ s.threads.running := by
      rintro rfl
      exact (h.ok.running_free h.ok.running_status).2 l' hv
    rw [hother v _ hr]
    exact h.lock l' v hv
  · intro w v hv
    by_cases hw : w = op.waiter
    · rw [hw] at hv
      obtain rfl : s.threads.running = v := by simpa [q] using hv
      exact ⟨⟨op, Function.update_self .., hw.symm⟩, by simp [Threads.blocking]⟩
    · obtain ⟨⟨op', hop, hw'⟩, hst⟩ := h.slot w v (by simpa [q, hw] using hv)
      have hr : v ≠ s.threads.running := by
        rintro rfl
        rw [hpc] at hop
        cases hop
      exact ⟨⟨op', (hother v _ hr).trans hop, hw'⟩, by simpa [Threads.blocking, hr] using hst⟩
  · intro v op' hv
    by_cases hr : v = s.threads.running
    · rw [hr, Function.update_self] at hv
      cases hv
      exact Or.inl (by simp [q, hr])
    · rw [hother v _ hr] at hv
      rcases h.wait v op' hv with hslot | haw
      · -- a thread that is still named would have failed the assertion
        have hw : op'.waiter ≠ op.waiter := by
          intro hw
          rw [hw, hnone] at hslot
          cases hslot
        exact Or.inl (by simpa [q, hw] using hslot)
      · exact Or.inr (by simpa [Threads.blocking, Threads.Awake, hr] using haw)

/-- `wakeup`: the thread that was named is awake, and no thread is named. -/
theorem wakeupIf (h : IoInv s pc qs) {w : Waiter} (hret : Returns (wakeupIf w) s u s') :
    ∃ qs', IoInv s' pc qs' ∧ s'.threads.running = s.threads.running := by
  rw [Device.wakeupIf, returns_get_bind] at hret
  rcases returns_ite.mp hret with ⟨-, hret⟩ | ⟨-, hret⟩
  · rw [wakeup, returns_get_bind] at hret
    cases hw : s.ioq.waiter w with
    | none =>
      rw [hw] at hret
      exact absurd hret returns_throw
    | some t =>
      rw [hw] at hret
      obtain ⟨_, s₁, h1, hret⟩ := returns_bind.mp hret
      obtain ⟨r, hunblock, rfl⟩ := returns_onThreads.mp h1
      rw [setWaiter, returns_modify] at hret
      subst hret
      obtain ⟨⟨op, hop, hw'⟩, hst⟩ := h.slot w t hw
      obtain ⟨-, rfl⟩ := hunblock.unique (h.ok.toMid.returns_threadUnblock (Or.inl hst))
      have hwait : ∀ l, t ∉ qs (.waiters l) := by
        intro l ht
        obtain ⟨op', hop'⟩ := h.lock l t ht
        rw [hop] at hop'
        cases hop'
      have hmid := h.ok.toMid.unblocked (h.live t (by simp [hop])) (Or.inl hst) hwait
      have hne : s.threads.running ≠ t := by
        rintro rfl
        rw [h.ok.running_status] at hst
        cases hst
      refine ⟨_, ⟨⟨?_, h.idle, ?_, ?_, ?_, ?_⟩, ⟨hmid, ?_⟩⟩, rfl⟩
      · exact fun m hm ↦ by simpa using h.main m hm
      · exact fun v hv ↦ by simpa using h.live v hv
      · exact fun l v hv ↦ h.lock l v (by simpa using hv)
      · intro w' v hv
        by_cases heq : w' = w
        · simp [heq] at hv
        · have hv' : s.ioq.waiter w' = some v := by simpa [heq] using hv
          obtain ⟨⟨op', hop', hw''⟩, hst'⟩ := h.slot w' v hv'
          have hvt : v ≠ t := by
            rintro rfl
            rw [hop] at hop'
            cases hop'
            exact heq (hw''.symm.trans hw')
          exact ⟨⟨op', hop', hw''⟩, by simpa [Threads.unblocked, hvt] using hst'⟩
      · intro v op' hv
        by_cases hvt : v = t
        · exact Or.inr (Or.inl (by simp [Threads.unblocked, hvt]))
        · rcases h.wait v op' hv with hslot | haw
          · have hw'' : op'.waiter ≠ w := by
              intro heq
              rw [heq, hw] at hslot
              exact hvt (Option.some.inj hslot).symm
            exact Or.inl (by simpa [hw''] using hslot)
          · exact Or.inr (by simpa [Threads.unblocked, Threads.Awake, hvt] using haw)
      · simpa [Threads.unblocked, hne] using h.ok.running_status
  · obtain ⟨-, rfl⟩ := returns_pure.mp hret
    exact ⟨qs, h, rfl⟩

/-- Behind `lock_acquire` the thread sleeps, in `ioq_wait` or for the lock. -/
theorem register {b : Bool} (hacq : Acquired s pc qs b r) (hpc : pc s.threads.running = .out)
    (hidle : s.threads.running ≠ s.threads.idleThread)
    (hret : Returns (op.register b) { s with threads := r } o s') :
    ∃ qs', IoInv s' (Function.update pc s.threads.running o.pc) qs' := by
  rcases hacq with ⟨rfl, hinv, hrun, hi⟩ | ⟨rfl, hinv⟩
  · obtain ⟨_, s₁, h1, hret⟩ := returns_bind.mp hret
    obtain ⟨rfl, rfl⟩ := returns_pure.mp hret
    have hwait := hinv.ioqWait (by rwa [hrun]) (by rwa [hrun, hi]) h1
    rwa [hrun] at hwait
  · obtain ⟨rfl, rfl⟩ := returns_pure.mp hret
    exact hinv op

theorem sleep (h : IoInv s pc qs) (hpc : pc s.threads.running = .out)
    (hidle : s.threads.running ≠ s.threads.idleThread) (hret : Returns op.sleep s o s') :
    ∃ qs', IoInv s' (Function.update pc s.threads.running o.pc) qs' := by
  rw [IoOp.sleep, returns_get_bind] at hret
  obtain ⟨b, s₁, h1, hret⟩ := returns_bind.mp hret
  obtain ⟨r, hacq, rfl⟩ := returns_onThreads.mp h1
  exact register (h.lockAcquire hpc hidle hacq) hpc hidle hret

/-- A thread that does not sleep leaves the function. -/
theorem loop (h : IoInv s pc qs) (hpc : pc s.threads.running = .out)
    (hidle : s.threads.running = s.threads.idleThread → ¬op.Stuck s.ioq)
    (hret : Returns op.loop s o s') :
    ∃ qs', IoInv s' (Function.update pc s.threads.running o.pc) qs' := by
  have hout : Function.update pc s.threads.running .out = pc := by
    rw [← hpc, Function.update_eq_self]
  cases op with
  | getchar =>
    obtain ⟨b, s₁, h1, hret⟩ := returns_bind.mp hret
    obtain ⟨-, rfl, rfl⟩ := returns_ioqEmpty.mp h1
    rcases returns_ite.mp hret with ⟨hb, hret⟩ | ⟨-, hret⟩
    · exact h.sleep hpc (fun hi ↦ hidle hi (by simpa [IoOp.Stuck] using hb)) hret
    · rw [takeChar, returns_get_bind, returns_check_bind, returns_modify_bind] at hret
      obtain ⟨-, hret⟩ := hret
      obtain ⟨_, s₂, h2, hret⟩ := returns_bind.mp hret
      obtain ⟨rfl, rfl⟩ := returns_pure.mp hret
      obtain ⟨qs', hinv, -⟩ := (h.setRing s₁.ioq.buf s₁.ioq.head _).wakeupIf h2
      rw [← hout] at hinv
      exact ⟨qs', hinv⟩
  | putchar chr =>
    obtain ⟨b, s₁, h1, hret⟩ := returns_bind.mp hret
    obtain ⟨-, rfl, rfl⟩ := returns_ioqFull.mp h1
    rcases returns_ite.mp hret with ⟨hb, hret⟩ | ⟨-, hret⟩
    · exact h.sleep hpc (fun hi ↦ hidle hi (by simpa [IoOp.Stuck] using hb)) hret
    · rw [storeChar, returns_get_bind, returns_check_bind, returns_modify_bind,
        returns_modify_bind] at hret
      obtain ⟨-, hret⟩ := hret
      obtain ⟨_, s₂, h2, hret⟩ := returns_bind.mp hret
      obtain ⟨rfl, rfl⟩ := returns_pure.mp hret
      obtain ⟨qs', hinv, -⟩ := (h.setRing _ _ s₁.ioq.tail).wakeupIf h2
      rw [← hout] at hinv
      exact ⟨qs', hinv⟩

/-- The step of a thread that goes on in a function. -/
theorem resume (h : IoInv s pc qs) (hpc : pc s.threads.running ≠ .out)
    (hret : Returns (pc s.threads.running).resume s o s') :
    ∃ qs', IoInv s' (Function.update pc s.threads.running o.pc) qs' := by
  have hidle : s.threads.running ≠ s.threads.idleThread := by
    intro hi
    rw [hi] at hpc
    exact hpc h.idle
  have hleave : IoInv s (Function.update pc s.threads.running .out) qs :=
    ⟨h.toIoFacts.leave h.ok, h.ok⟩
  have hself : Function.update pc s.threads.running .out s.threads.running = .out :=
    Function.update_self ..
  have hidem : ∀ p, Function.update (Function.update pc s.threads.running .out) s.threads.running p =
      Function.update pc s.threads.running p := fun p ↦ Function.update_idem ..
  cases hp : pc s.threads.running with
  | out => exact absurd hp hpc
  | lock op =>
    rw [hp, IoPc.resume, returns_get_bind] at hret
    obtain ⟨b, s₁, h1, hret⟩ := returns_bind.mp hret
    obtain ⟨r, hacq, rfl⟩ := returns_onThreads.mp h1
    rw [← hidem]
    exact register (hleave.acquireRound hself hidle hacq) hself hidle hret
  | wait op =>
    rw [hp, IoPc.resume, returns_get_bind] at hret
    obtain ⟨_, s₁, h1, hret⟩ := returns_bind.mp hret
    obtain ⟨r, hrel, rfl⟩ := returns_onThreads.mp h1
    obtain ⟨qs', hinv, hrun, hi⟩ := hleave.lockRelease hrel
    have hloop := hinv.loop (by rwa [hrun]) (fun heq ↦ absurd (by rwa [hrun, hi] at heq) hidle) hret
    rwa [hrun, hidem] at hloop

end IoInv

end Invariant

/-! ## Steps -/

section Steps

variable {σ σ' : IoSys} {e : IoEvent} {s s' : IoState} {o : Outcome} {op : IoOp}
  {qs : Queue → List ℕ} {u : PUnit}

theorem IoSys.after_pc (σ : IoSys) (t : ℕ) (s : IoState) (o : Outcome) :
    (σ.after t s o).pc = Function.update σ.pc t o.pc := by
  cases o <;> rfl

theorem IoSys.after_st (σ : IoSys) (t : ℕ) (s : IoState) (o : Outcome) :
    (σ.after t s o).st = s := by
  cases o <;> rfl

theorem IoInit.inv (h : IoInit σ) : ∃ qs, IoInv σ.st σ.pc qs := by
  obtain ⟨⟨s, hsched, hret⟩, hout, -⟩ := h
  obtain ⟨qs, hok, hwait, hmain⟩ := hsched.inv
  rw [initIoqueue, returns_get_bind] at hret
  obtain ⟨_, s₁, h1, hret⟩ := returns_bind.mp hret
  obtain ⟨r, hlock, rfl⟩ := returns_onThreads.mp h1
  rw [returns_modify_bind, returns_modify] at hret
  rw [lockInit, listInit, returns_modify_bind, returns_modify] at hlock
  -- the list of waiters was empty before `list_init`, too
  have hqs : Function.update qs (.waiters s.ioq.lock) [] = qs := by
    rw [← hwait s.ioq.lock, Function.update_eq_self]
  have hrep := hok.rep.init (.waiters s.ioq.lock)
  rw [hqs] at hrep
  have hok' : QueueOk (s.threads.setTags (s.threads.tags.initQueue (.waiters s.ioq.lock))) qs :=
    ⟨⟨hrep, hok.running_mem, hok.idle_mem, hok.running_eq, hok.ready_iff, hok.waiting, hok.not_died,
      hok.magic⟩, hok.running_status⟩
  rw [hret]
  refine ⟨qs, ⟨?_, hout _, ?_, ?_, ?_, ?_⟩, ?_⟩
  · rw [hlock]
    exact hmain
  · exact fun t ht ↦ absurd (hout t) ht
  · intro l t ht
    rw [hwait l] at ht
    cases ht
  · intro w t ht
    cases ht
  · intro t op ht
    rw [hout t] at ht
    cases ht
  · rw [hlock]
    exact hok'.congr rfl rfl rfl rfl rfl

/-- A call of the scheduler from code that does not use the queue. -/
theorem IoInv.sched {r : Threads} (h : IoInv σ.st σ.pc qs) {c : SchedCall}
    (hc : c.Enabled σ.st.threads) (hout : σ.Outside c)
    (hret : Returns c.run σ.st.threads PUnit.unit r) :
    ∃ qs', IoInv { σ.st with threads := r } σ.pc qs' := by
  cases c with
  | tick =>
    obtain ⟨r', qs', hret', hok, hframe, -⟩ := h.ok.intrTimerHandler
    obtain ⟨-, rfl⟩ := hret.unique hret'
    exact ⟨qs', h.frame hframe, hok⟩
  | yield =>
    obtain ⟨r', qs', hret', hok, hframe, -⟩ := h.ok.threadYield
    obtain ⟨-, rfl⟩ := hret.unique hret'
    exact ⟨qs', h.frame hframe, hok⟩
  | block stat =>
    have hpc : σ.pc σ.st.threads.running = .out := hout
    obtain ⟨r', qs', hret', hok, hframe, -⟩ := (h.ok.blocking hc).threadBlock hc
    obtain ⟨-, rfl⟩ := hret.unique hret'
    have hblocking : IoFacts { σ.st with threads := σ.st.threads.blocking stat } σ.pc qs :=
      h.toIoFacts.setTask (t := σ.st.threads.running) (by simp [hpc]) rfl rfl
        (fun v hv ↦ by simp [Threads.blocking, hv]) (fun _ hv ↦ hv) fun _ _ hv ↦ hv
    exact ⟨qs', hblocking.frame hframe, hok⟩
  | unblock t =>
    obtain ⟨-, hpc⟩ := hout
    obtain ⟨ht, hst⟩ := hc
    have hwait : ∀ l, t ∉ qs (.waiters l) := by
      intro l ht
      obtain ⟨op, hop⟩ := h.lock l t ht
      rw [hpc] at hop
      cases hop
    have hmid := h.ok.toMid.unblocked (h.ok.rep.inQueue_iff.mp ht) hst hwait
    obtain ⟨-, rfl⟩ := hret.unique (h.ok.toMid.returns_threadUnblock hst)
    have hne : σ.st.threads.running ≠ t := by
      rintro rfl
      rw [h.ok.running_status] at hst
      revert hst
      decide
    refine ⟨_, h.toIoFacts.setTask (t := t) (by simp [hpc]) rfl rfl ?_ ?_ ?_, hmid, ?_⟩
    · exact fun v hv ↦ by simp [Threads.unblocked, hv]
    · exact fun v hv ↦ by simpa using hv
    · exact fun l v hv ↦ by simpa using hv
    · simpa [Threads.unblocked, hne] using h.ok.running_status
  | start t prio =>
    have ht : t ∉ qs .all := fun hmem ↦ hc (h.ok.rep.inQueue_iff.mpr hmem)
    have hmain : σ.st.threads.mainThread ≠ some t := fun hm ↦ ht (h.main t hm)
    have hpc : σ.pc t = .out := by
      by_contra hpc
      exact ht (h.live t hpc)
    have hfree : ∀ q, t ∉ qs q := by
      intro q
      cases q with
      | ready => exact fun hmem ↦ ht ((h.ok.ready_iff t).mp hmem).1
      | all => exact ht
      | waiters l => exact fun hmem ↦ ht (h.ok.waiting l t hmem).1
    obtain ⟨r', hret', hok, -⟩ := h.ok.threadStart ht hmain prio
    obtain ⟨-, rfl⟩ := hret.unique hret'
    obtain ⟨r'', hret'', -, hnew⟩ := h.ok.rep.threadStart hfree hmain prio
    obtain ⟨-, rfl⟩ := hret.unique hret''
    refine ⟨_, h.toIoFacts.setTask (t := t) (by simp [hpc]) hnew.mainThread hnew.idleThread
      hnew.other ?_ ?_, hok⟩
    · exact fun v hv ↦ by simp [withThread, hv]
    · exact fun l v hv ↦ by simpa [withThread] using hv

/-- **The step**: the invariant is kept, whatever the threads do. -/
theorem IoInv.step (h : IoInv σ.st σ.pc qs) (hstep : IoStep σ e σ') :
    ∃ qs', IoInv σ'.st σ'.pc qs' := by
  cases hstep with
  | call op hpc hidle hret =>
    rw [IoOp.call, assertIntrOff, bind_assoc, returns_get_bind, returns_check_bind] at hret
    rw [IoSys.after_st, IoSys.after_pc]
    exact h.loop hpc hidle hret.2
  | run hpc hret =>
    rw [IoSys.after_st, IoSys.after_pc]
    exact h.resume hpc hret
  | sched c hc hout hret => exact h.sched hc hout hret
  | setIntr b hpc => exact ⟨qs, h.setIntr b⟩

theorem IoReachable.inv (h : IoReachable σ) : ∃ qs, IoInv σ.st σ.pc qs := by
  induction h with
  | init h => exact h.inv
  | step _ hstep ih =>
    obtain ⟨qs, hinv⟩ := ih
    exact hinv.step hstep

/-! ## Who sleeps for a reason -/

/-- A thread that is named in a field has a reason to sleep. -/
def Calm (q : Ioqueue) : Prop := ∀ op : IoOp, q.waiter op.waiter ≠ none → op.Stuck q

/-- What the queue should guarantee. -/
structure IoWaitersOk (σ : IoSys) : Prop where
  consumer : σ.st.ioq.waiter .consumer ≠ none → σ.st.ioq.Empty
  producer : σ.st.ioq.waiter .producer ≠ none → σ.st.ioq.Full
  /-- No thread sleeps although it could go on. -/
  sleeps : ∀ t op, σ.pc t = .wait op → (σ.st.threads.task t).status = .blocked →
    op.Stuck σ.st.ioq

theorem IoInv.waitersOk_iff (h : IoInv σ.st σ.pc qs) : IoWaitersOk σ ↔ Calm σ.st.ioq := by
  constructor
  · rintro ⟨hcons, hprod, -⟩ op hop
    cases op with
    | getchar => exact hcons hop
    | putchar chr => exact hprod hop
  · intro hcalm
    refine ⟨hcalm .getchar, hcalm (.putchar 0), fun t op hpc hst ↦ hcalm op ?_⟩
    rw [(h.wait t op hpc).resolve_right (not_awake hst)]
    nofun

theorem SameRing.stuck (h : SameRing s s') (op : IoOp) : op.Stuck s'.ioq ↔ op.Stuck s.ioq := by
  cases op <;> simp only [IoOp.Stuck, Ioqueue.Empty, Ioqueue.Full, h.head, h.tail]

theorem waiter_of_ioqWait {w : Waiter} (h : Returns (ioqWait w) s u s') :
    s'.ioq.waiter = Function.update s.ioq.waiter w (some s.threads.running) := by
  rw [ioqWait, returns_get_bind, returns_check_bind, setWaiter, returns_modify_bind] at h
  obtain ⟨r, -, rfl⟩ := returns_onThreads.mp h.2
  rfl

theorem waiter_of_wakeupIf {w : Waiter} (h : Returns (wakeupIf w) s u s') :
    s'.ioq.waiter = Function.update s.ioq.waiter w none := by
  rw [wakeupIf, returns_get_bind] at h
  rcases returns_ite.mp h with ⟨-, h⟩ | ⟨hnone, h⟩
  · rw [wakeup, returns_get_bind] at h
    cases hw : s.ioq.waiter w with
    | none =>
      rw [hw] at h
      exact absurd h returns_throw
    | some t =>
      rw [hw] at h
      obtain ⟨_, s₁, h1, h⟩ := returns_bind.mp h
      obtain ⟨r, -, rfl⟩ := returns_onThreads.mp h1
      rw [setWaiter, returns_modify] at h
      rw [h]
      rfl
  · obtain ⟨-, rfl⟩ := returns_pure.mp h
    rw [not_not] at hnone
    rw [← hnone, Function.update_eq_self]

/-- Nobody is named. -/
theorem Calm.of_none {q : Ioqueue} (h : ∀ w, q.waiter w = none) : Calm q :=
  fun op hop ↦ absurd (h op.waiter) hop

/-- A thread that registers needs a reason. -/
theorem Calm.register {b : Bool} (h : Calm s.ioq) (hstuck : b = true → op.Stuck s.ioq)
    (hret : Returns (op.register b) s o s') : Calm s'.ioq := by
  rcases returns_ite.mp hret with ⟨hb, hret⟩ | ⟨-, hret⟩
  · obtain ⟨_, s₁, h1, hret⟩ := returns_bind.mp hret
    obtain ⟨-, rfl⟩ := returns_pure.mp hret
    have hring : SameRing s s' := sameRing_ioqWait _ _ _ _ h1
    intro op' hop'
    rw [hring.stuck]
    rw [waiter_of_ioqWait h1] at hop'
    by_cases hw : op'.waiter = op.waiter
    · -- the operations that wait in one field wait for the same
      have hs := hstuck hb
      cases op <;> cases op' <;> first | exact hs | cases hw
    · rw [Function.update_of_ne hw] at hop'
      exact h op' hop'
  · obtain ⟨-, rfl⟩ := returns_pure.mp hret
    exact h

/-- A thread that has just tested the queue has its reason, and one that goes on wakes the other
side. -/
theorem Calm.loop (h : Calm s.ioq) (hret : Returns op.loop s o s') : Calm s'.ioq := by
  have hsleep : ∀ op : IoOp, op.Stuck s.ioq → Returns op.sleep s o s' → Calm s'.ioq := by
    intro op hstuck hret
    rw [IoOp.sleep, returns_get_bind] at hret
    obtain ⟨b, s₁, h1, hret⟩ := returns_bind.mp hret
    obtain ⟨r, -, rfl⟩ := returns_onThreads.mp h1
    exact Calm.register (s := { s with threads := r }) h (fun _ ↦ hstuck) hret
  cases op with
  | getchar =>
    obtain ⟨b, s₁, h1, hret⟩ := returns_bind.mp hret
    obtain ⟨-, rfl, rfl⟩ := returns_ioqEmpty.mp h1
    rcases returns_ite.mp hret with ⟨hb, hret⟩ | ⟨hb, hret⟩
    · exact hsleep _ (by simpa [IoOp.Stuck] using hb) hret
    · rw [takeChar, returns_get_bind, returns_check_bind, returns_modify_bind] at hret
      obtain ⟨-, hret⟩ := hret
      obtain ⟨_, s₂, h2, hret⟩ := returns_bind.mp hret
      obtain ⟨-, rfl⟩ := returns_pure.mp hret
      have hcons : s₁.ioq.waiter .consumer = none := by
        by_contra hne
        exact hb (decide_eq_true (h .getchar hne))
      refine .of_none fun w ↦ ?_
      rw [waiter_of_wakeupIf h2]
      cases w <;> simp [hcons]
  | putchar chr =>
    obtain ⟨b, s₁, h1, hret⟩ := returns_bind.mp hret
    obtain ⟨-, rfl, rfl⟩ := returns_ioqFull.mp h1
    rcases returns_ite.mp hret with ⟨hb, hret⟩ | ⟨hb, hret⟩
    · exact hsleep _ (by simpa [IoOp.Stuck] using hb) hret
    · rw [storeChar, returns_get_bind, returns_check_bind, returns_modify_bind,
        returns_modify_bind] at hret
      obtain ⟨-, hret⟩ := hret
      obtain ⟨_, s₂, h2, hret⟩ := returns_bind.mp hret
      obtain ⟨-, rfl⟩ := returns_pure.mp hret
      have hprod : s₁.ioq.waiter .producer = none := by
        by_contra hne
        exact hb (decide_eq_true (h (.putchar chr) hne))
      refine .of_none fun w ↦ ?_
      rw [waiter_of_wakeupIf h2]
      cases w <;> simp [hprod]

theorem eq_true_iff_of_acquireRound {l : ℕ} {old b : Bool} {r r' : Threads}
    (h : Returns (acquireRound l old) r b r') : b = true ↔ (r.lock l).value ≠ 0 := by
  obtain ⟨taken, r₁, h1, h⟩ := returns_bind.mp h
  rw [semaDownRound, returns_get_bind] at h1
  rcases returns_ite.mp h1 with ⟨hv, h1⟩ | ⟨hv, h1⟩
  · obtain ⟨_, r₂, -, h1⟩ := returns_bind.mp h1
    rw [returns_check_bind] at h1
    obtain ⟨_, r₃, -, h1⟩ := returns_bind.mp h1.2
    obtain ⟨_, r₄, -, h1⟩ := returns_bind.mp h1
    obtain ⟨rfl, rfl⟩ := returns_pure.mp h1
    obtain ⟨rfl, -⟩ := returns_pure.mp h
    simp [hv]
  · obtain ⟨_, r₂, -, h1⟩ := returns_bind.mp h1
    rw [returns_check_bind] at h1
    obtain ⟨rfl, rfl⟩ := returns_pure.mp h1.2
    simp only [if_true, intrSetStatus, modifyLock, returns_modify_bind, returns_get_bind,
      returns_check_bind, returns_pure] at h
    simp [h.2.1, hv]

/-- A thread that comes back from the lock and gets it has, still, a reason to sleep. -/
def Timely (σ : IoSys) (e : IoEvent) : Prop :=
  e = .run → ∀ op, σ.pc σ.st.threads.running = .lock op →
    (σ.st.threads.lock σ.st.ioq.lock).value ≠ 0 → op.Stuck σ.st.ioq

/-- **The step**: the named threads keep their reasons exactly in a step that is timely. -/
theorem Calm.step_iff (h : Calm σ.st.ioq) (hstep : IoStep σ e σ') :
    Calm σ'.st.ioq ↔ Timely σ e := by
  cases hstep with
  | call op hpc hidle hret =>
    rw [IoOp.call, assertIntrOff, bind_assoc, returns_get_bind, returns_check_bind] at hret
    rw [IoSys.after_st]
    exact ⟨fun _ he ↦ (by cases he), fun _ ↦ h.loop hret.2⟩
  | sched c hc hout hret => exact ⟨fun _ he ↦ (by cases he), fun _ ↦ h⟩
  | setIntr b hpc => exact ⟨fun _ he ↦ (by cases he), fun _ ↦ h⟩
  | @run s o hpc hret =>
    rw [IoSys.after_st]
    cases hp : σ.pc σ.st.threads.running with
    | out => exact absurd hp hpc
    | wait op =>
      rw [hp, IoPc.resume, returns_get_bind] at hret
      obtain ⟨_, s₁, h1, hret⟩ := returns_bind.mp hret
      obtain ⟨r, -, rfl⟩ := returns_onThreads.mp h1
      refine ⟨fun _ _ op' hop' ↦ ?_, fun _ ↦ Calm.loop (s := { σ.st with threads := r }) h hret⟩
      rw [hp] at hop'
      cases hop'
    | lock op =>
      rw [hp, IoPc.resume, returns_get_bind] at hret
      obtain ⟨b, s₁, h1, hret⟩ := returns_bind.mp hret
      obtain ⟨r, hacq, rfl⟩ := returns_onThreads.mp h1
      have hb := eq_true_iff_of_acquireRound hacq
      constructor
      · -- the thread is named now, so that it has a reason
        intro hcalm _ op' hop' hv
        rw [hp] at hop'
        cases hop'
        obtain ⟨-, hret⟩ := (returns_ite.mp hret).resolve_right fun h' ↦ h'.1 (hb.mpr hv)
        obtain ⟨_, s₂, h2, hret⟩ := returns_bind.mp hret
        obtain ⟨-, rfl⟩ := returns_pure.mp hret
        have hring : SameRing ({ σ.st with threads := r } : IoState) s :=
          sameRing_ioqWait _ _ _ _ h2
        refine (hring.stuck op).mp (hcalm op ?_)
        rw [waiter_of_ioqWait h2, Function.update_self]
        exact Option.some_ne_none _
      · intro ht
        exact Calm.register (s := { σ.st with threads := r }) h
          (fun hb' ↦ ht rfl op hp (hb.mp hb')) hret

/-- The runs from `init_ioqueue` on, with their states and events. -/
inductive IoRun : List (IoSys × IoEvent) → IoSys → Prop
  | init {σ : IoSys} (h : IoInit σ) : IoRun [] σ
  | step {tr : List (IoSys × IoEvent)} {σ σ' : IoSys} {e : IoEvent} (h : IoRun tr σ)
      (hstep : IoStep σ e σ') : IoRun (tr ++ [(σ, e)]) σ'

theorem IoRun.inv {tr : List (IoSys × IoEvent)} (h : IoRun tr σ) : ∃ qs, IoInv σ.st σ.pc qs := by
  induction h with
  | init h => exact h.inv
  | step _ hstep ih =>
    obtain ⟨qs, hinv⟩ := ih
    exact hinv.step hstep

theorem IoInit.calm (h : IoInit σ) : Calm σ.st.ioq := by
  obtain ⟨⟨s, -, hret⟩, -⟩ := h
  rw [initIoqueue, returns_get_bind] at hret
  obtain ⟨_, s₁, -, hret⟩ := returns_bind.mp hret
  rw [returns_modify_bind, returns_modify] at hret
  rw [hret]
  exact .of_none fun _ ↦ rfl

end Steps

/-! ## A run that goes wrong

While a consumer sleeps holding the lock, a second one waits for the lock. An interrupt handler stores
two characters, of which the first consumer takes one. The second gets the lock and sleeps, with the
other character in the ring. -/

instance (q : Ioqueue) (op : IoOp) : Decidable (op.Stuck q) :=
  match op with
  | .getchar => inferInstanceAs (Decidable q.Empty)
  | .putchar _ => inferInstanceAs (Decidable q.Full)

/-- Execute a step, of the kinds that the run below has. -/
def IoSys.exec (σ : IoSys) : IoEvent → Option IoSys
  | .call op =>
    if σ.pc σ.st.threads.running = .out ∧
        (σ.st.threads.running = σ.st.threads.idleThread → ¬op.Stuck σ.st.ioq) then
      (op.call σ.st).toOption.map fun r ↦ σ.after σ.st.threads.running r.2 r.1
    else none
  | .run =>
    if σ.pc σ.st.threads.running ≠ .out then
      ((σ.pc σ.st.threads.running).resume σ.st).toOption.map fun r ↦
        σ.after σ.st.threads.running r.2 r.1
    else none
  | .sched .yield =>
    if σ.pc σ.st.threads.running = .out then
      (SchedCall.yield.run σ.st.threads).toOption.map fun r ↦
        { σ with st := { σ.st with threads := r.2 } }
    else none
  | .setIntr b =>
    if σ.pc σ.st.threads.running = .out then
      some { σ with st := { σ.st with threads := σ.st.threads.setIntr b } }
    else none
  | _ => none

theorem returns_of_toOption {α τ : Type} {m : StateT τ (Except Fault) α} {s : τ} {r : α × τ}
    (h : (m s).toOption = some r) : Returns m s r.1 r.2 := by
  rw [Returns]
  cases hm : m s with
  | error e =>
    rw [hm] at h
    cases h
  | ok r' =>
    rw [hm] at h
    obtain rfl := Option.some.inj h
    rfl

theorem IoStep.of_exec {σ σ' : IoSys} {e : IoEvent} (h : σ.exec e = some σ') : IoStep σ e σ' := by
  cases e with
  | call op =>
    rw [IoSys.exec, Option.ite_none_right_eq_some, Option.map_eq_some_iff] at h
    obtain ⟨⟨hpc, hidle⟩, r, hr, rfl⟩ := h
    exact .call op hpc hidle (returns_of_toOption hr)
  | run =>
    rw [IoSys.exec, Option.ite_none_right_eq_some, Option.map_eq_some_iff] at h
    obtain ⟨hpc, r, hr, rfl⟩ := h
    exact .run hpc (returns_of_toOption hr)
  | setIntr b =>
    rw [IoSys.exec, Option.ite_none_right_eq_some, Option.some.injEq] at h
    obtain ⟨hpc, rfl⟩ := h
    exact .setIntr b hpc
  | sched c =>
    cases c with
    | yield =>
      rw [IoSys.exec, Option.ite_none_right_eq_some, Option.map_eq_some_iff] at h
      obtain ⟨hpc, r, hr, rfl⟩ := h
      exact .sched .yield trivial hpc (returns_of_toOption hr)
    | _ => cases h

/-- Execute steps one after another. -/
def IoSys.execAll (σ : IoSys) : List IoEvent → Option IoSys
  | [] => some σ
  | e :: es => (σ.exec e).bind fun σ ↦ σ.execAll es

theorem IoReachable.of_execAll {σ σ' : IoSys} {es : List IoEvent} (h : IoReachable σ)
    (hes : σ.execAll es = some σ') : IoReachable σ' := by
  induction es generalizing σ with
  | nil =>
    obtain rfl := Option.some.inj hes
    exact h
  | cons e es ih =>
    rw [IoSys.execAll, Option.bind_eq_some_iff] at hes
    obtain ⟨σ₁, h1, hes⟩ := hes
    exact ih (h.step (.of_exec h1)) hes

/-- A booted system with a queue. -/
def IoSys.start : Option IoSys :=
  (threadInit 1 (some 8) 2 Threads.off).toOption.bind fun r ↦
    (initIoqueue ⟨r.2, ⟨1, fun _ ↦ none, fun _ ↦ 0, 0, 0⟩⟩).toOption.map fun q ↦
      ⟨q.2, fun _ ↦ .out, [], []⟩

theorem IoInit.of_start {σ : IoSys} (h : IoSys.start = some σ) : IoInit σ := by
  rw [IoSys.start, Option.bind_eq_some_iff] at h
  obtain ⟨r, hr, h⟩ := h
  rw [Option.map_eq_some_iff] at h
  obtain ⟨q, hq, rfl⟩ := h
  refine ⟨⟨_, .boot ⟨Threads.off, 1, some 8, 2, rfl, rfl, by decide, by decide, by decide,
    returns_of_toOption hr⟩, returns_of_toOption hq⟩, fun _ ↦ rfl, rfl, rfl⟩

/-- The run: the consumers are the threads 0 and 1, the handler runs on the stack of the idle
thread. -/
def lateRun : List IoEvent :=
  [.call .getchar, .setIntr false, .call .getchar, .setIntr false, .call (.putchar 97),
    .call (.putchar 98), .sched .yield, .run, .sched .yield, .run]

end GlowOS.Device
