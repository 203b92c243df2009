import Mathlib
import GlowOS.Thread.Sched

/-!
# The scheduler from boot on

`thread_init` creates the first process, the main thread and the idle thread. From there on ticks,
new threads, yields, blocks and wake-ups follow in any order. In every state that is reached the ready
list has the ready threads, and none of these calls fails.
-/

namespace GlowOS.Thread

open Program Links

/-! ## Booting -/

/-- Every list is empty. -/
def emptyTags : Links (QNode Queue Tag) where
  prev
    | .tail q => .head q
    | _ => .null
  next
    | .head q => .tail q
    | _ => .null

theorem Rep.empty {s : Threads} (h : s.tags = emptyTags) : Rep s fun _ ↦ [] := by
  refine ⟨⟨fun q ↦ ?_, by simp⟩, by simp⟩
  rw [h]
  exact isList_nil (by simp) rfl rfl

/-- The state that `thread_init` leaves, for three different pages. -/
def Booted (s : Threads) : Prop :=
  ∃ s₀ init pgdir idle, s₀.tags = emptyTags ∧ s₀.mainThread = none ∧ init ≠ s₀.running ∧
    idle ≠ s₀.running ∧ init ≠ idle ∧ Returns (threadInit init pgdir idle) s₀ PUnit.unit s

section Boot

variable {s s' : Threads} {qs : Queue → List ℕ} {t : ℕ}

/-- The lists after booting. -/
def bootQueues (init main idle : ℕ) : Queue → List ℕ
  | .ready => [init, idle]
  | .all => [init, main, idle]
  | .waiters _ => []

/-- Initializing a list when all lists are empty. -/
theorem Rep.returns_listInit (h : Rep s fun _ ↦ []) (q : Queue) :
    ∃ s', Returns (listInit q) s PUnit.unit s' ∧ (Rep s' fun _ ↦ []) ∧ s'.running = s.running ∧
      s'.mainThread = s.mainThread := by
  refine ⟨_, rfl, ?_, rfl, rfl⟩
  have hrep := h.init q
  rwa [Function.update_eq_self q fun _ ↦ []] at hrep

theorem Rep.returns_lockInit (h : Rep s fun _ ↦ []) (l : ℕ) :
    ∃ s', Returns (lockInit l) s PUnit.unit s' ∧ (Rep s' fun _ ↦ []) ∧ s'.running = s.running ∧
      s'.mainThread = s.mainThread := by
  obtain ⟨s₁, hret, hrep, hrun, hmain⟩ := h.returns_listInit (.waiters l)
  exact ⟨{ s₁ with lock := Function.update s₁.lock l ⟨none, 1, 0⟩ },
    returns_bind.mpr ⟨_, _, hret, rfl⟩, hrep.congr rfl rfl, hrun, hmain⟩

theorem Rep.processExecute (h : Rep s qs) (ht : ∀ q, t ∉ qs q) (hmain : s.mainThread ≠ some t)
    (pgdir : Option ℕ) : ∃ s', Returns (processExecute t pgdir) s PUnit.unit s' ∧
      Rep s' (withThread qs t) ∧ NewThread s t .ready s' := by
  let s₁ : Threads :=
    { s.initialized t defaultPrio with resumes := Function.update s.resumes t true }
  let s₂ := (s₁.setTask t { s₁.task t with pgdir := pgdir }).setIntr false
  have h₂ : Rep s₂ qs := (h.initialized ht defaultPrio).congr rfl rfl
  obtain ⟨l, hret, hrep⟩ := h₂.enlisted ht fun q ↦ Nat.lt_succ_of_le (h.len q)
  refine ⟨(s₂.setTags l).setIntr s.intr, ?_, hrep.congr rfl rfl, rfl, rfl, rfl, ?_, ?_, ?_⟩
  · refine returns_bind.mpr ⟨PUnit.unit, s.initialized t defaultPrio, rfl, ?_⟩
    refine returns_bind.mpr ⟨PUnit.unit, s₁, rfl, ?_⟩
    rw [returns_modify_bind]
    refine returns_bind.mpr ⟨_, _, returns_intrDisable.mpr ⟨rfl, rfl⟩, ?_⟩
    obtain ⟨_, _, h1, h2⟩ := returns_bind.mp hret
    exact returns_bind.mpr ⟨_, _, h1, returns_bind.mpr ⟨_, _, h2, rfl⟩⟩
  · intro u hu
    simp [s₂, s₁, Threads.initialized, Threads.clearTags, hu]
  · simp [s₂, s₁, Threads.initialized, hmain]
  · simp [s₂, s₁, Threads.initialized]

theorem Rep.makeMainThread (h : Rep s qs) (ht : ∀ q, s.running ∉ qs q) :
    ∃ s', Returns makeMainThread s PUnit.unit s' ∧
      Rep s' (Function.update qs .all (qs .all ++ [s.running])) ∧
      NewThread { s with mainThread := some s.running } s.running .running s' := by
  let s₁ := Threads.initialized { s with mainThread := some s.running } s.running 31
  have h₀ : Rep { s with mainThread := some s.running } qs := h.congr rfl rfl
  have h₁ : Rep s₁ qs := h₀.initialized ht 31
  have h₂ := h₁.append (q := .all) (Rep.allList_free (ht .all))
    (Nat.lt_succ_of_le (h.len .all))
  refine ⟨_, ?_, h₂, rfl, rfl, rfl, fun u hu ↦ Function.update_of_ne hu .., ?_, ?_⟩
  · rw [Thread.makeMainThread, returns_modify_bind, returns_get_bind]
    exact returns_bind.mpr ⟨PUnit.unit, s₁, rfl, h₁.returns_enlist (ht .all)⟩
  · simp [s₁, Threads.initialized]
  · simp [s₁, Threads.initialized]

/-- The invariant of the runs. No thread waits for a semaphore. -/
def SchedInv (s : Threads) (qs : Queue → List ℕ) : Prop :=
  QueueOk s qs ∧ (∀ l, qs (.waiters l) = []) ∧ ∀ m, s.mainThread = some m → m ∈ qs .all

/-- The lists of a booted system hold the first process, the main thread and the idle thread. -/
theorem Booted.inv (h : Booted s) : ∃ qs, SchedInv s qs := by
  obtain ⟨s₀, init, pgdir, idle, htags, hmain, hinit, hidle, hne, hret⟩ := h
  obtain ⟨s₁, h1, r1, run1, main1⟩ := (Rep.empty htags).returns_listInit .ready
  obtain ⟨s₂, h2, r2, run2, main2⟩ := r1.returns_listInit .all
  obtain ⟨s₃, h3, r3, run3, main3⟩ := r2.returns_lockInit pidLock
  have hrun : s₃.running = s₀.running := by rw [run3, run2, run1]
  have hmain₃ : s₃.mainThread = none := by rw [main3, main2, main1, hmain]
  -- the first process, the main thread and the idle thread enter their lists
  obtain ⟨s₄, h4, r4, n4⟩ := r3.processExecute (t := init) (by simp) (by simp [hmain₃]) pgdir
  have hrun₄ : s₄.running = s₀.running := n4.running.trans hrun
  have hfree₄ : ∀ q, s₄.running ∉ withThread (fun _ ↦ []) init q := by
    intro q
    rw [hrun₄]
    cases q <;> simp [withThread, Ne.symm hinit]
  obtain ⟨s₅, h5, r5, n5⟩ := r4.makeMainThread hfree₄
  have hrun₅ : s₅.running = s₀.running := n5.running.trans hrun₄
  have hmain₅ : s₅.mainThread = some s₀.running := n5.mainThread.trans (congrArg some hrun₄)
  have hfree₅ : ∀ q, idle ∉ Function.update (withThread (fun _ ↦ []) init) .all
      (withThread (fun _ ↦ []) init .all ++ [s₄.running]) q := by
    intro q
    rw [hrun₄]
    cases q <;> simp [withThread, Ne.symm hne, hidle]
  obtain ⟨s₆, h6, r6, n6⟩ := r5.threadStart hfree₅ (by simp [hmain₅, Ne.symm hidle]) 10
  have hrun₆ : s₆.running = s₀.running := n6.running.trans hrun₅
  have hfinal : Returns (threadInit init pgdir idle) s₀ PUnit.unit
      { s₆ with idleThread := idle } :=
    returns_bind.mpr ⟨_, _, h1, returns_bind.mpr ⟨_, _, h2, returns_bind.mpr ⟨_, _, h3,
      returns_bind.mpr ⟨_, _, h4, returns_bind.mpr ⟨_, _, h5, returns_bind.mpr ⟨_, _, h6, rfl⟩⟩⟩⟩⟩⟩
  obtain ⟨-, rfl⟩ := hret.unique hfinal
  have hqs : withThread (Function.update (withThread (fun _ ↦ []) init) .all
      (withThread (fun _ ↦ []) init .all ++ [s₄.running])) idle =
      bootQueues init s₀.running idle := by
    funext q
    rw [hrun₄]
    cases q <;> simp [withThread, bootQueues]
  rw [hqs] at r6
  -- who is in which state now
  have hi : s₆.task init = s₄.task init :=
    (n6.other init hne).trans (n5.other init (hrun₄ ▸ hinit))
  have hm : s₆.task s₀.running = s₅.task s₀.running := n6.other _ (Ne.symm hidle)
  have hist : (s₆.task init).status = .ready := by rw [hi, n4.status]
  have hmst : (s₆.task s₀.running).status = .running := by rw [hm, ← hrun₄, n5.status]
  have himagic : (s₆.task init).stackMagic = stackMagic := by rw [hi, n4.magic]
  have hmmagic : (s₆.task s₀.running).stackMagic = stackMagic := by rw [hm, ← hrun₄, n5.magic]
  have hmem : ∀ u, u ∈ bootQueues init s₀.running idle .all ↔
      u = init ∨ u = s₀.running ∨ u = idle := fun u ↦ by simp [bootQueues]
  refine ⟨bootQueues init s₀.running idle, ⟨⟨r6.congr rfl rfl, ?_, ?_, ?_, ?_, ?_, ?_, ?_⟩, ?_⟩,
    fun _ ↦ rfl, ?_⟩
  · exact (hmem _).mpr (Or.inr (Or.inl hrun₆))
  · exact (hmem _).mpr (Or.inr (Or.inr rfl))
  · intro u hu hst
    rcases (hmem u).mp hu with rfl | rfl | rfl
    · exact absurd (hist.symm.trans hst) (by decide)
    · exact hrun₆.symm
    · exact absurd (n6.status.symm.trans hst) (by decide)
  · intro u
    rw [hmem]
    simp only [bootQueues, List.mem_cons, List.not_mem_nil, or_false]
    constructor
    · rintro (rfl | rfl)
      · exact ⟨Or.inl rfl, hist⟩
      · exact ⟨Or.inr (Or.inr rfl), n6.status⟩
    · rintro ⟨rfl | rfl | rfl, hst⟩
      · exact Or.inl rfl
      · exact absurd (hmst.symm.trans hst) (by decide)
      · exact Or.inr rfl
  · intro l u hu
    cases hu
  · intro u hu
    rcases (hmem u).mp hu with rfl | rfl | rfl
    · exact fun hst ↦ absurd (hist.symm.trans hst) (by decide)
    · exact fun hst ↦ absurd (hmst.symm.trans hst) (by decide)
    · exact fun hst ↦ absurd (n6.status.symm.trans hst) (by decide)
  · intro u hu
    rcases (hmem u).mp hu with rfl | rfl | rfl
    · exact himagic
    · exact hmmagic
    · exact n6.magic
  · rw [hrun₆]
    exact hmst
  · intro m hm'
    have hsome : s₆.mainThread = some s₀.running := n6.mainThread.trans hmain₅
    obtain rfl := Option.some.inj (hsome.symm.trans hm')
    exact (hmem _).mpr (Or.inr (Or.inl rfl))

end Boot

/-! ## Runs -/

/-- What can happen to the scheduler. -/
inductive SchedCall
  | tick
  | start (t prio : ℕ)
  | yield
  | block (stat : TaskStatus)
  | unblock (t : ℕ)

/-- The function that is called. -/
def SchedCall.run : SchedCall → ThM PUnit
  | .tick => intrTimerHandler
  | .start t prio => threadStart t prio
  | .yield => threadYield
  | .block stat => threadBlock stat
  | .unblock t => threadUnblock t

/-- A tick needs interrupts on, a new thread a new page, and only a blocked thread is woken. -/
def SchedCall.Enabled (s : Threads) : SchedCall → Prop
  | .tick => s.intr = true
  | .start t _ => ¬s.InQueue .all t
  | .yield => True
  | .block stat => stat.IsBlocked
  | .unblock t => s.InQueue .all t ∧ (s.task t).status.IsBlocked

/-- The states that calls of the scheduler lead to. -/
inductive SchedReachable : Threads → Prop
  | boot {s : Threads} (h : Booted s) : SchedReachable s
  | step {s s' : Threads} (h : SchedReachable s) (c : SchedCall) (hc : c.Enabled s)
      (hret : Returns c.run s PUnit.unit s') : SchedReachable s'

/-- The thread in `TASK_RUNNING` and the ready list. -/
structure ReadyList (s : Threads) : Prop where
  /-- Exactly one thread is running. -/
  unique : ∃! t, s.InQueue .all t ∧ (s.task t).status = .running
  /-- It is the one on the processor, and is not in the ready list. -/
  running : (s.task s.running).status = .running ∧ ¬s.InQueue .ready s.running
  /-- The ready list has every ready thread once and nothing else. -/
  ready : ∃ ts : List ℕ, s.tags.IsList (.head .ready) (.tail .ready)
    (ts.map fun t ↦ .elem (.general t)) ∧ ts.Nodup ∧
      ∀ t, t ∈ ts ↔ s.InQueue .all t ∧ (s.task t).status = .ready

section Runs

variable {s s' : Threads} {qs : Queue → List ℕ}

theorem QueueOk.readyList (h : QueueOk s qs) : ReadyList s where
  unique := by
    refine ⟨s.running, ⟨h.rep.inQueue_iff.mpr h.running_mem, h.running_status⟩, ?_⟩
    rintro t ⟨ht, hst⟩
    exact h.running_eq t (h.rep.inQueue_iff.mp ht) hst
  running := ⟨h.running_status,
    fun hq ↦ (h.running_free h.running_status).1 (h.rep.inQueue_iff.mp hq)⟩
  ready := by
    refine ⟨qs .ready, ?_, h.rep.nodup .ready, fun t ↦ ?_⟩
    · have hlist := h.rep.holds.list .ready
      rwa [List.map_map] at hlist
    · rw [h.ready_iff, h.rep.inQueue_iff]

/-- A call whose frame is known keeps the rest of the invariant. -/
theorem SchedInv.of_frame {qs' : Queue → List ℕ} (h : SchedInv s qs) (hok : QueueOk s' qs')
    (hqs : ∀ q ≠ .ready, qs' q = qs q) (hmain : s'.mainThread = s.mainThread) :
    SchedInv s' qs' := by
  refine ⟨hok, fun l ↦ (hqs _ (by simp)).trans (h.2.1 l), fun m hm ↦ ?_⟩
  rw [hqs .all (by decide)]
  exact h.2.2 m (hmain ▸ hm)

/-- **The step**: an enabled call returns and keeps the invariant. -/
theorem SchedInv.step (h : SchedInv s qs) {c : SchedCall} (hc : c.Enabled s) :
    ∃ s' qs', Returns c.run s PUnit.unit s' ∧ SchedInv s' qs' := by
  obtain ⟨hok, hwait, hmain⟩ := id h
  cases c with
  | tick =>
    obtain ⟨s', qs', hret, hok', hframe, -⟩ := hok.intrTimerHandler
    exact ⟨s', qs', hret, h.of_frame hok' hframe.queues hframe.mainThread⟩
  | start t prio =>
    have ht : t ∉ qs .all := fun hmem ↦ hc (hok.rep.inQueue_iff.mpr hmem)
    obtain ⟨s', hret, hok', hmain'⟩ := hok.threadStart ht (fun hm ↦ ht (hmain t hm)) prio
    refine ⟨s', _, hret, hok', fun l ↦ ?_, fun m hm ↦ ?_⟩
    · simpa [withThread] using hwait l
    · have hmem := hmain m (hmain' ▸ hm)
      simp [withThread, hmem]
  | yield =>
    obtain ⟨s', qs', hret, hok', hframe, -⟩ := hok.threadYield
    exact ⟨s', qs', hret, h.of_frame hok' hframe.queues hframe.mainThread⟩
  | block stat =>
    obtain ⟨s', qs', hret, hok', hframe, -⟩ := (hok.blocking hc).threadBlock hc
    exact ⟨s', qs', hret, h.of_frame hok' hframe.queues hframe.mainThread⟩
  | unblock t =>
    obtain ⟨ht, hst⟩ := hc
    have hno : ∀ l, t ∉ qs (.waiters l) := fun l ↦ by simp [hwait l]
    have hmid := hok.toMid.unblocked (hok.rep.inQueue_iff.mp ht) hst hno
    refine ⟨_, _, hok.toMid.returns_threadUnblock hst, h.of_frame ⟨hmid, ?_⟩
      (fun q hq ↦ Function.update_of_ne hq ..) rfl⟩
    have hne : s.running ≠ t := by
      rintro rfl
      rw [hok.running_status] at hst
      revert hst
      decide
    simpa [Threads.unblocked, hne] using hok.running_status

theorem SchedReachable.inv (h : SchedReachable s) : ∃ qs, SchedInv s qs := by
  induction h with
  | boot h => exact h.inv
  | step _ c hc hret ih =>
    obtain ⟨qs, hinv⟩ := ih
    obtain ⟨s', qs', hret', hinv'⟩ := hinv.step hc
    obtain ⟨-, rfl⟩ := hret.unique hret'
    exact ⟨qs', hinv'⟩

/-- **The scheduler's queue**: in every state that is reached, exactly one thread is running and is
not in the ready list, the ready list has the ready threads, and every call returns. -/
theorem readyList_of_reachable (h : SchedReachable s) :
    ReadyList s ∧ ∀ c : SchedCall, c.Enabled s → ∃ s', Returns c.run s PUnit.unit s' := by
  obtain ⟨qs, hinv⟩ := h.inv
  refine ⟨hinv.1.readyList, fun c hc ↦ ?_⟩
  obtain ⟨s', -, hret, -⟩ := hinv.step hc
  exact ⟨s', hret⟩

end Runs

/-- A processor that has not yet booted. -/
def Threads.off : Threads where
  task _ := ⟨.ready, 0, 0, 0, none, 0⟩
  tags := emptyTags
  lock _ := ⟨none, 1, 0⟩
  running := 0
  mainThread := none
  idleThread := 0
  intr := false
  resumes _ := false
  cr3 := none
  created := 0

/-- The main thread blocks right after booting. -/
theorem readyList_of_reachable_block : ∃ s, SchedReachable s ∧ ReadyList s ∧
    ∀ c : SchedCall, c.Enabled s → ∃ s', Returns c.run s PUnit.unit s' := by
  obtain ⟨s₁, h₁⟩ : ∃ s, Returns (threadInit 1 (some 8) 2) Threads.off PUnit.unit s :=
    exists_returns (by decide +kernel)
  have hboot : SchedReachable s₁ :=
    .boot ⟨Threads.off, 1, some 8, 2, rfl, rfl, by decide, by decide, by decide, h₁⟩
  obtain ⟨s₂, h₂⟩ := (readyList_of_reachable hboot).2 (.block .blocked) (Or.inl rfl)
  have hreach : SchedReachable s₂ := hboot.step (.block .blocked) (Or.inl rfl) h₂
  exact ⟨s₂, hreach, readyList_of_reachable hreach⟩

end GlowOS.Thread
