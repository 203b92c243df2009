import Mathlib
import GlowOS.Thread.State

/-!
# The scheduler's queues

`Rep s qs` says that the list elements of the threads represent the lists `qs`. `QueueOk` adds what
holds between the calls of the scheduler: the running thread is the only one with the status
`TASK_RUNNING`, the ready list has exactly the threads with the status `TASK_READY`, and threads that
wait for a semaphore are blocked. `Mid` is the part of it that `schedule` relies on, where the status
of the calling thread is open.

The idle thread is in no list of waiters. When `schedule` finds the ready list empty, no thread is
ready or running, so the idle thread is blocked and can be woken, also if it is the caller.
-/

namespace GlowOS.Thread

open Program Links

/-! ## Represented lists -/

/-- The list element that puts a thread into a queue. -/
def Queue.tag : Queue → ℕ → Tag
  | .all, t => .allList t
  | _, t => .general t

theorem Queue.tag_injective (q : Queue) : Function.Injective q.tag := by
  intro t u h
  cases q <;> simpa [Queue.tag] using h

theorem Queue.tag_of_ne {q : Queue} (hq : q ≠ .all) (t : ℕ) : q.tag t = .general t := by
  cases q with
  | all => exact absurd rfl hq
  | _ => rfl

/-- The list elements represent the lists `qs`. -/
structure Rep (s : Threads) (qs : Queue → List ℕ) : Prop where
  holds : Holds s.tags fun q ↦ (qs q).map q.tag
  len : ∀ q, (qs q).length ≤ s.created

/-- The thread is in the queue. -/
def Threads.InQueue (s : Threads) (q : Queue) (t : ℕ) : Prop :=
  ∃ xs, s.tags.IsList (.head q) (.tail q) xs ∧ .elem (q.tag t) ∈ xs

section Rep

variable {s s' : Threads} {qs : Queue → List ℕ} {q : Queue} {t : ℕ} {ts : List ℕ}

theorem map_tag_update (qs : Queue → List ℕ) (q : Queue) (ts : List ℕ) :
    (fun q' ↦ (Function.update qs q ts q').map q'.tag) =
      Function.update (fun q' ↦ (qs q').map q'.tag) q (ts.map q.tag) := by
  funext q'
  by_cases hq : q' = q
  · subst hq
    simp
  · simp [hq]

namespace Rep

theorem mem_tag (t : ℕ) : q.tag t ∈ (qs q).map q.tag ↔ t ∈ qs q := by
  simp [q.tag_injective.eq_iff]

theorem inQueue_iff (h : Rep s qs) : s.InQueue q t ↔ t ∈ qs q := by
  constructor
  · rintro ⟨xs, hxs, hmem⟩
    obtain rfl := hxs.unique (h.holds.list q)
    simpa [q.tag_injective.eq_iff] using hmem
  · intro ht
    exact ⟨_, h.holds.list q, by simpa [q.tag_injective.eq_iff] using ht⟩

theorem nodup (h : Rep s qs) (q : Queue) : (qs q).Nodup :=
  (h.holds.nodup q).of_map _

theorem congr (h : Rep s qs) (htags : s'.tags = s.tags) (hc : s'.created = s.created) :
    Rep s' qs := ⟨by rw [htags]; exact h.holds, by rw [hc]; exact h.len⟩

/-- A thread is in one queue for its `general_tag`. -/
theorem disjoint (h : Rep s qs) {q q' : Queue} (hq : q ≠ .all) (hq' : q' ≠ .all) (ht : t ∈ qs q)
    (ht' : t ∈ qs q') : q = q' := by
  refine h.holds.disjoint (t := .general t) ?_ ?_
  · exact List.mem_map.mpr ⟨t, ht, q.tag_of_ne hq t⟩
  · exact List.mem_map.mpr ⟨t, ht', q'.tag_of_ne hq' t⟩

/-- The `general_tag` of a thread that is in no queue for it. -/
theorem general_free (ht : ∀ q ≠ .all, t ∉ qs q) (q : Queue) :
    Tag.general t ∉ (qs q).map q.tag := by
  cases q with
  | all => simp [Queue.tag]
  | ready => simpa [Queue.tag] using ht .ready (by simp)
  | waiters l => simpa [Queue.tag] using ht (.waiters l) (by simp)

theorem allList_free (ht : t ∉ qs .all) (q : Queue) : Tag.allList t ∉ (qs q).map q.tag := by
  cases q with
  | all => simpa [Queue.tag] using ht
  | _ => simp [Queue.tag]

theorem update_len (h : Rep s qs) (hts : ts.length ≤ s.created) (q' : Queue) :
    (Function.update qs q ts q').length ≤ s.created := by
  by_cases hq : q' = q
  · subst hq
    rwa [Function.update_self]
  · rw [Function.update_of_ne hq]
    exact h.len q'

theorem append (h : Rep s qs) (ht : ∀ q', q.tag t ∉ (qs q').map q'.tag)
    (hlen : (qs q).length < s.created) :
    Rep (s.setTags (s.tags.appendQueue q (q.tag t))) (Function.update qs q (qs q ++ [t])) := by
  refine ⟨?_, h.update_len (by simpa using hlen)⟩
  rw [map_tag_update, List.map_append]
  exact h.holds.append ht

theorem append_general (h : Rep s qs) (hq : q ≠ .all) (ht : ∀ q ≠ .all, t ∉ qs q)
    (hlen : (qs q).length < s.created) :
    Rep (s.setTags (s.tags.appendQueue q (.general t))) (Function.update qs q (qs q ++ [t])) := by
  rw [← q.tag_of_ne hq t]
  refine h.append (fun q' ↦ ?_) hlen
  rw [q.tag_of_ne hq t]
  exact general_free ht q'

theorem push_general (h : Rep s qs) (hq : q ≠ .all) (ht : ∀ q ≠ .all, t ∉ qs q)
    (hlen : (qs q).length < s.created) :
    Rep (s.setTags (s.tags.pushQueue q (.general t))) (Function.update qs q (t :: qs q)) := by
  refine ⟨?_, h.update_len (by simpa using hlen)⟩
  rw [map_tag_update, List.map_cons, q.tag_of_ne hq]
  exact h.holds.push (general_free ht)

theorem pop_general (h : Rep s qs) (hne : q ≠ .all) (hq : qs q = t :: ts) :
    Rep (s.setTags (s.tags.remove (.elem (.general t)))) (Function.update qs q ts) := by
  have hlen := h.len q
  rw [hq, List.length_cons] at hlen
  refine ⟨?_, h.update_len (by omega)⟩
  rw [map_tag_update, ← q.tag_of_ne hne]
  exact h.holds.pop (by rw [hq, List.map_cons])

theorem init (h : Rep s qs) (q : Queue) :
    Rep (s.setTags (s.tags.initQueue q)) (Function.update qs q []) := by
  refine ⟨?_, h.update_len (by simp)⟩
  rw [map_tag_update]
  exact h.holds.init q

/-! ### The list functions -/

theorem returns_elemFind (h : Rep s qs) (q : Queue) (t : ℕ) :
    Returns (elemFind q (q.tag t)) s (decide (t ∈ qs q)) s := by
  rw [elemFind, returns_get_bind]
  have hlen : ((qs q).map q.tag).length < s.created + 1 := by
    simpa using Nat.lt_succ_of_le (h.len q)
  have hfind := h.holds.find (q.tag t) hlen
  rw [Option.map_eq_some_iff] at hfind
  obtain ⟨r, hr, hsome⟩ := hfind
  rw [hr]
  refine returns_pure.mpr ⟨?_, rfl⟩
  rw [hsome, decide_eq_decide]
  exact (mem_tag t).symm

theorem returns_listEmpty (h : Rep s qs) (q : Queue) :
    Returns (listEmpty q) s (decide (qs q = [])) s := by
  rw [listEmpty, returns_get_bind]
  refine returns_pure.mpr ⟨?_, rfl⟩
  rw [Bool.eq_iff_iff, decide_eq_true_iff, beq_iff_eq, h.holds.next_head_eq_tail_iff,
    List.map_eq_nil_iff]

theorem returns_listPop (h : Rep s qs) (hne : q ≠ .all) (hq : qs q = t :: ts) :
    Returns (listPop q) s t (s.setTags (s.tags.remove (.elem (.general t)))) := by
  have hhead : s.tags.next (.head q) = .elem (q.tag t) :=
    h.holds.next_head (by rw [hq, List.map_cons])
  rw [listPop, returns_get_bind, returns_check_bind, hhead, q.tag_of_ne hne]
  refine ⟨by simp, ?_⟩
  simp only [returns_modify_bind]
  exact returns_pure.mpr ⟨rfl, rfl⟩

end Rep

end Rep

/-! ## The invariant -/

/-- What `schedule` relies on. The status of the running thread is open. -/
structure Mid (s : Threads) (qs : Queue → List ℕ) : Prop where
  rep : Rep s qs
  running_mem : s.running ∈ qs .all
  idle_mem : s.idleThread ∈ qs .all
  running_eq : ∀ t ∈ qs .all, (s.task t).status = .running → t = s.running
  ready_iff : ∀ t, t ∈ qs .ready ↔ t ∈ qs .all ∧ (s.task t).status = .ready
  waiting : ∀ l, ∀ t ∈ qs (.waiters l), t ∈ qs .all ∧ t ≠ s.idleThread ∧ (s.task t).status = .blocked
  not_died : ∀ t ∈ qs .all, (s.task t).status ≠ .died
  magic : ∀ t ∈ qs .all, (s.task t).stackMagic = stackMagic

/-- What holds between the calls of the scheduler. -/
structure QueueOk (s : Threads) (qs : Queue → List ℕ) : Prop extends Mid s qs where
  running_status : (s.task s.running).status = .running

section Sched

variable {s s' : Threads} {qs qs' : Queue → List ℕ} {q : Queue} {t : ℕ}

namespace Mid

/-- A queue with room for one more thread. -/
theorem queue_lt (h : Mid s qs) (hq : q ≠ .all) (ht : t ∈ qs .all) (hnot : t ∉ qs q) :
    (qs q).length < s.created := by
  have hnd : (t :: qs q).Nodup := List.nodup_cons.mpr ⟨hnot, h.rep.nodup q⟩
  have hsub : t :: qs q ⊆ qs .all := by
    intro u hu
    rcases List.mem_cons.mp hu with rfl | hu
    · exact ht
    · cases q with
      | ready => exact ((h.ready_iff u).mp hu).1
      | all => exact absurd rfl hq
      | waiters l => exact (h.waiting l u hu).1
  exact (hnd.subperm hsub).length_le.trans (h.rep.len .all)

/-- A thread that is neither ready nor waiting for a semaphore is in no queue. -/
theorem free (h : Mid s qs) (hready : (s.task t).status ≠ .ready)
    (hwait : ∀ l, t ∉ qs (.waiters l)) : ∀ q ≠ .all, t ∉ qs q := by
  intro q hq
  cases q with
  | ready => exact fun hmem ↦ hready ((h.ready_iff t).mp hmem).2
  | all => exact absurd rfl hq
  | waiters l => exact hwait l

/-- The status of one thread changes, and its place in the queues accordingly. -/
theorem set (h : Mid s qs) (hrep : Rep s' qs') (hrun : s'.running = s.running)
    (hidle : s'.idleThread = s.idleThread) (hall : qs' .all = qs .all)
    (htask : ∀ u ≠ t, s'.task u = s.task u) (hdied : (s'.task t).status ≠ .died)
    (hmagic : (s'.task t).stackMagic = (s.task t).stackMagic)
    (hrunning : (s'.task t).status = .running → t = s.running)
    (hready : ∀ u, u ∈ qs' .ready ↔ (u ≠ t ∧ u ∈ qs .ready) ∨
      (u = t ∧ t ∈ qs .all ∧ (s'.task t).status = .ready))
    (hwait : ∀ l, ∀ u ∈ qs' (.waiters l), (u ≠ t ∧ u ∈ qs (.waiters l)) ∨
      (u = t ∧ t ∈ qs .all ∧ t ≠ s.idleThread ∧ (s'.task t).status = .blocked)) : Mid s' qs' where
  rep := hrep
  running_mem := by
    rw [hrun, hall]
    exact h.running_mem
  idle_mem := by
    rw [hidle, hall]
    exact h.idle_mem
  running_eq u hu hst := by
    rw [hall] at hu
    rw [hrun]
    by_cases hut : u = t
    · subst hut
      exact hrunning hst
    · rw [htask u hut] at hst
      exact h.running_eq u hu hst
  ready_iff u := by
    rw [hready, hall]
    by_cases hut : u = t
    · subst hut
      simp
    · rw [htask u hut, h.ready_iff]
      simp [hut]
  waiting l u hu := by
    rw [hall, hidle]
    rcases hwait l u hu with ⟨hut, hmem⟩ | ⟨rfl, hmem⟩
    · rw [htask u hut]
      exact h.waiting l u hmem
    · exact hmem
  not_died u hu := by
    rw [hall] at hu
    by_cases hut : u = t
    · subst hut
      exact hdied
    · rw [htask u hut]
      exact h.not_died u hu
  magic u hu := by
    rw [hall] at hu
    by_cases hut : u = t
    · subst hut
      rw [hmagic]
      exact h.magic u hu
    · rw [htask u hut]
      exact h.magic u hu

end Mid

/-! ## What the functions leave alone -/

/-- The thread is ready or running. -/
def Threads.Awake (s : Threads) (t : ℕ) : Prop :=
  (s.task t).status = .ready ∨ (s.task t).status = .running

/-- What the functions of the scheduler leave alone. -/
structure Frame (s : Threads) (qs : Queue → List ℕ) (s' : Threads) (qs' : Queue → List ℕ) :
    Prop where
  queues : ∀ q ≠ .ready, qs' q = qs q
  lock : s'.lock = s.lock
  idleThread : s'.idleThread = s.idleThread
  mainThread : s'.mainThread = s.mainThread
  awake : ∀ t, s.Awake t → s'.Awake t
  asleep : ∀ t ≠ s.idleThread, ¬s.Awake t → s'.task t = s.task t
  pgdir : ∀ t, (s'.task t).pgdir = (s.task t).pgdir

/-- What `schedule` leaves alone: also the interrupt status of every thread. -/
structure Keeps (s : Threads) (qs : Queue → List ℕ) (s' : Threads) (qs' : Queue → List ℕ) :
    Prop extends Frame s qs s' qs' where
  created : s'.created = s.created
  resumes : s'.resumes = s.resumes
  intr : s'.intr = s.intr

theorem Frame.refl (s : Threads) (qs : Queue → List ℕ) : Frame s qs s qs :=
  ⟨fun _ _ ↦ rfl, rfl, rfl, rfl, fun _ h ↦ h, fun _ _ _ ↦ rfl, fun _ ↦ rfl⟩

theorem Frame.trans {s₁ : Threads} {qs₁ : Queue → List ℕ} (h : Frame s qs s₁ qs₁)
    (h' : Frame s₁ qs₁ s' qs') : Frame s qs s' qs' where
  queues q hq := (h'.queues q hq).trans (h.queues q hq)
  lock := h'.lock.trans h.lock
  idleThread := h'.idleThread.trans h.idleThread
  mainThread := h'.mainThread.trans h.mainThread
  awake t ht := h'.awake t (h.awake t ht)
  asleep t hidle ht := by
    have htask := h.asleep t hidle ht
    refine (h'.asleep t (h.idleThread ▸ hidle) ?_).trans htask
    rwa [Threads.Awake, htask]
  pgdir t := (h'.pgdir t).trans (h.pgdir t)

theorem Keeps.refl (s : Threads) (qs : Queue → List ℕ) : Keeps s qs s qs :=
  ⟨.refl s qs, rfl, rfl, rfl⟩

theorem Keeps.trans {s₁ : Threads} {qs₁ : Queue → List ℕ} (h : Keeps s qs s₁ qs₁)
    (h' : Keeps s₁ qs₁ s' qs') : Keeps s qs s' qs' :=
  ⟨h.toFrame.trans h'.toFrame, h'.created.trans h.created, h'.resumes.trans h.resumes,
    h'.intr.trans h.intr⟩

/-- One thread becomes ready or running, which was so before or is the idle thread. -/
theorem Frame.setTask (p : TaskStruct) (htask : s'.task = Function.update s.task t p)
    (hst : p.status = .ready ∨ p.status = .running) (ht : s.Awake t ∨ t = s.idleThread)
    (hpgdir : p.pgdir = (s.task t).pgdir) (hqs : ∀ q ≠ .ready, qs' q = qs q)
    (hlock : s'.lock = s.lock) (hidle : s'.idleThread = s.idleThread)
    (hmain : s'.mainThread = s.mainThread) : Frame s qs s' qs' where
  queues := hqs
  lock := hlock
  idleThread := hidle
  mainThread := hmain
  awake u hu := by
    rw [Threads.Awake, htask]
    by_cases hut : u = t
    · rwa [hut, Function.update_self]
    · rwa [Function.update_of_ne hut]
  asleep u hu hnot := by
    have hut : u ≠ t := by
      rintro rfl
      exact ht.elim hnot hu
    rw [htask, Function.update_of_ne hut]
  pgdir u := by
    rw [htask]
    by_cases hut : u = t
    · rw [hut, Function.update_self, hpgdir]
    · rw [Function.update_of_ne hut]

/-! ## Waking a thread -/

theorem returns_intrDisable {r : Bool} :
    Returns intrDisable s r s' ↔ r = s.intr ∧ s' = s.setIntr false := by
  rw [intrDisable, returns_get_bind, returns_modify_bind, returns_pure]

/-- The state after a thread was woken. -/
def Threads.unblocked (s : Threads) (t : ℕ) : Threads :=
  (s.setTags (s.tags.pushQueue .ready (.general t))).setTask t { s.task t with status := .ready }

/-- `thread_unblock` puts a blocked thread in front of the ready list. -/
theorem Mid.returns_threadUnblock (h : Mid s qs) (hst : (s.task t).status.IsBlocked) :
    Returns (threadUnblock t) s PUnit.unit (s.unblocked t) := by
  have hne : (s.task t).status ≠ .ready := by
    rcases hst with hst | hst | hst <;> rw [hst] <;> decide
  have hnot : t ∉ qs .ready := fun hmem ↦ hne ((h.ready_iff t).mp hmem).2
  have hrep : Rep (s.setIntr false) qs := h.rep.congr rfl rfl
  have hfind := hrep.returns_elemFind .ready t
  rw [decide_eq_false hnot] at hfind
  rw [threadUnblock]
  refine returns_bind.mpr ⟨_, _, returns_intrDisable.mpr ⟨rfl, rfl⟩, ?_⟩
  rw [returns_get_bind, returns_check_bind]
  refine ⟨hst, ?_⟩
  refine returns_ite.mpr (Or.inl ⟨hne, ?_⟩)
  refine returns_bind.mpr ⟨_, _, hfind, ?_⟩
  rw [returns_check_bind]
  exact ⟨rfl, rfl⟩

/-- A thread that is in no queue enters the ready list. -/
theorem Mid.enqueued (h : Mid s qs) (p : TaskStruct) {ts : List ℕ} {l : Links (QNode Queue Tag)}
    (ht : t ∈ qs .all) (hp : p.status = .ready) (hmagic : p.stackMagic = (s.task t).stackMagic)
    (hwait : ∀ l, t ∉ qs (.waiters l)) (hts : ∀ u, u ∈ ts ↔ u = t ∨ u ∈ qs .ready)
    (hrep : Rep (s.setTags l) (Function.update qs .ready ts)) :
    Mid ((s.setTags l).setTask t p) (Function.update qs .ready ts) := by
  have hself : (((s.setTags l).setTask t p).task t) = p := by simp
  refine h.set (t := t) (hrep.congr rfl rfl) rfl rfl (Function.update_of_ne (by decide) ..)
    ?_ ?_ ?_ ?_ ?_ ?_
  · exact fun u hu ↦ Function.update_of_ne hu ..
  · rw [hself, hp]
    decide
  · rw [hself, hmagic]
  · rw [hself, hp]
    nofun
  · intro u
    rw [Function.update_self, hself, hts]
    by_cases hut : u = t
    · simp [hut, ht, hp]
    · simp [hut]
  · intro l u hu
    rw [Function.update_of_ne (by simp)] at hu
    exact Or.inl ⟨fun hut ↦ hwait l (hut ▸ hu), hu⟩

theorem Mid.unblocked (h : Mid s qs) (ht : t ∈ qs .all) (hst : (s.task t).status.IsBlocked)
    (hwait : ∀ l, t ∉ qs (.waiters l)) :
    Mid (s.unblocked t) (Function.update qs .ready (t :: qs .ready)) := by
  have hne : (s.task t).status ≠ .ready := by
    rcases hst with hst | hst | hst <;> rw [hst] <;> decide
  have hnot : t ∉ qs .ready := fun hmem ↦ hne ((h.ready_iff t).mp hmem).2
  refine h.enqueued _ ht rfl rfl hwait (fun u ↦ by rw [List.mem_cons]) ?_
  exact h.rep.push_general (by decide) (h.free hne hwait) (h.queue_lt (by decide) ht hnot)

theorem Keeps.unblocked (ht : s.Awake t ∨ t = s.idleThread) :
    Keeps s qs (s.unblocked t) (Function.update qs .ready (t :: qs .ready)) :=
  ⟨.setTask { s.task t with status := .ready } rfl (Or.inl rfl) ht rfl
    (fun _ hq ↦ Function.update_of_ne hq ..) rfl rfl rfl, rfl, rfl, rfl⟩

/-! ## Choosing the next thread -/

/-- The state after a thread was put behind the ready threads. -/
def Threads.requeued (s : Threads) (t : ℕ) (p : TaskStruct) : Threads :=
  (s.setTags (s.tags.appendQueue .ready (.general t))).setTask t p

/-- A running thread is in no queue. -/
theorem Mid.running_free (h : Mid s qs) (hst : (s.task t).status = .running) :
    t ∉ qs .ready ∧ ∀ l, t ∉ qs (.waiters l) := by
  constructor
  · intro hmem
    have hready := ((h.ready_iff t).mp hmem).2
    rw [hst] at hready
    cases hready
  · intro l hmem
    have hblocked := (h.waiting l t hmem).2.2
    rw [hst] at hblocked
    cases hblocked

theorem Mid.requeued (h : Mid s qs) {p : TaskStruct} (ht : t ∈ qs .all)
    (hst : (s.task t).status = .running) (hp : p.status = .ready)
    (hmagic : p.stackMagic = (s.task t).stackMagic) :
    Mid (s.requeued t p) (Function.update qs .ready (qs .ready ++ [t])) := by
  obtain ⟨hnot, hwait⟩ := h.running_free hst
  refine h.enqueued p ht hp hmagic hwait (fun u ↦ by simp [or_comm]) ?_
  refine h.rep.append_general (by decide) (h.free ?_ hwait) (h.queue_lt (by decide) ht hnot)
  rw [hst]
  decide

theorem Keeps.requeued {p : TaskStruct} (hst : (s.task t).status = .running)
    (hp : p.status = .ready) (hpgdir : p.pgdir = (s.task t).pgdir) :
    Keeps s qs (s.requeued t p) (Function.update qs .ready (qs .ready ++ [t])) :=
  ⟨.setTask p rfl (Or.inl hp) (Or.inl (Or.inr hst)) hpgdir
    (fun _ hq ↦ Function.update_of_ne hq ..) rfl rfl rfl, rfl, rfl, rfl⟩

/-- `list_empty` of a list that is not empty. -/
theorem Rep.returns_listEmpty_false (h : Rep s qs) (hq : qs q ≠ []) :
    Returns (listEmpty q) s false s := by
  have hempty := h.returns_listEmpty q
  rwa [decide_eq_false hq] at hempty

/-- When no thread is running, `wakeIdle` leaves a ready list that is not empty. The idle thread is
blocked if no thread is ready. -/
theorem Mid.wakeIdle (h : Mid s qs) (hno : ∀ t ∈ qs .all, (s.task t).status ≠ .running) :
    ∃ s' qs', Returns wakeIdle s PUnit.unit s' ∧ Mid s' qs' ∧ Keeps s qs s' qs' ∧
      qs' .ready ≠ [] ∧ ∀ t ∈ qs' .all, (s'.task t).status ≠ .running := by
  by_cases hempty : qs .ready = []
  · have hst : (s.task s.idleThread).status.IsBlocked := by
      have h1 := hno _ h.idle_mem
      have h2 := h.not_died _ h.idle_mem
      have h3 : (s.task s.idleThread).status ≠ .ready := by
        intro hready
        have hmem := (h.ready_iff _).mpr ⟨h.idle_mem, hready⟩
        rw [hempty] at hmem
        cases hmem
      cases hs : (s.task s.idleThread).status with
      | running => exact absurd hs h1
      | ready => exact absurd hs h3
      | died => exact absurd hs h2
      | blocked => exact Or.inl rfl
      | waiting => exact Or.inr (Or.inl rfl)
      | hanging => exact Or.inr (Or.inr rfl)
    have hwait : ∀ l, s.idleThread ∉ qs (.waiters l) := fun l hmem ↦ (h.waiting l _ hmem).2.1 rfl
    refine ⟨_, _, ?_, h.unblocked h.idle_mem hst hwait, .unblocked (Or.inr rfl), ?_, ?_⟩
    · have hret := h.rep.returns_listEmpty .ready
      rw [decide_eq_true hempty] at hret
      exact returns_bind.mpr ⟨_, _, hret, h.returns_threadUnblock hst⟩
    · rw [Function.update_self]
      simp
    · intro t ht
      rw [Function.update_of_ne (by decide)] at ht
      by_cases hti : t = s.idleThread
      · simp [Threads.unblocked, hti]
      · simpa [Threads.unblocked, hti] using hno t ht
  · exact ⟨s, qs, returns_bind.mpr ⟨_, _, h.rep.returns_listEmpty_false hempty,
      returns_pure.mpr ⟨rfl, rfl⟩⟩, h, .refl s qs, hempty, hno⟩

/-- The state after the thread `t` was taken from the ready list and got the processor. -/
def Threads.switched (s : Threads) (t : ℕ) : Threads :=
  let s := s.setTags (s.tags.remove (.elem (.general t)))
  let s := s.setTask t { s.task t with status := .running }
  { s with cr3 := (s.task t).pgdir, running := t }

theorem Mid.switched (h : Mid s qs) {ts : List ℕ} (hq : qs .ready = t :: ts)
    (hno : ∀ t ∈ qs .all, (s.task t).status ≠ .running) :
    QueueOk (s.switched t) (Function.update qs .ready ts) := by
  obtain ⟨ht, hready⟩ := (h.ready_iff t).mp (by rw [hq]; exact List.mem_cons_self)
  have hnd := h.rep.nodup .ready
  rw [hq, List.nodup_cons] at hnd
  have hall : Function.update qs .ready ts .all = qs .all := Function.update_of_ne (by decide) ..
  have hself : (s.switched t).task t = { s.task t with status := .running } :=
    Function.update_self ..
  have hother : ∀ u ≠ t, (s.switched t).task u = s.task u := fun u hu ↦ Function.update_of_ne hu ..
  constructor
  · constructor
    · exact (h.rep.pop_general (by decide) hq).congr rfl rfl
    · rw [hall]
      exact ht
    · rw [hall]
      exact h.idle_mem
    · intro u hu hst
      rw [hall] at hu
      by_contra hut
      rw [hother u hut] at hst
      exact hno u hu hst
    · intro u
      rw [Function.update_self, hall]
      by_cases hut : u = t
      · subst hut
        rw [hself]
        simp [hnd.1]
      · rw [hother u hut, ← h.ready_iff, hq, List.mem_cons]
        simp [hut]
    · intro l u hu
      rw [Function.update_of_ne (by simp)] at hu
      obtain ⟨h1, h2, h3⟩ := h.waiting l u hu
      have hut : u ≠ t := by
        rintro rfl
        rw [hready] at h3
        cases h3
      rw [hall, hother u hut]
      exact ⟨h1, h2, h3⟩
    · intro u hu
      rw [hall] at hu
      by_cases hut : u = t
      · subst hut
        rw [hself]
        nofun
      · rw [hother u hut]
        exact h.not_died u hu
    · intro u hu
      rw [hall] at hu
      by_cases hut : u = t
      · subst hut
        rw [hself]
        exact h.magic u hu
      · rw [hother u hut]
        exact h.magic u hu
  · exact congrArg TaskStruct.status hself

theorem Keeps.switched {ts : List ℕ} (hst : (s.task t).status = .ready) :
    Keeps s qs (s.switched t) (Function.update qs .ready ts) :=
  ⟨.setTask { s.task t with status := .running } rfl (Or.inr rfl) (Or.inl (Or.inl hst)) rfl
    (fun _ hq ↦ Function.update_of_ne hq ..) rfl rfl rfl, rfl, rfl, rfl⟩

/-- What `schedule` achieves: another thread may be running, and its page directory is loaded. -/
structure Scheduled (s : Threads) (qs : Queue → List ℕ) (s' : Threads) (qs' : Queue → List ℕ) :
    Prop where
  ok : QueueOk s' qs'
  keeps : Keeps s qs s' qs'
  cr3 : s'.cr3 = (s'.task s'.running).pgdir

/-- When no thread is running, `schedule` finds one. -/
theorem Mid.scheduleNext (h : Mid s qs) (hno : ∀ t ∈ qs .all, (s.task t).status ≠ .running) :
    ∃ s' qs', Returns scheduleNext s PUnit.unit s' ∧ Scheduled s qs s' qs' := by
  obtain ⟨s₁, qs₁, hwake, h₁, hkeeps, hne, hno₁⟩ := h.wakeIdle hno
  obtain ⟨t, ts, hq⟩ := List.exists_cons_of_ne_nil hne
  have hready := ((h₁.ready_iff t).mp (by rw [hq]; exact List.mem_cons_self)).2
  refine ⟨s₁.switched t, _, ?_, h₁.switched hq hno₁, hkeeps.trans (.switched hready), ?_⟩
  · refine returns_bind.mpr ⟨_, _, hwake, ?_⟩
    refine returns_bind.mpr ⟨_, _, h₁.rep.returns_listEmpty_false hne, ?_⟩
    rw [returns_check_bind]
    refine ⟨rfl, ?_⟩
    exact returns_bind.mpr ⟨_, _, h₁.rep.returns_listPop (by decide) hq, rfl⟩
  · simp [Threads.switched]

/-- **`schedule` does not fail**, whatever the status of the thread that calls it. -/
theorem Mid.schedule (h : Mid s qs) (hintr : s.intr = false) :
    ∃ s' qs', Returns schedule s PUnit.unit s' ∧ Scheduled s qs s' qs' := by
  by_cases hst : (s.task s.running).status = .running
  · have hnot := (h.running_free hst).1
    have hfind := h.rep.returns_elemFind .ready s.running
    rw [decide_eq_false hnot] at hfind
    let p := { s.task s.running with status := .ready, ticks := (s.task s.running).priority }
    have hno : ∀ t ∈ Function.update qs .ready (qs .ready ++ [s.running]) .all,
        ((s.requeued s.running p).task t).status ≠ .running := by
      intro t ht hrun
      rw [Function.update_of_ne (by decide)] at ht
      by_cases hts : t = s.running
      · simp [Threads.requeued, hts, p] at hrun
      · refine hts (h.running_eq t ht ?_)
        simpa [Threads.requeued, hts] using hrun
    have h₁ := h.requeued (p := p) h.running_mem hst rfl rfl
    obtain ⟨s', qs', hret, hsched⟩ := h₁.scheduleNext hno
    have hkeeps : Keeps s qs (s.requeued s.running p) _ := .requeued hst rfl rfl
    refine ⟨s', qs', ?_, hsched.ok, hkeeps.trans hsched.keeps, hsched.cr3⟩
    rw [Thread.schedule, returns_get_bind, returns_check_bind]
    refine ⟨hintr, returns_ite.mpr (Or.inl ⟨hst, ?_⟩)⟩
    refine returns_bind.mpr ⟨PUnit.unit, _, ?_, hret⟩
    refine returns_bind.mpr ⟨_, _, hfind, ?_⟩
    rw [returns_check_bind]
    exact ⟨rfl, rfl⟩
  · have hno : ∀ t ∈ qs .all, (s.task t).status ≠ .running :=
      fun t ht hrun ↦ hst (h.running_eq t ht hrun ▸ hrun)
    obtain ⟨s', qs', hret, hsched⟩ := h.scheduleNext hno
    refine ⟨s', qs', ?_, hsched⟩
    rw [Thread.schedule, returns_get_bind, returns_check_bind]
    exact ⟨hintr, returns_ite.mpr (Or.inr ⟨hst, hret⟩)⟩

/-! ## Calls of the scheduler -/

theorem Mid.congr (h : Mid s qs) (htask : s'.task = s.task) (htags : s'.tags = s.tags)
    (hrun : s'.running = s.running) (hidle : s'.idleThread = s.idleThread)
    (hcreated : s'.created = s.created) : Mid s' qs where
  rep := h.rep.congr htags hcreated
  running_mem := by rw [hrun]; exact h.running_mem
  idle_mem := by rw [hidle]; exact h.idle_mem
  running_eq := by rw [htask, hrun]; exact h.running_eq
  ready_iff := by rw [htask]; exact h.ready_iff
  waiting := by rw [htask, hidle]; exact h.waiting
  not_died := by rw [htask]; exact h.not_died
  magic := by rw [htask]; exact h.magic

theorem QueueOk.congr (h : QueueOk s qs) (htask : s'.task = s.task) (htags : s'.tags = s.tags)
    (hrun : s'.running = s.running) (hidle : s'.idleThread = s.idleThread)
    (hcreated : s'.created = s.created) : QueueOk s' qs :=
  ⟨h.toMid.congr htask htags hrun hidle hcreated, by rw [htask, hrun]; exact h.running_status⟩

/-- The calling thread leaves, and the one that runs then goes on with its own interrupt status. -/
theorem Mid.scheduleFrom (h : Mid s qs) (hintr : s.intr = false) (old : Bool) :
    ∃ s' qs', Returns (scheduleFrom old) s PUnit.unit s' ∧ QueueOk s' qs' ∧ Frame s qs s' qs' ∧
      s'.cr3 = (s'.task s'.running).pgdir := by
  let s₁ := { s with resumes := Function.update s.resumes s.running old }
  have h₁ : Mid s₁ qs := h.congr rfl rfl rfl rfl rfl
  obtain ⟨s₂, qs', hret, hok, hkeeps, hcr3⟩ := h₁.schedule hintr
  refine ⟨s₂.setIntr (s₂.resumes s₂.running), qs', ?_, hok.congr rfl rfl rfl rfl rfl, ?_, hcr3⟩
  · rw [Thread.scheduleFrom, returns_modify_bind]
    refine returns_bind.mpr ⟨_, _, hret, ?_⟩
    rw [returns_get_bind]
    rfl
  · exact ⟨hkeeps.queues, hkeeps.lock, hkeeps.idleThread, hkeeps.mainThread, hkeeps.awake,
      hkeeps.asleep, hkeeps.pgdir⟩

/-- The state in which a thread calls `schedule` from `thread_block`. -/
def Threads.blocking (s : Threads) (stat : TaskStatus) : Threads :=
  (s.setIntr false).setTask s.running { s.task s.running with status := stat }

theorem Mid.threadBlock {stat : TaskStatus} (h : Mid (s.blocking stat) qs)
    (hst : stat.IsBlocked) : ∃ s' qs', Returns (threadBlock stat) s PUnit.unit s' ∧
      QueueOk s' qs' ∧ Frame (s.blocking stat) qs s' qs' ∧
      s'.cr3 = (s'.task s'.running).pgdir := by
  obtain ⟨s', qs', hret, hout⟩ := h.scheduleFrom rfl s.intr
  refine ⟨s', qs', ?_, hout⟩
  rw [Thread.threadBlock, returns_check_bind]
  refine ⟨hst, returns_bind.mpr ⟨_, _, returns_intrDisable.mpr ⟨rfl, rfl⟩, ?_⟩⟩
  rw [returns_get_bind]
  exact returns_bind.mpr ⟨PUnit.unit, _, returns_modify.mpr rfl, hret⟩

/-- The running thread changes its own `task_struct`: it is in no queue. -/
theorem QueueOk.setRunning (h : QueueOk s qs) (p : TaskStruct) (hready : p.status ≠ .ready)
    (hdied : p.status ≠ .died) (hmagic : p.stackMagic = (s.task s.running).stackMagic) :
    Mid (s.setTask s.running p) qs := by
  obtain ⟨hnot, hwait⟩ := h.running_free h.running_status
  have hself : (s.setTask s.running p).task s.running = p := Function.update_self ..
  refine h.toMid.set (t := s.running) (h.rep.congr rfl rfl) rfl rfl rfl
    (fun u hu ↦ Function.update_of_ne hu ..) ?_ ?_ (fun _ ↦ rfl) ?_ ?_
  · rwa [hself]
  · rw [hself, hmagic]
  · intro u
    rw [hself]
    by_cases hut : u = s.running
    · simp [hut, hnot, hready]
    · simp [hut]
  · exact fun l u hu ↦ Or.inl ⟨fun hut ↦ hwait l (hut ▸ hu), hu⟩

theorem QueueOk.blocking (h : QueueOk s qs) {stat : TaskStatus} (hst : stat.IsBlocked) :
    Mid (s.blocking stat) qs := by
  have hready : stat ≠ .ready := by rcases hst with rfl | rfl | rfl <;> decide
  have hdied : stat ≠ .died := by rcases hst with rfl | rfl | rfl <;> decide
  exact (h.setRunning { s.task s.running with status := stat } hready hdied rfl).congr
    rfl rfl rfl rfl rfl

/-- **`thread_yield`** does not fail. -/
theorem QueueOk.threadYield (h : QueueOk s qs) :
    ∃ s' qs', Returns threadYield s PUnit.unit s' ∧ QueueOk s' qs' ∧ Frame s qs s' qs' ∧
      s'.cr3 = (s'.task s'.running).pgdir := by
  let p := { s.task s.running with status := .ready }
  have hst := h.running_status
  have hoff : QueueOk (s.setIntr false) qs := h.congr rfl rfl rfl rfl rfl
  have hfind := hoff.rep.returns_elemFind .ready s.running
  rw [decide_eq_false (h.running_free hst).1] at hfind
  have h₁ := hoff.toMid.requeued (p := p) h.running_mem hst rfl rfl
  obtain ⟨s', qs', hret, hok, hframe, hcr3⟩ := h₁.scheduleFrom rfl s.intr
  have hrequeued : Frame s qs ((s.setIntr false).requeued s.running p)
      (Function.update qs .ready (qs .ready ++ [s.running])) :=
    .setTask p rfl (Or.inl rfl) (Or.inl (Or.inr hst)) rfl
      (fun _ hq ↦ Function.update_of_ne hq ..) rfl rfl rfl
  refine ⟨s', qs', ?_, hok, hrequeued.trans hframe, hcr3⟩
  rw [Thread.threadYield]
  refine returns_bind.mpr ⟨_, _, returns_intrDisable.mpr ⟨rfl, rfl⟩, ?_⟩
  rw [returns_get_bind]
  refine returns_bind.mpr ⟨_, _, hfind, ?_⟩
  rw [returns_check_bind]
  exact ⟨rfl, hret⟩

/-- The running thread's time is counted. -/
theorem QueueOk.setTime (h : QueueOk s qs) (p : TaskStruct)
    (hst : p.status = (s.task s.running).status)
    (hmagic : p.stackMagic = (s.task s.running).stackMagic) :
    QueueOk (s.setTask s.running p) qs := by
  have hrun : p.status = .running := hst.trans h.running_status
  refine ⟨h.setRunning p ?_ ?_ hmagic, ?_⟩
  · rw [hrun]
    decide
  · rw [hrun]
    decide
  · simp [hrun]

theorem Frame.setIntr (b : Bool) : Frame s qs (s.setIntr b) qs :=
  ⟨fun _ _ ↦ rfl, rfl, rfl, rfl, fun _ ht ↦ ht, fun _ _ _ ↦ rfl, fun _ ↦ rfl⟩

theorem Frame.setTime (h : QueueOk s qs) (p : TaskStruct)
    (hst : p.status = (s.task s.running).status)
    (hpgdir : p.pgdir = (s.task s.running).pgdir) : Frame s qs (s.setTask s.running p) qs :=
  .setTask p rfl (Or.inr (hst.trans h.running_status)) (Or.inl (Or.inr h.running_status)) hpgdir
    (fun _ _ ↦ rfl) rfl rfl rfl

/-- **`intr_timer_handler`** does not fail. -/
theorem QueueOk.intrTimerHandler (h : QueueOk s qs) :
    ∃ s' qs', Returns intrTimerHandler s PUnit.unit s' ∧ QueueOk s' qs' ∧ Frame s qs s' qs' ∧
      (s'.running = s.running ∧ s'.cr3 = s.cr3 ∨ s'.cr3 = (s'.task s'.running).pgdir) := by
  let p := { s.task s.running with elapsedTicks := ((s.task s.running).elapsedTicks + 1) % 2 ^ 32 }
  have hoff : QueueOk (s.setIntr false) qs := h.congr rfl rfl rfl rfl rfl
  have h₁ := hoff.setTime p rfl rfl
  have hframe : Frame s qs ((s.setIntr false).setTask s.running p) qs :=
    (Frame.setIntr false).trans (.setTime hoff p rfl rfl)
  have hstart : ∀ {s' : Threads}, Returns (if (s.task s.running).ticks = 0 then scheduleFrom s.intr
      else do
        modify fun s ↦ s.setTask s.running
          { s.task s.running with ticks := (s.task s.running).ticks - 1 }
        intrSetStatus s.intr) ((s.setIntr false).setTask s.running p) PUnit.unit s' →
      Returns Thread.intrTimerHandler s PUnit.unit s' := by
    intro s' hret
    rw [Thread.intrTimerHandler]
    refine returns_bind.mpr ⟨_, _, returns_intrDisable.mpr ⟨rfl, rfl⟩, ?_⟩
    rw [returns_get_bind, returns_check_bind]
    exact ⟨h.magic _ h.running_mem, hret⟩
  by_cases hticks : (s.task s.running).ticks = 0
  · obtain ⟨s', qs', hret, hok, hframe', hcr3⟩ := h₁.toMid.scheduleFrom rfl s.intr
    exact ⟨s', qs', hstart (returns_ite.mpr (Or.inl ⟨hticks, hret⟩)), hok, hframe.trans hframe',
      Or.inr hcr3⟩
  · let s₁ := (s.setIntr false).setTask s.running p
    let p₁ := { s₁.task s.running with ticks := (s₁.task s.running).ticks - 1 }
    refine ⟨(s₁.setTask s.running p₁).setIntr s.intr, qs, hstart (returns_ite.mpr
      (Or.inr ⟨hticks, rfl⟩)), (h₁.setTime p₁ rfl rfl).congr rfl rfl rfl rfl rfl, ?_,
      Or.inl ⟨rfl, rfl⟩⟩
    exact (hframe.trans (.setTime h₁ p₁ rfl rfl)).trans (.setIntr s.intr)

/-! ## New threads -/

/-- The state after `init_thread`. -/
def Threads.initialized (s : Threads) (t prio : ℕ) : Threads :=
  { s.clearTags t with created := s.created + 1 }.setTask t
    { status := if s.mainThread = some t then .running else .ready
      priority := prio
      ticks := prio
      elapsedTicks := 0
      pgdir := none
      stackMagic := stackMagic }

/-- Clearing the list elements of a thread that is in no list. -/
theorem Rep.clearTags (h : Rep s qs) (ht : ∀ q, t ∉ qs q) : Rep (s.clearTags t) qs := by
  have hne : ∀ x : QNode Queue Tag,
      (∀ e, x = .elem e → ∃ q, e ∈ (fun q ↦ (qs q).map q.tag) q) →
      x ≠ .elem (.general t) ∧ x ≠ .elem (.allList t) := by
    intro x hx
    constructor
    · rintro rfl
      obtain ⟨q, hq⟩ := hx _ rfl
      exact general_free (fun q _ ↦ ht q) q hq
    · rintro rfl
      obtain ⟨q, hq⟩ := hx _ rfl
      exact allList_free (ht .all) q hq
  refine ⟨h.holds.congr ?_ ?_, h.len⟩
  · intro x hx
    obtain ⟨h1, h2⟩ := hne x hx
    exact (Function.update_of_ne h2 ..).trans (Function.update_of_ne h1 ..)
  · intro x hx
    obtain ⟨h1, h2⟩ := hne x hx
    exact (Function.update_of_ne h2 ..).trans (Function.update_of_ne h1 ..)

theorem Rep.initialized (h : Rep s qs) (ht : ∀ q, t ∉ qs q) (prio : ℕ) :
    Rep (s.initialized t prio) qs :=
  ⟨(h.clearTags ht).holds, fun q ↦ (h.len q).trans (Nat.le_succ _)⟩

theorem Rep.returns_enlist (h : Rep s qs) (hq : t ∉ qs q) :
    Returns (enlist q (q.tag t)) s PUnit.unit (s.setTags (s.tags.appendQueue q (q.tag t))) := by
  have hfind := h.returns_elemFind q t
  rw [decide_eq_false hq] at hfind
  refine returns_bind.mpr ⟨_, _, hfind, ?_⟩
  rw [returns_check_bind]
  exact ⟨rfl, rfl⟩

/-- The lists with a new thread at the end of the ready list and of the list of all threads. -/
def withThread (qs : Queue → List ℕ) (t : ℕ) : Queue → List ℕ :=
  Function.update (Function.update qs .ready (qs .ready ++ [t])) .all (qs .all ++ [t])

/-- A thread that is in no list enters the two lists. -/
theorem Rep.enlisted (h : Rep s qs) (ht : ∀ q, t ∉ qs q) (hlen : ∀ q, (qs q).length < s.created) :
    ∃ l, Returns (do
        enlist .ready (.general t)
        enlist .all (.allList t)) s PUnit.unit (s.setTags l) ∧ Rep (s.setTags l) (withThread qs t) := by
  have h₁ := h.append_general (q := .ready) (by decide) (fun q _ ↦ ht q) (hlen .ready)
  have hall : t ∉ Function.update qs .ready (qs .ready ++ [t]) .all := by
    rw [Function.update_of_ne (by decide)]
    exact ht .all
  have hlen₁ : (Function.update qs .ready (qs .ready ++ [t]) .all).length < s.created := by
    rw [Function.update_of_ne (by decide)]
    exact hlen .all
  have h₂ := h₁.append (q := .all) (Rep.allList_free hall) hlen₁
  refine ⟨_, returns_bind.mpr ⟨_, _, h.returns_enlist (ht .ready), h₁.returns_enlist hall⟩, ?_⟩
  rw [Function.update_of_ne (by decide)] at h₂
  exact h₂

/-- The thread `t` is new, with the status `st`; the others are as they were. -/
structure NewThread (s : Threads) (t : ℕ) (st : TaskStatus) (s' : Threads) : Prop where
  running : s'.running = s.running
  idleThread : s'.idleThread = s.idleThread
  mainThread : s'.mainThread = s.mainThread
  other : ∀ u ≠ t, s'.task u = s.task u
  status : (s'.task t).status = st
  magic : (s'.task t).stackMagic = stackMagic

theorem Rep.threadStart (h : Rep s qs) (ht : ∀ q, t ∉ qs q) (hmain : s.mainThread ≠ some t)
    (prio : ℕ) : ∃ s', Returns (threadStart t prio) s PUnit.unit s' ∧ Rep s' (withThread qs t) ∧
      NewThread s t .ready s' := by
  let s₁ : Threads := { s.initialized t prio with resumes := Function.update s.resumes t true }
  have h₁ : Rep s₁ qs := (h.initialized ht prio).congr rfl rfl
  obtain ⟨l, hret, hrep⟩ := h₁.enlisted ht fun q ↦ Nat.lt_succ_of_le (h.len q)
  refine ⟨s₁.setTags l, hret, hrep, rfl, rfl, rfl, fun u hu ↦ Function.update_of_ne hu .., ?_, ?_⟩
  · simp [s₁, Threads.initialized, hmain]
  · simp [s₁, Threads.initialized]

/-- **`thread_start`** does not fail and makes the new thread ready. -/
theorem QueueOk.threadStart (h : QueueOk s qs) (ht : t ∉ qs .all) (hmain : s.mainThread ≠ some t)
    (prio : ℕ) : ∃ s', Returns (threadStart t prio) s PUnit.unit s' ∧
      QueueOk s' (withThread qs t) ∧ s'.mainThread = s.mainThread := by
  have hfree : ∀ q, t ∉ qs q := by
    intro q
    cases q with
    | ready => exact fun hmem ↦ ht ((h.ready_iff t).mp hmem).1
    | all => exact ht
    | waiters l => exact fun hmem ↦ ht (h.waiting l t hmem).1
  obtain ⟨s', hret, hrep, hnew⟩ := h.rep.threadStart hfree hmain prio
  have hne : ∀ u ∈ qs .all, u ≠ t := fun u hu heq ↦ ht (heq ▸ hu)
  have hall : withThread qs t .all = qs .all ++ [t] := Function.update_self ..
  have hready : withThread qs t .ready = qs .ready ++ [t] := by
    simp [withThread]
  refine ⟨s', hret, ⟨⟨hrep, ?_, ?_, ?_, ?_, ?_, ?_, ?_⟩, ?_⟩, hnew.mainThread⟩
  · rw [hall, hnew.running]
    exact List.mem_append_left _ h.running_mem
  · rw [hall, hnew.idleThread]
    exact List.mem_append_left _ h.idle_mem
  · intro u hu hst
    rw [hall] at hu
    rw [hnew.running]
    rcases List.mem_append.mp hu with hu | hu
    · rw [hnew.other u (hne u hu)] at hst
      exact h.running_eq u hu hst
    · rw [List.mem_singleton.mp hu, hnew.status] at hst
      cases hst
  · intro u
    rw [hall, hready, List.mem_append, List.mem_append, List.mem_singleton]
    by_cases hut : u = t
    · subst hut
      exact ⟨fun _ ↦ ⟨Or.inr rfl, hnew.status⟩, fun _ ↦ Or.inr rfl⟩
    · rw [hnew.other u hut, h.ready_iff]
      simp [hut]
  · intro i u hu
    rw [withThread, Function.update_of_ne (by simp), Function.update_of_ne (by simp)] at hu
    obtain ⟨h1, h2, h3⟩ := h.waiting i u hu
    rw [hall, hnew.idleThread, hnew.other u (hne u h1)]
    exact ⟨List.mem_append_left _ h1, h2, h3⟩
  · intro u hu
    rw [hall] at hu
    rcases List.mem_append.mp hu with hu | hu
    · rw [hnew.other u (hne u hu)]
      exact h.not_died u hu
    · rw [List.mem_singleton.mp hu, hnew.status]
      decide
  · intro u hu
    rw [hall] at hu
    rcases List.mem_append.mp hu with hu | hu
    · rw [hnew.other u (hne u hu)]
      exact h.magic u hu
    · rw [List.mem_singleton.mp hu]
      exact hnew.magic
  · rw [hnew.running, hnew.other _ (hne _ h.running_mem)]
    exact h.running_status

end Sched

end GlowOS.Thread
