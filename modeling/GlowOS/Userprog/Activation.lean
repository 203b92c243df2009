import Mathlib
import GlowOS.Thread.Lock

/-!
# Page directories and the scheduler

`schedule` puts the page directory of the next thread into `CR3`, and reads it from `pgdir` in the
`task_struct`. Two pieces of the kernel work with another one for a while. `copy_body_stack3`
activates the directory of the child for each page, and `inode_open` and `inode_close` clear `pgdir`
around `sys_malloc` and `sys_free`. All of them take the lock of a pool meanwhile, where a thread
may have to wait. If it does, it comes back with the directory that `pgdir` says, not with the one
that it left with.

Every thread has a control point in `lock_acquire` and `lock_release`, and a place in these pieces
of code. A step is one statement of the thread on the processor, or a tick.
-/

namespace GlowOS.Activation

open Program Thread

/-! ## Places -/

/-- Where a thread is. `old` is the interrupt status that `inode_close` has saved, and `back` is
`cur_pagedir_back`. -/
inductive Place
  | elsewhere
  /-- In the loop of `copy_body_stack3`: at the `memcpy` to `buf_page`, at `page_dir_activate` for
  the child, at `lock_acquire` and behind it in `get_a_page_without_opvaddrbitmap`, at the `memcpy`
  from `buf_page`, and at `page_dir_activate` for the parent. -/
  | copyRead (child : ℕ)
  | copyActivate (child : ℕ)
  | copyAcquire (child : ℕ)
  | copyMap (child : ℕ)
  | copyWrite (child : ℕ)
  | copyReturn (child : ℕ)
  /-- In `inode_open` and `inode_close`: where `pgdir` is saved and where it is cleared, at
  `lock_acquire` and behind it in `sys_malloc` or `sys_free`, and where `pgdir` is restored. -/
  | save (old : Option Bool)
  | clear (old : Option Bool) (back : Option ℕ)
  | heapAcquire (old : Option Bool) (back : Option ℕ)
  | heapLocked (old : Option Bool) (back : Option ℕ)
  | restore (old : Option Bool) (back : Option ℕ)
  /-- At `intr_set_status` in `inode_close`. -/
  | setStatus (old : Bool)
  deriving DecidableEq, Repr

/-- The locks of `kernel_pool` and `user_pool`. -/
abbrev kernelPool : ℕ := 1

@[inherit_doc kernelPool] abbrev userPool : ℕ := 2

/-- `page_dir_activate`. -/
def pageDirActivate (t : ℕ) : ThM PUnit :=
  modify fun s ↦ { s with cr3 := (s.task t).pgdir }

/-- Assign `cur->pgdir`. -/
def setPgdir (pgdir : Option ℕ) : ThM PUnit :=
  modify fun s ↦ s.setTask s.running { s.task s.running with pgdir := pgdir }

/-- What a thread does next: its control point, the lock it is about, and its place. -/
structure Goal where
  pc : Pc
  lock : ℕ
  place : Place

/-- The statement at a place. -/
def Place.exec : Place → ThM Goal
  | .elsewhere => pure ⟨.out, 0, .elsewhere⟩
  | .copyRead child => pure ⟨.out, 0, .copyActivate child⟩
  | .copyActivate child => do
    pageDirActivate child
    pure ⟨.out, 0, .copyAcquire child⟩
  | .copyAcquire child => pure ⟨.acquire, userPool, .copyMap child⟩
  | .copyMap child => pure ⟨.release, userPool, .copyWrite child⟩
  | .copyWrite child => pure ⟨.out, 0, .copyReturn child⟩
  | .copyReturn _ => do
    let s ← get
    pageDirActivate s.running
    pure ⟨.out, 0, .elsewhere⟩
  | .save old => do
    let s ← get
    pure ⟨.out, 0, .clear old (s.task s.running).pgdir⟩
  | .clear old back => do
    setPgdir none
    pure ⟨.out, 0, .heapAcquire old back⟩
  | .heapAcquire old back => do
    let s ← get
    pure ⟨.acquire, if (s.task s.running).pgdir = none then kernelPool else userPool,
      .heapLocked old back⟩
  | .heapLocked old back => do
    let s ← get
    pure ⟨.release, if (s.task s.running).pgdir = none then kernelPool else userPool,
      .restore old back⟩
  | .restore old back => do
    setPgdir back
    match old with
    | none => pure ⟨.out, 0, .elsewhere⟩
    | some b => pure ⟨.out, 0, .setStatus b⟩
  | .setStatus old => do
    intrSetStatus old
    pure ⟨.out, 0, .elsewhere⟩

/-- A thread there works with another directory than the one in `pgdir`. -/
def Place.Foreign : Place → Prop
  | .copyAcquire _ | .copyMap _ | .copyWrite _ | .copyReturn _ => True
  | .heapAcquire _ back | .heapLocked _ back | .restore _ back => back ≠ none
  | _ => False

/-! ## Steps -/

/-- The threads, the control point and the place of each, and what was in `CR3` when it last left
the processor. -/
structure DirSys where
  sys : Threads
  pc : ℕ → Pc
  lock : ℕ → ℕ
  place : ℕ → Place
  left : ℕ → Option (Option ℕ)

/-- What happens in a step: a tick, a statement of the thread that is running, or what it calls from
elsewhere. -/
inductive Event
  | tick
  /-- A statement of `lock_acquire`, `lock_release` or `idle`. -/
  | run
  /-- The statement at the place of the thread. -/
  | next
  | lockAcquire (l : ℕ)
  | lockRelease (l : ℕ)
  /-- A round of `sema_down`. -/
  | semaDown (l : ℕ)
  | semaUp (l : ℕ)
  | yield
  | setIntr (b : Bool)
  | threadStart (t prio : ℕ)
  | processExecute (t : ℕ) (pgdir : ℕ)
  /-- `sys_fork`: the `task_struct` of the child with its own directory, the copy of a page, and the
  lists. -/
  | forkPcb (child : ℕ) (pgdir : ℕ)
  | copyPage (child : ℕ)
  | forkEnd (child : ℕ)
  | inodeOpen
  | inodeClose

/-- `copy_pcb_vaddrbitmap_stack0` and `create_page_dir`, as far as scheduling is concerned. -/
def forkPcb (child pgdir : ℕ) : ThM PUnit := do
  let s ← get
  Thread.ASSERT (s.intr = false ∧ (s.task s.running).pgdir ≠ none)
  let parent := s.task s.running
  modify fun s ↦ { s.clearTags child with created := s.created + 1 }
  modify fun s ↦ s.setTask child
    { parent with
      status := .ready
      elapsedTicks := 0
      ticks := parent.priority
      pgdir := some pgdir }

/-- The end of `sys_fork`. The child starts in `intr_exit`, which turns interrupts on. -/
def forkEnd (child : ℕ) : ThM PUnit := do
  threadCreate child
  enlist .ready (.general child)
  enlist .all (.allList child)

/-- The thread goes on elsewhere. -/
def back (m : ThM PUnit) : ThM Goal := do
  m
  pure ⟨.out, 0, .elsewhere⟩

/-- A round of `sema_down`, in a loop that goes on if the thread has to wait. -/
def semaDown (l : ℕ) : ThM PUnit := do
  let old ← intrDisable
  let taken ← semaDownRound l
  if taken then intrSetStatus old else pure PUnit.unit

/-- The event, with the thread that is running at this control point and place. -/
def Event.exec (pc : Pc) (lock : ℕ) (place : Place) : Event → ThM Goal
  | .tick => do
    intrTimerHandler
    pure ⟨pc, lock, place⟩
  | .run => do
    let pc' ← pc.exec lock
    pure ⟨pc', lock, place⟩
  | .next => place.exec
  | .lockAcquire l => pure ⟨.acquire, l, .elsewhere⟩
  | .lockRelease l => pure ⟨.release, l, .elsewhere⟩
  | .semaDown l => back (Activation.semaDown l)
  | .semaUp l => back (Thread.semaUp l)
  | .yield => back threadYield
  | .setIntr b => back (intrSetStatus b)
  | .threadStart t prio => back (Thread.threadStart t prio)
  | .processExecute t pgdir => back (Thread.processExecute t (some pgdir))
  | .forkPcb child pgdir => back (Activation.forkPcb child pgdir)
  | .copyPage child => pure ⟨.out, 0, .copyRead child⟩
  | .forkEnd child => back (Activation.forkEnd child)
  | .inodeOpen => pure ⟨.out, 0, .save none⟩
  | .inodeClose => do
    let old ← intrDisable
    pure ⟨.out, 0, .save (some old)⟩

namespace DirSys

/-- No thread has run with this page as its `task_struct`. -/
def Fresh (σ : DirSys) (t : ℕ) : Prop :=
  t ≠ σ.sys.running ∧ σ.left t = none ∧ σ.pc t = .out ∧ σ.place t = .elsewhere

instance (σ : DirSys) (t : ℕ) : Decidable (σ.Fresh t) :=
  inferInstanceAs (Decidable (_ ∧ _ ∧ _ ∧ _))

/-- A new thread needs a new page. -/
def NewPage (σ : DirSys) : Event → Prop
  | .threadStart t _ | .processExecute t _ | .forkPcb t _ => σ.Fresh t
  | _ => True

instance (σ : DirSys) : DecidablePred σ.NewPage
  | .threadStart .. | .processExecute .. | .forkPcb .. => inferInstanceAs (Decidable (σ.Fresh _))
  | .tick | .run | .next | .lockAcquire .. | .lockRelease .. | .semaDown .. | .semaUp .. | .yield
  | .setIntr .. | .copyPage .. | .forkEnd .. | .inodeOpen | .inodeClose => isTrue trivial

/-- When an event can happen. -/
def Enabled (σ : DirSys) : Event → Prop
  | .tick => σ.sys.intr = true
  | .run => σ.pc σ.sys.running ≠ .out
  | .next => σ.pc σ.sys.running = .out ∧ σ.place σ.sys.running ≠ .elsewhere
  | e => σ.pc σ.sys.running = .out ∧ σ.place σ.sys.running = .elsewhere ∧ σ.NewPage e

instance (σ : DirSys) : DecidablePred σ.Enabled
  | .tick => inferInstanceAs (Decidable (σ.sys.intr = true))
  | .run => inferInstanceAs (Decidable (σ.pc σ.sys.running ≠ .out))
  | .next => inferInstanceAs (Decidable (_ ∧ _))
  | .threadStart .. | .processExecute .. | .forkPcb .. | .lockAcquire .. | .lockRelease ..
  | .semaDown .. | .semaUp .. | .yield | .setIntr .. | .copyPage .. | .forkEnd .. | .inodeOpen
  | .inodeClose => inferInstanceAs (Decidable (_ ∧ _ ∧ σ.NewPage _))

/-- The statement makes the thread wait. -/
def PcLeaves (s : Threads) (l : ℕ) : Pc → Prop
  | .down | .downWait _ => (s.lock l).value = 0
  | .idleBlock => True
  | _ => False

instance (s : Threads) (l : ℕ) : DecidablePred (PcLeaves s l)
  | .down | .downWait _ => inferInstanceAs (Decidable ((s.lock l).value = 0))
  | .idleBlock => isTrue trivial
  | .out | .acquire | .setHolder | .assertRepeat | .setRepeat | .incRepeat | .release
  | .testRepeat | .decRepeat | .assertOne | .clearHolder | .clearRepeat | .up | .idleHalt =>
    isFalse id

/-- The thread that is running leaves the processor: its time is used up, it has to wait, or it
yields. -/
def Leaves (σ : DirSys) : Event → Prop
  | .tick => (σ.sys.task σ.sys.running).ticks = 0
  | .run => PcLeaves σ.sys (σ.lock σ.sys.running) (σ.pc σ.sys.running)
  | .semaDown l => (σ.sys.lock l).value = 0
  | .yield => True
  | _ => False

instance (σ : DirSys) : DecidablePred σ.Leaves
  | .tick => inferInstanceAs (Decidable (_ = 0))
  | .run => inferInstanceAs (Decidable (PcLeaves _ _ _))
  | .semaDown _ => inferInstanceAs (Decidable (_ = 0))
  | .yield => isTrue trivial
  | .next | .lockAcquire .. | .lockRelease .. | .semaUp .. | .setIntr .. | .threadStart ..
  | .processExecute .. | .forkPcb .. | .copyPage .. | .forkEnd .. | .inodeOpen | .inodeClose =>
    isFalse id

/-- The state after an event. -/
def after (σ : DirSys) (e : Event) (g : Goal) (s : Threads) : DirSys where
  sys := s
  pc := Function.update σ.pc σ.sys.running g.pc
  lock := Function.update σ.lock σ.sys.running g.lock
  place := Function.update σ.place σ.sys.running g.place
  left := if σ.Leaves e then Function.update σ.left σ.sys.running (some σ.sys.cr3) else σ.left

/-- What the event does with the threads. -/
def exec (σ : DirSys) (e : Event) : ThM Goal :=
  e.exec (σ.pc σ.sys.running) (σ.lock σ.sys.running) (σ.place σ.sys.running)

/-- A step, if the event can happen. -/
def step (σ : DirSys) (e : Event) : Option DirSys :=
  if σ.Enabled e then ((σ.exec e σ.sys).toOption).map fun r ↦ σ.after e r.1 r.2 else none

/-- The page directory that a thread works with at its place. -/
def dir (σ : DirSys) (t : ℕ) : Option ℕ :=
  match σ.place t with
  | .copyAcquire child | .copyMap child | .copyWrite child | .copyReturn child =>
    (σ.sys.task child).pgdir
  | .heapAcquire _ back | .heapLocked _ back | .restore _ back => back
  | _ => (σ.sys.task t).pgdir

/-- Right after `thread_init`. -/
structure Init (σ : DirSys) : Prop where
  booted : Booted σ.sys
  cr3 : σ.sys.cr3 = none
  place : ∀ t, σ.place t = .elsewhere
  left : ∀ t, σ.left t = none
  pc : ∀ t ≠ σ.sys.idleThread, σ.pc t = .out
  idle : σ.pc σ.sys.idleThread = .idleBlock

/-- The thread would leave the processor while it works with another directory than its `pgdir`. -/
def Exposed (σ : DirSys) (e : Event) : Prop := σ.Leaves e ∧ (σ.place σ.sys.running).Foreign

/-- The thread that is running has its directory in `CR3`. -/
def Active (σ : DirSys) : Prop := σ.sys.cr3 = σ.dir σ.sys.running

/-- The thread that is running has in `CR3` what it left there. -/
def Resumed (σ : DirSys) : Prop := ∀ d, σ.left σ.sys.running = some d → σ.sys.cr3 = d

end DirSys

/-! ## What the scheduler leaves alone -/

/-- The processor stays with the thread and its directory, and the directories of the threads
outside `ts` are the same. -/
structure Stays (ts : Set ℕ) (s s' : Threads) : Prop where
  running : s'.running = s.running
  cr3 : s'.cr3 = s.cr3
  pgdir : ∀ t ∉ ts, (s'.task t).pgdir = (s.task t).pgdir

/-- The directories of the threads are the same, and the processor stays with the thread or has
activated the directory of the next one. -/
structure Activates (s s' : Threads) : Prop where
  pgdir : ∀ t, (s'.task t).pgdir = (s.task t).pgdir
  cr3 : s'.running = s.running ∧ s'.cr3 = s.cr3 ∨ s'.cr3 = (s'.task s'.running).pgdir

section Frames

variable {ts : Set ℕ} {s s' : Threads} {l t : ℕ}

instance : Std.Refl (Stays ts) := ⟨fun _ ↦ ⟨rfl, rfl, fun _ _ ↦ rfl⟩⟩

instance : IsTrans Threads (Stays ts) :=
  ⟨fun _ _ _ h h' ↦ ⟨h'.running.trans h.running, h'.cr3.trans h.cr3,
    fun t ht ↦ (h'.pgdir t ht).trans (h.pgdir t ht)⟩⟩

instance : Std.Refl Activates := ⟨fun _ ↦ ⟨fun _ ↦ rfl, Or.inl ⟨rfl, rfl⟩⟩⟩

instance : IsTrans Threads Activates := by
  refine ⟨fun s t u h h' ↦ ⟨fun i ↦ (h'.pgdir i).trans (h.pgdir i), ?_⟩⟩
  rcases h'.cr3 with ⟨hrun, hcr3⟩ | hcr3
  · rw [hrun, hcr3, h'.pgdir]
    exact h.cr3
  · exact Or.inr hcr3

theorem Stays.activates (h : Stays ∅ s s') : Activates s s' :=
  ⟨fun t ↦ h.pgdir t (Set.notMem_empty t), Or.inl ⟨h.running, h.cr3⟩⟩

theorem stays_setTags (f : Threads → Links (Links.QNode Queue Tag)) :
    Within (Stays ts) (modify fun s ↦ s.setTags (f s) : ThM PUnit) :=
  .modify fun _ ↦ ⟨rfl, rfl, fun _ _ ↦ rfl⟩

/-- A change of a `task_struct` that is not about its directory. -/
theorem stays_setTask (f : Threads → ℕ) {p : Threads → TaskStruct}
    (hp : ∀ s, f s ∉ ts → (p s).pgdir = (s.task (f s)).pgdir) :
    Within (Stays ts) (modify fun s ↦ s.setTask (f s) (p s) : ThM PUnit) := by
  refine .modify fun s ↦ ⟨rfl, rfl, fun t ht ↦ ?_⟩
  rw [Threads.setTask_task]
  by_cases hts : t = f s
  · subst hts
    rw [Function.update_self, hp s ht]
  · rw [Function.update_of_ne hts]

theorem stays_intrDisable : Within (Stays ts) intrDisable :=
  .bind .get fun _ ↦ .bind (.modify fun _ ↦ ⟨rfl, rfl, fun _ _ ↦ rfl⟩) fun _ ↦ .pure _

theorem stays_intrSetStatus (b : Bool) : Within (Stays ts) (intrSetStatus b) :=
  .modify fun _ ↦ ⟨rfl, rfl, fun _ _ ↦ rfl⟩

theorem stays_elemFind (q : Queue) (e : Tag) : Within (Stays ts) (Thread.elemFind q e) := by
  refine .bind .get fun s ↦ ?_
  split
  · exact .throw _
  · exact .pure _

theorem stays_listEmpty (q : Queue) : Within (Stays ts) (Thread.listEmpty q) :=
  .bind .get fun _ ↦ .pure _

theorem stays_listPop (q : Queue) : Within (Stays ts) (Thread.listPop q) := by
  refine .bind .get fun s ↦ .bind (.check _ _) fun _ ↦ ?_
  split
  · exact .bind (stays_setTags _) fun _ ↦ .pure _
  · exact .throw _

theorem stays_threadUnblock (t : ℕ) : Within (Stays ts) (threadUnblock t) := by
  refine .bind stays_intrDisable fun old ↦ .bind .get fun s ↦ .bind (.check _ _) fun _ ↦ .ite ?_ ?_
  · refine .bind (stays_elemFind _ _) fun _ ↦ .bind (.check _ _) fun _ ↦ ?_
    exact .bind (stays_setTags _) fun _ ↦ .bind (stays_setTask (fun _ ↦ t) fun _ _ ↦ rfl) fun _ ↦
      stays_intrSetStatus old
  · exact stays_intrSetStatus old

theorem stays_enlist (q : Queue) (e : Tag) : Within (Stays ts) (enlist q e) :=
  .bind (stays_elemFind q e) fun _ ↦ .bind (.check _ _) fun _ ↦ stays_setTags _

theorem stays_semaUp (l : ℕ) : Within (Stays ts) (Thread.semaUp l) := by
  refine .bind stays_intrDisable fun old ↦ .bind .get fun s ↦ .bind (.check _ _) fun _ ↦ ?_
  refine .bind ?_ fun _ ↦ .bind .get fun s ↦ .bind (.modify fun _ ↦ ⟨rfl, rfl, fun _ _ ↦ rfl⟩)
    fun _ ↦ .bind (.check _ _) fun _ ↦ stays_intrSetStatus old
  refine .bind (stays_listEmpty _) fun _ ↦ .ite (.pure _) ?_
  exact .bind (stays_listPop _) fun t ↦ stays_threadUnblock t

theorem stays_modifyLock (f : Lock → Lock) : Within (Stays ts) (modifyLock l f) :=
  .modify fun _ ↦ ⟨rfl, rfl, fun _ _ ↦ rfl⟩

/-! ## What it does -/

/-- `schedule` activates the directory of the thread that it switches to. -/
theorem activates_scheduleNext : Within Activates scheduleNext := by
  refine .bind (m := wakeIdle) ?_ fun _ ↦
    .bind (.mono (stays_listEmpty _) fun _ _ ↦ Stays.activates) fun _ ↦
    .bind (.check _ _) fun _ ↦ .bind (.mono (stays_listPop _) fun _ _ ↦ Stays.activates) fun t ↦
    .bind (.mono (stays_setTask (fun _ ↦ t) fun _ _ ↦ rfl) fun _ _ ↦ Stays.activates) fun _ ↦ ?_
  · refine .mono (R := Stays ∅) (.bind (stays_listEmpty _) fun _ ↦ .ite ?_ (.pure _))
      fun _ _ ↦ Stays.activates
    exact .bind .get fun s ↦ stays_threadUnblock _
  · intro s u s' h
    rw [processActivate, returns_modify_bind, returns_modify] at h
    subst h
    exact ⟨fun _ ↦ rfl, Or.inr rfl⟩

theorem activates_schedule : Within Activates schedule := by
  refine .bind .get fun s ↦ .bind (.check _ _) fun _ ↦ .ite ?_ activates_scheduleNext
  refine .bind (m := requeue s.running) ?_ fun _ ↦ activates_scheduleNext
  refine .mono (R := Stays ∅) (.bind (stays_elemFind _ _) fun _ ↦ .bind (.check _ _) fun _ ↦
    .bind (stays_setTags _) fun _ ↦ stays_setTask (fun _ ↦ s.running) fun _ _ ↦ rfl)
    fun _ _ ↦ Stays.activates

theorem activates_scheduleFrom (old : Bool) : Within Activates (scheduleFrom old) := by
  refine .bind (.modify fun _ ↦ ⟨fun _ ↦ rfl, Or.inl ⟨rfl, rfl⟩⟩) fun _ ↦
    .bind activates_schedule fun _ ↦ .bind .get fun s ↦ ?_
  exact .mono (stays_intrSetStatus _) fun _ _ ↦ Stays.activates

theorem activates_threadBlock (stat : TaskStatus) : Within Activates (threadBlock stat) := by
  refine .bind (.check _ _) fun _ ↦ .bind (.mono stays_intrDisable fun _ _ ↦ Stays.activates)
    fun old ↦ .bind .get fun s ↦ .bind ?_ fun _ ↦ activates_scheduleFrom old
  exact .mono (stays_setTask (fun _ ↦ s.running) fun _ _ ↦ rfl) fun _ _ ↦ Stays.activates

theorem activates_threadYield : Within Activates threadYield := by
  refine .bind (.mono stays_intrDisable fun _ _ ↦ Stays.activates) fun old ↦ .bind .get fun s ↦
    .bind (m := Thread.elemFind _ _) ?_ fun _ ↦ .bind (.check _ _) fun _ ↦ .bind ?_ fun _ ↦ .bind ?_
    fun _ ↦ activates_scheduleFrom old
  · exact .mono (stays_elemFind _ _) fun _ _ ↦ Stays.activates
  · exact .mono (stays_setTags _) fun _ _ ↦ Stays.activates
  · exact .mono (stays_setTask (fun _ ↦ s.running) fun _ _ ↦ rfl) fun _ _ ↦ Stays.activates

/-- A tick, with time left. -/
theorem stays_intrTimerHandler {u : PUnit} (hticks : (s.task s.running).ticks ≠ 0)
    (h : Returns intrTimerHandler s u s') : Stays ts s s' := by
  obtain ⟨old, t, h1, h⟩ := returns_bind.mp h
  have ht : Stays ts s t := stays_intrDisable _ _ _ h1
  obtain ⟨-, rfl⟩ := returns_intrDisable.mp h1
  rw [returns_get_bind] at h
  obtain ⟨-, h⟩ := returns_check_bind.mp h
  obtain ⟨u', t', h2, h⟩ := returns_bind.mp h
  have ht' : Stays ts s t' := by
    refine IsTrans.trans _ _ _ ht ((?_ : Within (Stays ts) _) _ _ _ h2)
    exact stays_setTask (fun s ↦ s.running) fun _ _ ↦ rfl
  rcases returns_ite.mp h with ⟨hzero, -⟩ | ⟨-, h⟩
  · exact absurd hzero hticks
  · refine IsTrans.trans _ _ _ ht' ((?_ : Within (Stays ts) _) _ _ _ h)
    exact .bind (stays_setTask (fun s ↦ s.running) fun _ _ ↦ rfl) fun _ ↦ stays_intrSetStatus _

theorem activates_intrTimerHandler : Within Activates intrTimerHandler := by
  refine .bind (.mono stays_intrDisable fun _ _ ↦ Stays.activates) fun old ↦ .bind .get fun s ↦
    .bind (.check _ _) fun _ ↦ .bind ?_ fun _ ↦ .ite (activates_scheduleFrom old) ?_
  · exact .mono (stays_setTask (fun s ↦ s.running) fun _ _ ↦ rfl) fun _ _ ↦ Stays.activates
  · exact .mono (.bind (stays_setTask (fun s ↦ s.running) fun _ _ ↦ rfl)
      fun _ ↦ stays_intrSetStatus old) fun _ _ ↦ Stays.activates

theorem activates_semaDownRound (l : ℕ) : Within Activates (semaDownRound l) := by
  refine .bind .get fun s ↦ .ite ?_ ?_
  · refine .bind (m := Thread.elemFind _ _) ?_ fun _ ↦ .bind (.check _ _) fun _ ↦ .bind ?_
      fun _ ↦ .bind (activates_threadBlock _) fun _ ↦ .pure _
    · exact .mono (stays_elemFind _ _) fun _ _ ↦ Stays.activates
    · exact .mono (stays_setTags _) fun _ _ ↦ Stays.activates
  · exact .bind (.modify fun _ ↦ ⟨fun _ ↦ rfl, Or.inl ⟨rfl, rfl⟩⟩) fun _ ↦
      .bind (.check _ _) fun _ ↦ .pure _

/-- A round of `sema_down` that does not have to wait. -/
theorem stays_semaDownRound {taken : Bool} (hv : (s.lock l).value ≠ 0)
    (h : Returns (semaDownRound l) s taken s') : Stays ts s s' := by
  rw [semaDownRound, returns_get_bind] at h
  rcases returns_ite.mp h with ⟨hzero, -⟩ | ⟨-, h⟩
  · exact absurd hzero hv
  · refine (?_ : Within (Stays ts) _) _ _ _ h
    exact .bind (.modify fun _ ↦ ⟨rfl, rfl, fun _ _ ↦ rfl⟩) fun _ ↦
      .bind (.check _ _) fun _ ↦ .pure _

theorem activates_downRound (l : ℕ) (old : Bool) : Within Activates (downRound l old) :=
  .bind (activates_semaDownRound l) fun _ ↦
    .ite (.bind (.mono (stays_intrSetStatus old) fun _ _ ↦ Stays.activates) fun _ ↦ .pure _)
      (.pure _)

theorem stays_downRound {old : Bool} {pc : Pc} (hv : (s.lock l).value ≠ 0)
    (h : Returns (downRound l old) s pc s') : Stays ts s s' := by
  obtain ⟨taken, t, h1, h⟩ := returns_bind.mp h
  refine IsTrans.trans _ _ _ (stays_semaDownRound hv h1 : Stays ts s t) ?_
  exact Within.ite (R := Stays ts) (.bind (stays_intrSetStatus old) fun _ ↦ .pure _) (.pure _)
    _ _ _ h

theorem activates_semaDown (l : ℕ) : Within Activates (Activation.semaDown l) :=
  .bind (.mono stays_intrDisable fun _ _ ↦ Stays.activates) fun old ↦
    .bind (activates_semaDownRound l) fun _ ↦
      .ite (.mono (stays_intrSetStatus old) fun _ _ ↦ Stays.activates) (.pure _)

theorem stays_semaDown {u : PUnit} (hv : (s.lock l).value ≠ 0)
    (h : Returns (Activation.semaDown l) s u s') : Stays ts s s' := by
  obtain ⟨old, t, h1, h⟩ := returns_bind.mp h
  have ht : Stays ts s t := stays_intrDisable _ _ _ h1
  obtain ⟨-, rfl⟩ := returns_intrDisable.mp h1
  obtain ⟨taken, t', h2, h⟩ := returns_bind.mp h
  have ht' := IsTrans.trans _ _ _ ht (stays_semaDownRound hv h2)
  refine IsTrans.trans _ _ _ ht' ?_
  exact Within.ite (R := Stays ts) (stays_intrSetStatus old) (.pure _) _ _ _ h

/-- A statement that does not make the thread wait. -/
theorem stays_exec {pc pc' : Pc} (hpc : ¬DirSys.PcLeaves s l pc)
    (h : Returns (pc.exec l) s pc' s') : Stays ts s s' := by
  cases pc with
  | out | acquire | testRepeat => exact (.bind .get fun _ ↦ .pure _ : Within (Stays ts) _) _ _ _ h
  | assertRepeat | release | assertOne =>
    exact (.bind .get fun _ ↦ .bind (.check _ _) fun _ ↦ .pure _ : Within (Stays ts) _) _ _ _ h
  | setHolder =>
    exact (.bind .get fun _ ↦ .bind (stays_modifyLock _) fun _ ↦ .pure _ : Within (Stays ts) _)
      _ _ _ h
  | setRepeat | incRepeat | decRepeat | clearHolder | clearRepeat =>
    exact (.bind (stays_modifyLock _) fun _ ↦ .pure _ : Within (Stays ts) _) _ _ _ h
  | up => exact (.bind (stays_semaUp l) fun _ ↦ .pure _ : Within (Stays ts) _) _ _ _ h
  | idleHalt =>
    exact (.bind (stays_intrSetStatus true) fun _ ↦ .pure _ : Within (Stays ts) _) _ _ _ h
  | down =>
    obtain ⟨old, t, h1, h⟩ := returns_bind.mp h
    have ht : Stays ts s t := stays_intrDisable _ _ _ h1
    obtain ⟨-, rfl⟩ := returns_intrDisable.mp h1
    exact IsTrans.trans _ _ _ ht (stays_downRound hpc h)
  | downWait old => exact stays_downRound hpc h
  | idleBlock => exact absurd trivial hpc

theorem activates_exec (pc : Pc) : Within Activates (pc.exec l) := by
  by_cases hpc : pc = .down ∨ (∃ old, pc = .downWait old) ∨ pc = .idleBlock
  · rcases hpc with rfl | ⟨old, rfl⟩ | rfl
    · exact .bind (.mono stays_intrDisable fun _ _ ↦ Stays.activates)
        fun old ↦ activates_downRound l old
    · exact activates_downRound l old
    · exact .bind (activates_threadBlock _) fun _ ↦ .pure _
  · intro s pc' s' h
    refine (stays_exec ?_ h).activates
    cases pc <;> simp_all [DirSys.PcLeaves]

/-- A new thread has a directory of its own. -/
theorem stays_newTask (t : ℕ) {p : Threads → TaskStruct} :
    Within (Stays {t}) (modify fun s ↦ s.setTask t (p s) : ThM PUnit) :=
  stays_setTask (fun _ ↦ t) fun _ ht ↦ absurd rfl ht

theorem stays_initThread (t prio : ℕ) : Within (Stays {t}) (initThread t prio) :=
  .bind (.modify fun _ ↦ ⟨rfl, rfl, fun _ _ ↦ rfl⟩) fun _ ↦ stays_newTask t

theorem stays_threadCreate (t : ℕ) : Within (Stays ts) (threadCreate t) :=
  .modify fun _ ↦ ⟨rfl, rfl, fun _ _ ↦ rfl⟩

theorem stays_threadStart (t prio : ℕ) : Within (Stays {t}) (Thread.threadStart t prio) :=
  .bind (stays_initThread t prio) fun _ ↦ .bind (stays_threadCreate t) fun _ ↦
    .bind (stays_enlist _ _) fun _ ↦ stays_enlist _ _

theorem stays_processExecute (t : ℕ) (pgdir : Option ℕ) :
    Within (Stays {t}) (Thread.processExecute t pgdir) :=
  .bind (stays_initThread t defaultPrio) fun _ ↦ .bind (stays_threadCreate t) fun _ ↦
    .bind (stays_newTask t) fun _ ↦ .bind stays_intrDisable fun old ↦
      .bind (stays_enlist _ _) fun _ ↦ .bind (stays_enlist _ _) fun _ ↦ stays_intrSetStatus old

theorem stays_forkPcb (child pgdir : ℕ) : Within (Stays {child}) (Activation.forkPcb child pgdir) :=
  .bind .get fun _ ↦ .bind (.check _ _) fun _ ↦
    .bind (.modify fun _ ↦ ⟨rfl, rfl, fun _ _ ↦ rfl⟩) fun _ ↦ stays_newTask child

theorem stays_forkEnd (child : ℕ) : Within (Stays ts) (Activation.forkEnd child) :=
  .bind (stays_threadCreate child) fun _ ↦ .bind (stays_enlist _ _) fun _ ↦ stays_enlist _ _

theorem returns_back {m : ThM PUnit} {g : Goal} :
    Returns (back m) s g s' ↔ ∃ u, Returns m s u s' ∧ g = ⟨.out, 0, .elsewhere⟩ := by
  rw [back, returns_bind]
  constructor
  · rintro ⟨u, t, h, hret⟩
    obtain ⟨rfl, rfl⟩ := returns_pure.mp hret
    exact ⟨u, h, rfl⟩
  · rintro ⟨u, h, rfl⟩
    exact ⟨u, s', h, returns_pure.mpr ⟨rfl, rfl⟩⟩

end Frames

/-! ## The invariant -/

/-- `pgdir` is null there. -/
def Place.Cleared : Place → Prop
  | .heapAcquire .. | .heapLocked .. | .restore .. => True
  | _ => False

/-- The thread that is running has its directory in `CR3`. The others have left the processor where
their directory is the one in `pgdir`, or have not run yet. -/
structure Inv (σ : DirSys) : Prop where
  active : σ.Active
  settled : ∀ t ≠ σ.sys.running, ¬(σ.place t).Foreign
  cleared : ∀ t, (σ.place t).Cleared → (σ.sys.task t).pgdir = none
  saved : ∀ t old back, σ.place t = .clear old back → (σ.sys.task t).pgdir = back
  left : ∀ t ≠ σ.sys.running, ∀ d, σ.left t = some d → (σ.sys.task t).pgdir = d

section Steps

variable {σ σ' : DirSys} {e : Event} {g : Goal} {s : Threads} {t : ℕ}

/-- A thread that does not work with another directory works with the one in `pgdir`. -/
theorem Inv.dir_eq (h : Inv σ) (ht : ¬(σ.place t).Foreign) : σ.dir t = (σ.sys.task t).pgdir := by
  have hc := h.cleared t
  rw [DirSys.dir]
  generalize σ.place t = p at ht hc
  cases p with
  | copyAcquire | copyMap | copyWrite | copyReturn => exact absurd trivial ht
  | heapAcquire old back | heapLocked old back | restore old back =>
    rw [hc trivial]
    exact not_not.mp ht
  | elsewhere | copyRead | copyActivate | save | clear | setStatus => rfl

theorem after_place_self : (σ.after e g s).place σ.sys.running = g.place := Function.update_self ..

theorem after_place_of_ne (ht : t ≠ σ.sys.running) : (σ.after e g s).place t = σ.place t :=
  Function.update_of_ne ht ..

theorem after_left_of_leaves (hl : σ.Leaves e) : (σ.after e g s).left =
    Function.update σ.left σ.sys.running (some σ.sys.cr3) := if_pos hl

theorem after_left_of_not (hl : ¬σ.Leaves e) : (σ.after e g s).left = σ.left := if_neg hl

/-- A thread leaves the processor where its directory is the one in `pgdir`. The next one comes back
with what it left. -/
theorem Inv.switch (h : Inv σ) (hexp : ¬σ.Exposed e) (hl : σ.Leaves e)
    (hact : Activates σ.sys s) (hplace : g.place = σ.place σ.sys.running) :
    Inv (σ.after e g s) ∧ (σ.after e g s).Resumed := by
  have hforeign : ∀ t, ¬(σ.place t).Foreign := by
    intro t
    by_cases ht : t = σ.sys.running
    · exact ht ▸ fun hf ↦ hexp ⟨hl, hf⟩
    · exact h.settled t ht
  have hpl : (σ.after e g s).place = σ.place := by
    funext t
    by_cases ht : t = σ.sys.running
    · rw [ht, after_place_self, hplace]
    · exact after_place_of_ne ht
  -- what the thread leaves is its directory, and so every thread has left its directory
  have hown : σ.sys.cr3 = (σ.sys.task σ.sys.running).pgdir :=
    h.active.trans (h.dir_eq (hforeign _))
  have hleft : ∀ t d, (σ.after e g s).left t = some d → (s.task t).pgdir = d := by
    intro t d hd
    rw [after_left_of_leaves hl] at hd
    rw [hact.pgdir]
    by_cases ht : t = σ.sys.running
    · rw [ht, Function.update_self] at hd
      rw [ht, ← hown, Option.some.inj hd]
    · rw [Function.update_of_ne ht] at hd
      exact h.left t ht d hd
  have hcr3 : s.cr3 = (s.task s.running).pgdir := by
    rcases hact.cr3 with ⟨hrun, hcr3⟩ | hcr3
    · rw [hcr3, hrun, hact.pgdir, hown]
    · exact hcr3
  have hcleared : ∀ t, ((σ.after e g s).place t).Cleared → (s.task t).pgdir = none := by
    intro t ht
    rw [hpl] at ht
    rw [hact.pgdir, h.cleared t ht]
  refine ⟨⟨?_, ?_, hcleared, ?_, fun t _ ↦ hleft t⟩, ?_⟩
  · have hdir : (σ.after e g s).dir s.running = σ.dir s.running := by
      rw [DirSys.dir, DirSys.dir, hpl]
      cases σ.place s.running <;> first | rfl | exact hact.pgdir _
    rw [DirSys.Active]
    exact hcr3.trans ((hact.pgdir _).trans ((h.dir_eq (hforeign _)).symm.trans hdir.symm))
  · intro t _
    rw [hpl]
    exact hforeign t
  · intro t old back ht
    rw [hpl] at ht
    exact (hact.pgdir t).trans (h.saved t old back ht)
  · intro d hd
    exact hcr3.trans (hleft _ d hd)

/-- The thread that is running goes on. -/
theorem Inv.go (h : Inv σ) (hl : ¬σ.Leaves e) (hrun : s.running = σ.sys.running)
    (hpgdir : ∀ t ≠ σ.sys.running, (s.task t).pgdir = (σ.sys.task t).pgdir ∨ σ.Fresh t)
    (hactive : s.cr3 = (σ.after e g s).dir σ.sys.running)
    (hcleared : g.place.Cleared → (s.task σ.sys.running).pgdir = none)
    (hsaved : ∀ old back, g.place = .clear old back → (s.task σ.sys.running).pgdir = back) :
    Inv (σ.after e g s) := by
  have hplace : ∀ t ≠ σ.sys.running, σ.place t ≠ .elsewhere →
      (s.task t).pgdir = (σ.sys.task t).pgdir := by
    intro t ht hne
    exact (hpgdir t ht).resolve_right fun hf ↦ hne hf.2.2.2
  refine ⟨?_, fun t ht ↦ ?_, fun t hc ↦ ?_, fun t old back hc ↦ ?_, fun t ht d hd ↦ ?_⟩
  · rw [DirSys.Active]
    exact hactive.trans (congrArg _ hrun.symm)
  · have hne : t ≠ σ.sys.running := fun heq ↦ ht (heq.trans hrun.symm)
    rw [after_place_of_ne hne]
    exact h.settled t hne
  · by_cases hne : t = σ.sys.running
    · subst hne
      rw [after_place_self] at hc
      exact hcleared hc
    · rw [after_place_of_ne hne] at hc
      exact (hplace t hne fun heq ↦ by rw [heq] at hc; exact hc).trans (h.cleared t hc)
  · by_cases hne : t = σ.sys.running
    · subst hne
      rw [after_place_self] at hc
      exact hsaved old back hc
    · rw [after_place_of_ne hne] at hc
      exact (hplace t hne fun heq ↦ by rw [heq] at hc; cases hc).trans (h.saved t old back hc)
  · have hne : t ≠ σ.sys.running := fun heq ↦ ht (heq.trans hrun.symm)
    rw [after_left_of_not hl] at hd
    rcases hpgdir t hne with hsame | hfresh
    · exact hsame.trans (h.left t hne d hd)
    · cases hfresh.2.1.symm.trans hd

theorem returns_setPgdir {s' : Threads} {b : Option ℕ} {u : PUnit}
    (h : Returns (setPgdir b) s u s') : s'.running = s.running ∧ s'.cr3 = s.cr3 ∧
      (s'.task s.running).pgdir = b ∧ ∀ t ≠ s.running, (s'.task t).pgdir = (s.task t).pgdir := by
  rw [setPgdir, returns_modify] at h
  subst h
  refine ⟨rfl, rfl, ?_, fun t ht ↦ ?_⟩
  · rw [Threads.setTask_task, Function.update_self]
  · rw [Threads.setTask_task, Function.update_of_ne ht]

/-- A step of the scheduler or of the locks, where the thread stays at its place. -/
theorem Inv.sched (h : Inv σ) (hexp : ¬σ.Exposed e) (hact : Activates σ.sys s)
    (hstay : ¬σ.Leaves e → Stays ∅ σ.sys s) (hplace : g.place = σ.place σ.sys.running) :
    Inv (σ.after e g s) ∧ (σ.Leaves e → (σ.after e g s).Resumed) := by
  by_cases hl : σ.Leaves e
  · exact (h.switch hexp hl hact hplace).imp_right fun hr _ ↦ hr
  · have hs := hstay hl
    refine ⟨h.go hl hs.running (fun t _ ↦ Or.inl (hact.pgdir t)) ?_ ?_ ?_, fun hl' ↦ absurd hl' hl⟩
    · have hdir : (σ.after e g s).dir σ.sys.running = σ.dir σ.sys.running := by
        rw [DirSys.dir, DirSys.dir, after_place_self, hplace]
        cases σ.place σ.sys.running <;> first | rfl | exact hact.pgdir _
      rw [hs.cr3, hdir]
      exact h.active
    · rw [hplace, hact.pgdir]
      exact h.cleared _
    · rw [hplace, hact.pgdir]
      exact h.saved _

/-- A call from elsewhere that does not give up the processor. -/
theorem Inv.call (h : Inv σ) (hl : ¬σ.Leaves e) {ts : Set ℕ} (hs : Stays ts σ.sys s)
    (hts : ∀ t ∈ ts, σ.Fresh t) (hfrom : σ.place σ.sys.running = .elsewhere)
    (hto : g.place = .elsewhere ∨ (∃ child, g.place = .copyRead child) ∨
      ∃ old, g.place = .save old) : Inv (σ.after e g s) := by
  have hself : σ.sys.running ∉ ts := fun hmem ↦ (hts _ hmem).1 rfl
  have hcr3 : s.cr3 = (s.task σ.sys.running).pgdir := by
    rw [hs.cr3, hs.pgdir _ hself]
    exact h.active.trans (by rw [DirSys.dir, hfrom])
  refine h.go hl hs.running (fun t _ ↦ ?_) ?_ ?_ ?_
  · by_cases ht : t ∈ ts
    · exact Or.inr (hts t ht)
    · exact Or.inl (hs.pgdir t ht)
  · rw [DirSys.dir, after_place_self]
    rcases hto with hto | ⟨child, hto⟩ | ⟨old, hto⟩ <;> rw [hto] <;> exact hcr3
  · rcases hto with hto | ⟨child, hto⟩ | ⟨old, hto⟩ <;> rw [hto] <;> exact False.elim
  · rcases hto with hto | ⟨child, hto⟩ | ⟨old, hto⟩ <;> rw [hto] <;> rintro old back heq <;>
      cases heq

/-- A statement of `copy_body_stack3`, `inode_open` or `inode_close`. -/
theorem Inv.next (h : Inv σ) (hret : Returns (σ.place σ.sys.running).exec σ.sys g s) :
    Inv (σ.after .next g s) := by
  have hl : ¬σ.Leaves .next := id
  have hactive := h.active
  rw [DirSys.Active, DirSys.dir] at hactive
  have hsaved := h.saved σ.sys.running
  have hcleared := h.cleared σ.sys.running
  generalize hp : σ.place σ.sys.running = p at hret hactive hsaved hcleared
  cases p with
  | elsewhere | copyRead child | copyAcquire child | copyMap child | copyWrite child =>
    obtain ⟨rfl, rfl⟩ := returns_pure.mp hret
    refine h.go hl rfl (fun _ _ ↦ Or.inl rfl) ?_ (fun hc ↦ hc.elim) (fun _ _ heq ↦ by cases heq)
    rw [DirSys.dir, after_place_self]
    exact hactive
  | copyActivate child =>
    rw [Place.exec, pageDirActivate, returns_modify_bind, returns_pure] at hret
    obtain ⟨rfl, rfl⟩ := hret
    refine h.go hl rfl (fun _ _ ↦ Or.inl rfl) ?_ (fun hc ↦ hc.elim) (fun _ _ heq ↦ by cases heq)
    rw [DirSys.dir, after_place_self]
    rfl
  | copyReturn child =>
    rw [Place.exec, returns_get_bind, pageDirActivate, returns_modify_bind, returns_pure] at hret
    obtain ⟨rfl, rfl⟩ := hret
    refine h.go hl rfl (fun _ _ ↦ Or.inl rfl) ?_ (fun hc ↦ hc.elim) (fun _ _ heq ↦ by cases heq)
    rw [DirSys.dir, after_place_self]
    rfl
  | save old =>
    rw [Place.exec, returns_get_bind, returns_pure] at hret
    obtain ⟨rfl, rfl⟩ := hret
    refine h.go hl rfl (fun _ _ ↦ Or.inl rfl) ?_ (fun hc ↦ hc.elim) fun old' back heq ↦ ?_
    · rw [DirSys.dir, after_place_self]
      exact hactive
    · exact (Place.clear.inj heq).2
  | clear old back =>
    obtain ⟨u, s₁, h1, hret⟩ := returns_bind.mp hret
    obtain ⟨rfl, rfl⟩ := returns_pure.mp hret
    obtain ⟨hrun, hcr3, hnone, hother⟩ := returns_setPgdir h1
    refine h.go hl hrun (fun t ht ↦ Or.inl (hother t ht)) ?_ (fun _ ↦ hnone)
      (fun _ _ heq ↦ by cases heq)
    rw [DirSys.dir, after_place_self, hcr3]
    exact hactive.trans (hsaved old back rfl)
  | heapAcquire old back | heapLocked old back =>
    rw [Place.exec, returns_get_bind, returns_pure] at hret
    obtain ⟨rfl, rfl⟩ := hret
    refine h.go hl rfl (fun _ _ ↦ Or.inl rfl) ?_ (fun _ ↦ hcleared trivial)
      (fun _ _ heq ↦ by cases heq)
    rw [DirSys.dir, after_place_self]
    exact hactive
  | restore old back =>
    obtain ⟨u, s₁, h1, hret⟩ := returns_bind.mp hret
    obtain ⟨hrun, hcr3, hback, hother⟩ := returns_setPgdir h1
    have hplace : (g.place = .elsewhere ∨ ∃ b, g.place = .setStatus b) ∧ s = s₁ := by
      cases old with
      | none =>
        obtain ⟨rfl, rfl⟩ := returns_pure.mp hret
        exact ⟨Or.inl rfl, rfl⟩
      | some b =>
        obtain ⟨rfl, rfl⟩ := returns_pure.mp hret
        exact ⟨Or.inr ⟨b, rfl⟩, rfl⟩
    obtain ⟨hplace, rfl⟩ := hplace
    refine h.go hl hrun (fun t ht ↦ Or.inl (hother t ht)) ?_ ?_ ?_
    · rw [DirSys.dir, after_place_self, hcr3]
      rcases hplace with hplace | ⟨b, hplace⟩ <;> rw [hplace] <;> exact hactive.trans hback.symm
    · rcases hplace with hplace | ⟨b, hplace⟩ <;> rw [hplace] <;> exact False.elim
    · rcases hplace with hplace | ⟨b, hplace⟩ <;> rw [hplace] <;> rintro _ _ heq <;> cases heq
  | setStatus old =>
    rw [Place.exec, intrSetStatus, returns_modify_bind, returns_pure] at hret
    obtain ⟨rfl, rfl⟩ := hret
    refine h.go hl rfl (fun _ _ ↦ Or.inl rfl) ?_ (fun hc ↦ hc.elim) (fun _ _ heq ↦ by cases heq)
    rw [DirSys.dir, after_place_self]
    exact hactive

theorem step_eq_some : σ.step e = some σ' ↔
    σ.Enabled e ∧ ∃ g s, Returns (σ.exec e) σ.sys g s ∧ σ.after e g s = σ' := by
  rw [DirSys.step, Option.ite_none_right_eq_some, Option.map_eq_some_iff]
  refine and_congr_right fun _ ↦ ⟨?_, ?_⟩
  · rintro ⟨⟨g, s⟩, hrun, rfl⟩
    refine ⟨g, s, ?_, rfl⟩
    cases hres : σ.exec e σ.sys with
    | error f => rw [hres] at hrun; cases hrun
    | ok r =>
      rw [hres] at hrun
      obtain rfl := Option.some.inj hrun
      exact hres
  · rintro ⟨g, s, hret, rfl⟩
    refine ⟨(g, s), ?_, rfl⟩
    rw [hret]
    rfl

/-- **The step**: the invariant is kept, and a thread comes back with what it left. -/
theorem Inv.step (h : Inv σ) (hstep : σ.step e = some σ') (hexp : ¬σ.Exposed e) :
    Inv σ' ∧ (σ.Leaves e → σ'.Resumed) := by
  obtain ⟨henabled, g, s, hret, rfl⟩ := step_eq_some.mp hstep
  -- the calls from elsewhere that stay with the thread
  have hcall : ∀ {ts : Set ℕ}, ¬σ.Leaves e → σ.place σ.sys.running = .elsewhere →
      Stays ts σ.sys s → (∀ t ∈ ts, σ.Fresh t) →
      (g.place = .elsewhere ∨ (∃ child, g.place = .copyRead child) ∨ ∃ old, g.place = .save old) →
      Inv (σ.after e g s) ∧ (σ.Leaves e → (σ.after e g s).Resumed) :=
    fun hl hfrom hs hts hto ↦ ⟨h.call hl hs hts hfrom hto, fun hl' ↦ absurd hl' hl⟩
  have hempty : ∀ t ∈ (∅ : Set ℕ), σ.Fresh t := fun t ht ↦ ht.elim
  cases e with
  | tick =>
    obtain ⟨u, s₁, h1, hret⟩ := returns_bind.mp hret
    obtain ⟨rfl, rfl⟩ := returns_pure.mp hret
    exact h.sched hexp (activates_intrTimerHandler _ _ _ h1)
      (fun hl ↦ stays_intrTimerHandler hl h1) rfl
  | run =>
    obtain ⟨pc', s₁, h1, hret⟩ := returns_bind.mp hret
    obtain ⟨rfl, rfl⟩ := returns_pure.mp hret
    exact h.sched hexp (activates_exec _ _ _ _ h1) (fun hl ↦ stays_exec hl h1) rfl
  | next => exact ⟨h.next hret, fun hl ↦ hl.elim⟩
  | lockAcquire l | lockRelease l =>
    obtain ⟨rfl, rfl⟩ := returns_pure.mp hret
    exact hcall id henabled.2.1 (Std.Refl.refl _) hempty (Or.inl rfl)
  | semaDown l =>
    obtain ⟨u, h1, rfl⟩ := returns_back.mp hret
    exact h.sched hexp (activates_semaDown l _ _ _ h1) (fun hl ↦ stays_semaDown hl h1)
      henabled.2.1.symm
  | yield =>
    obtain ⟨u, h1, rfl⟩ := returns_back.mp hret
    exact h.sched hexp (activates_threadYield _ _ _ h1) (fun hl ↦ absurd trivial hl)
      henabled.2.1.symm
  | semaUp l =>
    obtain ⟨u, h1, rfl⟩ := returns_back.mp hret
    exact hcall id henabled.2.1 (stays_semaUp l _ _ _ h1) hempty (Or.inl rfl)
  | setIntr b =>
    obtain ⟨u, h1, rfl⟩ := returns_back.mp hret
    exact hcall id henabled.2.1 (stays_intrSetStatus b _ _ _ h1) hempty (Or.inl rfl)
  | threadStart t prio =>
    obtain ⟨u, h1, rfl⟩ := returns_back.mp hret
    refine hcall id henabled.2.1 (stays_threadStart t prio _ _ _ h1) ?_ (Or.inl rfl)
    rintro _ rfl
    exact henabled.2.2
  | processExecute t pgdir =>
    obtain ⟨u, h1, rfl⟩ := returns_back.mp hret
    refine hcall id henabled.2.1 (stays_processExecute t _ _ _ _ h1) ?_ (Or.inl rfl)
    rintro _ rfl
    exact henabled.2.2
  | forkPcb child pgdir =>
    obtain ⟨u, h1, rfl⟩ := returns_back.mp hret
    refine hcall id henabled.2.1 (stays_forkPcb child pgdir _ _ _ h1) ?_ (Or.inl rfl)
    rintro _ rfl
    exact henabled.2.2
  | forkEnd child =>
    obtain ⟨u, h1, rfl⟩ := returns_back.mp hret
    exact hcall id henabled.2.1 (stays_forkEnd child _ _ _ h1) hempty (Or.inl rfl)
  | copyPage child =>
    obtain ⟨rfl, rfl⟩ := returns_pure.mp hret
    exact hcall id henabled.2.1 (Std.Refl.refl _) hempty (Or.inr (Or.inl ⟨child, rfl⟩))
  | inodeOpen =>
    obtain ⟨rfl, rfl⟩ := returns_pure.mp hret
    exact hcall id henabled.2.1 (Std.Refl.refl _) hempty (Or.inr (Or.inr ⟨none, rfl⟩))
  | inodeClose =>
    obtain ⟨old, s₁, h1, hret⟩ := returns_bind.mp hret
    obtain ⟨rfl, rfl⟩ := returns_pure.mp hret
    exact hcall id henabled.2.1 (stays_intrDisable _ _ _ h1) hempty
      (Or.inr (Or.inr ⟨some old, rfl⟩))

end Steps

/-! ## Runs -/

theorem pgdir_makeMainThread {s s' : Threads} {u : PUnit} (h : Returns makeMainThread s u s') :
    s'.running = s.running ∧ (s'.task s.running).pgdir = none := by
  rw [makeMainThread, returns_modify_bind, returns_get_bind] at h
  obtain ⟨u₁, s₁, h1, h⟩ := returns_bind.mp h
  have henlist : Stays ∅ s₁ s' := stays_enlist _ _ _ _ _ h
  rw [initThread, returns_modify_bind, returns_modify] at h1
  subst h1
  refine ⟨henlist.running, (henlist.pgdir _ (Set.notMem_empty _)).trans ?_⟩
  rw [Threads.setTask_task, Function.update_self]

/-- The main thread runs after booting, and has no directory of its own. -/
theorem pgdir_of_booted {s : Threads} (h : Booted s) : (s.task s.running).pgdir = none := by
  obtain ⟨s₀, init, pgdir, idle, -, -, -, hidle, -, hret⟩ := h
  obtain ⟨u₁, s₁, h1, hret⟩ := returns_bind.mp hret
  obtain ⟨u₂, s₂, h2, hret⟩ := returns_bind.mp hret
  obtain ⟨u₃, s₃, h3, hret⟩ := returns_bind.mp hret
  obtain ⟨u₄, s₄, h4, hret⟩ := returns_bind.mp hret
  obtain ⟨u₅, s₅, h5, hret⟩ := returns_bind.mp hret
  obtain ⟨u₆, s₆, h6, hret⟩ := returns_bind.mp hret
  have hlists : Stays ∅ s₀ s₃ := by
    have hinit : ∀ q, Within (Stays ∅) (Thread.listInit q) := fun q ↦ stays_setTags _
    refine IsTrans.trans _ _ _ (hinit _ _ _ _ h1) (IsTrans.trans _ _ _ (hinit _ _ _ _ h2) ?_)
    refine (?_ : Within (Stays ∅) (lockInit pidLock)) _ _ _ h3
    exact .bind (hinit _) fun _ ↦ .modify fun _ ↦ ⟨rfl, rfl, fun _ _ ↦ rfl⟩
  have hrun₄ : s₄.running = s₀.running :=
    (stays_processExecute init pgdir _ _ _ h4).running.trans hlists.running
  obtain ⟨hrun₅, hnone⟩ := pgdir_makeMainThread h5
  have hidle₆ := stays_threadStart idle 10 _ _ _ h6
  rw [returns_modify] at hret
  subst hret
  dsimp only
  rw [hidle₆.running, hrun₅, hidle₆.pgdir, hnone]
  rw [hrun₄]
  exact fun heq ↦ hidle (Set.mem_singleton_iff.mp heq).symm

section Runs

variable {σ : ℕ → DirSys} {e : ℕ → Event} {n : ℕ}

theorem DirSys.Init.inv {σ : DirSys} (h : σ.Init) : Inv σ where
  active := by
    rw [DirSys.Active, DirSys.dir, h.place, h.cr3]
    exact (pgdir_of_booted h.booted).symm
  settled t _ hf := by
    rw [h.place] at hf
    exact hf
  cleared t hc := by
    rw [h.place] at hc
    exact hc.elim
  saved t old back hc := by cases (h.place t).symm.trans hc
  left t _ d hd := by cases (h.left t).symm.trans hd

/-- **Page directories are coherent in a run without exposure**: if no thread leaves the processor
while it works with another directory than the one in its `pgdir`, the thread that is running always
has the directory in `CR3` that its code works with, and every thread comes back with the directory
that it left. -/
theorem coherent_of_not_exposed (h0 : (σ 0).Init)
    (hrun : ∀ i < n, (σ i).step (e i) = some (σ (i + 1)))
    (hexp : ∀ i < n, ¬(σ i).Exposed (e i)) :
    (∀ i ≤ n, (σ i).Active) ∧ ∀ i < n, (σ i).Leaves (e i) → (σ (i + 1)).Resumed := by
  have hinv : ∀ i ≤ n, Inv (σ i) := by
    intro i hi
    induction i with
    | zero => exact h0.inv
    | succ i ih => exact ((ih (by omega)).step (hrun i hi) (hexp i hi)).1
  exact ⟨fun i hi ↦ (hinv i hi).active,
    fun i hi ↦ ((hinv i hi.le).step (hrun i hi) (hexp i hi)).2⟩

end Runs

/-! ## Two runs -/

/-- Events one after another, each of which passes a test. -/
def DirSys.execAll (ok : DirSys → Event → Bool) (σ : DirSys) : List Event → Option DirSys
  | [] => some σ
  | e :: es => if ok σ e then (σ.step e).bind fun σ' ↦ σ'.execAll ok es else none

theorem exists_run {ok : DirSys → Event → Bool} {σ σ' : DirSys} {es : List Event}
    (h : σ.execAll ok es = some σ') : ∃ τ : ℕ → DirSys, τ 0 = σ ∧ τ es.length = σ' ∧
      ∀ i < es.length, (τ i).step (es.getD i .tick) = some (τ (i + 1)) ∧
        ok (τ i) (es.getD i .tick) = true := by
  induction es generalizing σ with
  | nil =>
    obtain rfl := Option.some.inj h
    exact ⟨fun _ ↦ σ, rfl, rfl, fun i hi ↦ absurd hi (Nat.not_lt_zero i)⟩
  | cons e es ih =>
    obtain ⟨hok, h⟩ := Option.ite_none_right_eq_some.mp h
    obtain ⟨σ₁, hstep, h⟩ := Option.bind_eq_some_iff.mp h
    obtain ⟨τ, h0, hend, hrun⟩ := ih h
    refine ⟨fun i ↦ if i = 0 then σ else τ (i - 1), rfl, hend, fun i hi ↦ ?_⟩
    cases i with
    | zero => exact ⟨hstep.trans (congrArg some h0.symm), hok⟩
    | succ i => exact hrun i (Nat.lt_of_succ_lt_succ hi)

/-- A booted system: the main thread 0, the first process 1 and the idle thread 2. -/
def DirSys.start : Option DirSys :=
  ((threadInit 1 (some 8) 2 Threads.off).toOption).map fun r ↦
    { sys := r.2
      pc := fun t ↦ if t = 2 then .idleBlock else .out
      lock := fun _ ↦ 0
      place := fun _ ↦ .elsewhere
      left := fun _ ↦ none }

theorem init_start {σ : DirSys} (h : DirSys.start = some σ) : σ.Init := by
  have hcr3 : DirSys.start.map (fun σ ↦ (σ.sys.cr3, σ.sys.idleThread)) = some (none, 2) := by
    decide +kernel
  rw [h] at hcr3
  obtain ⟨hcr3, hidle⟩ := Prod.mk.inj (Option.some.inj hcr3)
  rw [DirSys.start, Option.map_eq_some_iff] at h
  obtain ⟨⟨u, s⟩, hs, rfl⟩ := h
  have hret : Returns (threadInit 1 (some 8) 2) Threads.off u s := by
    cases hres : threadInit 1 (some 8) 2 Threads.off with
    | error f => rw [hres] at hs; cases hs
    | ok r =>
      rw [hres] at hs
      obtain rfl := Option.some.inj hs
      exact hres
  refine ⟨⟨Threads.off, 1, some 8, 2, rfl, rfl, by decide, by decide, by decide, hret⟩, hcr3,
    fun _ ↦ rfl, fun _ ↦ rfl, fun t ht ↦ ?_, ?_⟩
  · rw [hidle] at ht
    exact if_neg ht
  · rw [hidle]
    rfl

/-- The first process opens an inode while nobody has the lock of the pool, and yields. -/
def calmRun : List Event :=
  [.yield, .inodeOpen, .next, .next, .next] ++ List.replicate 5 .run ++ [.next] ++
    List.replicate 6 .run ++ [.next, .yield]

/-- The main thread has the lock when the first process opens an inode. -/
def exposedRun : List Event :=
  [.lockAcquire kernelPool] ++ List.replicate 5 .run ++
    [.yield, .inodeOpen, .next, .next, .next, .run, .run, .run, .lockRelease kernelPool] ++
    List.replicate 6 .run ++ [.yield]

theorem coherent_of_not_exposed_calmRun : ∃ σ : ℕ → DirSys, (σ 0).Init ∧
    (σ 19).left 1 = some (some 8) ∧
    (∀ i ≤ 19, (σ i).Active) ∧
      ∀ i < 19, (σ i).Leaves (calmRun.getD i .tick) → (σ (i + 1)).Resumed := by
  have hrun : (DirSys.start.bind fun σ ↦
      (σ.execAll (fun σ e ↦ !decide (σ.Leaves e ∧ σ.place σ.sys.running ≠ .elsewhere)) calmRun).map
        fun σ ↦ σ.left 1) = some (some (some 8)) := by
    decide +kernel
  obtain ⟨σ₀, h0, hrun⟩ := Option.bind_eq_some_iff.mp hrun
  obtain ⟨σ', hrun, hleft⟩ := Option.map_eq_some_iff.mp hrun
  obtain ⟨τ, hτ, hend, hrun⟩ := exists_run hrun
  have hinit : (τ 0).Init := hτ ▸ init_start h0
  refine ⟨τ, hinit, ?_, coherent_of_not_exposed (n := 19) hinit (fun i hi ↦ (hrun i hi).1)
    fun i hi hexp ↦ ?_⟩
  · rw [← hleft, ← hend]
    rfl
  · have hok := (hrun i hi).2
    rw [Bool.not_eq_true', decide_eq_false_iff_not] at hok
    refine hok ⟨hexp.1, fun hplace ↦ ?_⟩
    rw [DirSys.Exposed, hplace] at hexp
    exact hexp.2

/-- The first process waits for the lock with its `pgdir` cleared, and comes back with the directory
of the kernel. -/
theorem not_coherent_exposedRun : ¬∀ (σ : ℕ → DirSys) (e : ℕ → Event) (n : ℕ), (σ 0).Init →
    (∀ i < n, (σ i).step (e i) = some (σ (i + 1))) →
    (∀ i ≤ n, (σ i).Active) ∧ ∀ i < n, (σ i).Leaves (e i) → (σ (i + 1)).Resumed := by
  intro hall
  have hrun : (DirSys.start.bind fun σ ↦ (σ.execAll (fun _ _ ↦ true) exposedRun).map fun σ ↦
      (σ.sys.running, σ.sys.cr3, σ.place 1)) = some (1, none, .heapLocked none (some 8)) := by
    decide +kernel
  obtain ⟨σ₀, h0, hrun⟩ := Option.bind_eq_some_iff.mp hrun
  obtain ⟨σ', hrun, hlast⟩ := Option.map_eq_some_iff.mp hrun
  obtain ⟨τ, hτ, hend, hrun⟩ := exists_run hrun
  obtain ⟨hone, hcr3, hplace⟩ := Prod.mk.inj hlast |>.imp_right Prod.mk.inj
  have hactive := (hall τ (fun i ↦ exposedRun.getD i .tick) _ (hτ ▸ init_start h0)
    fun i hi ↦ (hrun i hi).1).1 _ le_rfl
  rw [DirSys.Active, hend, hone, hcr3, DirSys.dir, hplace] at hactive
  cases hactive

end GlowOS.Activation
