import Mathlib
import GlowOS.Kernel.Debug
import GlowOS.Lib.Program
import GlowOS.Lib.Queues

/-!
# Threads

The data of `thread/thread.c` and its functions: creating threads, choosing the next one, blocking
and waking.

## Threads and lists

A thread is known by the page of its `task_struct`. Every `task_struct` has two list elements:
`all_list_tag` for `thread_all_list`, and `general_tag`, which serves for `thread_ready_list` as
well as for the waiters of a semaphore.

## Interrupts

`intr` is the interrupt flag of the processor. A thread that leaves the processor in `schedule` comes
back with the status it had saved there: `old_status` of `thread_block` and `thread_yield`, the flags
on its interrupt frame, or interrupts on for a thread that starts. `resumes` holds that status for
each thread; it stands for a local variable on the thread's kernel stack.
-/

namespace GlowOS.Thread

open Program Links

/-! ## Data -/

/-- `enum task_status`. -/
inductive TaskStatus
  | running
  | ready
  | blocked
  | waiting
  | hanging
  | died
  deriving DecidableEq, Repr

/-- The fields of `struct task_struct` that scheduling uses. -/
structure TaskStruct where
  status : TaskStatus
  priority : ℕ
  ticks : ℕ
  elapsedTicks : ℕ
  /-- The page directory, null for a kernel thread. -/
  pgdir : Option ℕ
  stackMagic : ℕ

/-- The list elements in the `task_struct` of a thread. -/
inductive Tag
  | general (t : ℕ)
  | allList (t : ℕ)
  deriving DecidableEq, Repr

/-- `thread_ready_list`, `thread_all_list` and the waiters of each semaphore. -/
inductive Queue
  | ready
  | all
  | waiters (sema : ℕ)
  deriving DecidableEq, Repr

/-- `struct lock`, with the value of its semaphore. -/
structure Lock where
  holder : Option ℕ
  value : ℕ
  holderRepeatNr : ℕ

/-- The state of the threads. -/
structure Threads where
  task : ℕ → TaskStruct
  /-- The list elements of all threads and the sentinels of all lists. -/
  tags : Links (QNode Queue Tag)
  lock : ℕ → Lock
  /-- The thread whose stack the processor uses. -/
  running : ℕ
  mainThread : Option ℕ
  idleThread : ℕ
  /-- Whether interrupts are on. -/
  intr : Bool
  /-- The interrupt status each thread goes on with. -/
  resumes : ℕ → Bool
  /-- The page directory in `CR3`, `none` for the one of the kernel. -/
  cr3 : Option ℕ
  /-- How many pages became a `task_struct` (ghost). -/
  created : ℕ

/-- Programs over the threads. -/
abbrev ThM := StateT Threads (Except Fault)

/-- `ASSERT`. -/
abbrev ASSERT (p : Prop) [Decidable p] : ThM PUnit := Program.check Fault.assert p

/-- `0x19870916`. -/
abbrev stackMagic : ℕ := 0x19870916

/-! ## Interrupts -/

/-- Set the interrupt flag. -/
@[simps -fullyApplied] def Threads.setIntr (s : Threads) (b : Bool) : Threads := { s with intr := b }

/-- `intr_disable`, which returns the old status. -/
def intrDisable : ThM Bool := do
  let s ← get
  modify fun s ↦ s.setIntr false
  pure s.intr

/-- `intr_set_status`. -/
def intrSetStatus (status : Bool) : ThM PUnit := modify fun s ↦ s.setIntr status

/-! ## Lists -/

/-- `elem_find`. A list holds no element twice, so a longer walk does not end. -/
def elemFind (q : Queue) (e : Tag) : ThM Bool := do
  let s ← get
  match s.tags.find (.tail q) (· == .elem e) (s.created + 1) (s.tags.next (.head q)) with
  | none => throw Fault.hang
  | some r => pure r.isSome

/-- Link the list elements in another way. -/
@[simps -fullyApplied] def Threads.setTags (s : Threads) (tags : Links (QNode Queue Tag)) : Threads :=
  { s with tags := tags }

/-- `list_append`. -/
def listAppend (q : Queue) (e : Tag) : ThM PUnit :=
  modify fun s ↦ s.setTags (s.tags.appendQueue q e)

/-- `list_push`. -/
def listPush (q : Queue) (e : Tag) : ThM PUnit :=
  modify fun s ↦ s.setTags (s.tags.pushQueue q e)

/-- `list_init`. -/
def listInit (q : Queue) : ThM PUnit :=
  modify fun s ↦ s.setTags (s.tags.initQueue q)

/-- `list_empty`. -/
def listEmpty (q : Queue) : ThM Bool := do
  let s ← get
  pure (s.tags.next (.head q) == .tail q)

/-- `list_pop`, and the thread whose `general_tag` it returns. -/
def listPop (q : Queue) : ThM ℕ := do
  let s ← get
  ASSERT (s.tags.next (.head q) ≠ .tail q)
  match s.tags.next (.head q) with
  | .elem (.general t) => do
    modify fun s ↦ s.setTags (s.tags.remove (.elem (.general t)))
    pure t
  | _ => throw Fault.null

/-! ## Scheduling -/

/-- Change the `task_struct` of a thread. -/
@[simps -fullyApplied] def Threads.setTask (s : Threads) (t : ℕ) (p : TaskStruct) : Threads :=
  { s with task := Function.update s.task t p }

/-- Assign `status`. -/
def setStatus (t : ℕ) (status : TaskStatus) : ThM PUnit :=
  modify fun s ↦ s.setTask t { s.task t with status := status }

/-- A thread that is not dead and does not compete for the processor. -/
abbrev TaskStatus.IsBlocked (st : TaskStatus) : Prop :=
  st = .blocked ∨ st = .waiting ∨ st = .hanging

/-- `thread_unblock`. -/
def threadUnblock (t : ℕ) : ThM PUnit := do
  let old ← intrDisable
  let s ← get
  ASSERT (s.task t).status.IsBlocked
  if (s.task t).status ≠ .ready then
    let found ← elemFind .ready (.general t)
    ASSERT (found = false)
    listPush .ready (.general t)
    setStatus t .ready
    intrSetStatus old
  else intrSetStatus old

/-- `process_activate`: the page directory of the thread, or of the kernel. -/
def processActivate (t : ℕ) : ThM PUnit :=
  modify fun s ↦ { s with cr3 := (s.task t).pgdir }

/-- The branch of `schedule` for a thread whose time is used up. -/
def requeue (cur : ℕ) : ThM PUnit := do
  let found ← elemFind .ready (.general cur)
  ASSERT (found = false)
  listAppend .ready (.general cur)
  modify fun s ↦ s.setTask cur { s.task cur with status := .ready, ticks := (s.task cur).priority }

/-- Wake the idle thread if no thread is ready. -/
def wakeIdle : ThM PUnit := do
  let empty ← listEmpty .ready
  if empty then
    let s ← get
    threadUnblock s.idleThread
  else pure PUnit.unit

/-- The part of `schedule` from the test of `thread_ready_list` on. -/
def scheduleNext : ThM PUnit := do
  wakeIdle
  let empty ← listEmpty .ready
  ASSERT (empty = false)
  let next ← listPop .ready
  setStatus next .running
  processActivate next
  -- `switch_to`
  modify fun s ↦ { s with running := next }

/-- `schedule`. When it returns another thread is running, which left the processor here, too. -/
def schedule : ThM PUnit := do
  let s ← get
  ASSERT (s.intr = false)
  if (s.task s.running).status = .running then
    requeue s.running
    scheduleNext
  else scheduleNext

/-- Call `schedule` with `old` as the status the caller saved, and go on as the thread that runs
then. -/
def scheduleFrom (old : Bool) : ThM PUnit := do
  modify fun s ↦ { s with resumes := Function.update s.resumes s.running old }
  schedule
  let s ← get
  intrSetStatus (s.resumes s.running)

/-- `thread_block`. -/
def threadBlock (stat : TaskStatus) : ThM PUnit := do
  ASSERT stat.IsBlocked
  let old ← intrDisable
  let s ← get
  setStatus s.running stat
  scheduleFrom old

/-- `thread_yield`. -/
def threadYield : ThM PUnit := do
  let old ← intrDisable
  let s ← get
  let found ← elemFind .ready (.general s.running)
  ASSERT (found = false)
  listAppend .ready (.general s.running)
  setStatus s.running .ready
  scheduleFrom old

/-- `intr_timer_handler`, which the processor enters with interrupts off; `iret` puts the flags of
the interrupted thread back. -/
def intrTimerHandler : ThM PUnit := do
  let old ← intrDisable
  let s ← get
  ASSERT ((s.task s.running).stackMagic = stackMagic)
  modify fun s ↦ s.setTask s.running
    { s.task s.running with elapsedTicks := ((s.task s.running).elapsedTicks + 1) % 2 ^ 32 }
  if (s.task s.running).ticks = 0 then
    scheduleFrom old
  else
    modify fun s ↦ s.setTask s.running
      { s.task s.running with ticks := (s.task s.running).ticks - 1 }
    intrSetStatus old

/-! ## Creating threads -/

/-- `memset` on the list elements of a `task_struct`. -/
def Threads.clearTags (s : Threads) (t : ℕ) : Threads :=
  s.setTags
    ⟨Function.update (Function.update s.tags.prev (.elem (.general t)) .null)
        (.elem (.allList t)) .null,
      Function.update (Function.update s.tags.next (.elem (.general t)) .null)
        (.elem (.allList t)) .null⟩

/-- `init_thread`. -/
def initThread (t prio : ℕ) : ThM PUnit := do
  modify fun s ↦ { s.clearTags t with created := s.created + 1 }
  modify fun s ↦ s.setTask t
    { status := if s.mainThread = some t then .running else .ready
      priority := prio
      ticks := prio
      elapsedTicks := 0
      pgdir := none
      stackMagic := stackMagic }

/-- `thread_create`: the thread starts in `kernel_thread`, which turns interrupts on. -/
def threadCreate (t : ℕ) : ThM PUnit :=
  modify fun s ↦ { s with resumes := Function.update s.resumes t true }

/-- Append a list element that must not be in the list. -/
def enlist (q : Queue) (e : Tag) : ThM PUnit := do
  let found ← elemFind q e
  ASSERT (found = false)
  listAppend q e

/-- `thread_start`, for the page that `get_kernel_pages` returned. -/
def threadStart (t prio : ℕ) : ThM PUnit := do
  initThread t prio
  threadCreate t
  enlist .ready (.general t)
  enlist .all (.allList t)

/-- `default_prio`. -/
abbrev defaultPrio : ℕ := 31

/-- `process_execute`, for the pages that `get_kernel_pages` and `create_page_dir` returned. -/
def processExecute (t : ℕ) (pgdir : Option ℕ) : ThM PUnit := do
  initThread t defaultPrio
  threadCreate t
  modify fun s ↦ s.setTask t { s.task t with pgdir := pgdir }
  let old ← intrDisable
  enlist .ready (.general t)
  enlist .all (.allList t)
  intrSetStatus old

/-- `make_main_thread`. -/
def makeMainThread : ThM PUnit := do
  modify fun s ↦ { s with mainThread := some s.running }
  let s ← get
  initThread s.running 31
  enlist .all (.allList s.running)

/-- `lock_init`. -/
def lockInit (l : ℕ) : ThM PUnit := do
  listInit (.waiters l)
  modify fun s ↦ { s with lock := Function.update s.lock l ⟨none, 1, 0⟩ }

/-- `pid_lock`. -/
abbrev pidLock : ℕ := 0

/-- `thread_init`, for the page and the page directory of the first process and the page of the idle
thread. -/
def threadInit (init : ℕ) (pgdir : Option ℕ) (idle : ℕ) : ThM PUnit := do
  listInit .ready
  listInit .all
  lockInit pidLock
  processExecute init pgdir
  makeMainThread
  threadStart idle 10
  modify fun s ↦ { s with idleThread := idle }

end GlowOS.Thread
