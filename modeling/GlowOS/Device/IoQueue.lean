import Mathlib
import GlowOS.Lib.Ring
import GlowOS.Thread.Lock

/-!
# The ring buffer

`device/ioqueue.c`, with any number of threads that call `ioq_getchar` and `ioq_putchar`. Both run
with interrupts off, so that the processor changes hands only where a call blocks: in the loop of
`sema_down` that `lock_acquire` calls, and in `ioq_wait`. A step is what a thread does from one of
these points to the next.

The history of a run is the list of the characters stored and the list of those returned. What is
between them is the contents of the ring.
-/

namespace GlowOS.Device

open Program Thread

/-! ## Data -/

/-- `bufsize`. -/
abbrev bufsize : ℕ := 64

/-- The fields `consumer` and `producer`, by whose addresses `ioq_wait` and `wakeup` are called. -/
inductive Waiter
  | consumer
  | producer
  deriving DecidableEq, Repr

/-- `struct ioqueue`. `lock` is the number of its lock among the locks of the threads. -/
structure Ioqueue where
  lock : ℕ
  waiter : Waiter → Option ℕ
  buf : ℕ → UInt8
  head : ℕ
  tail : ℕ

/-- The threads and the queue they share. -/
structure IoState where
  threads : Threads
  ioq : Ioqueue

/-- Programs over the threads and the queue. -/
abbrev IoM := StateT IoState (Except Fault)

/-- A function that does not use the queue. -/
def onThreads {α : Type} (m : ThM α) : IoM α := fun s ↦ do
  let r ← m s.threads
  pure (r.1, { s with threads := r.2 })

theorem returns_onThreads {α : Type} {m : ThM α} {s s' : IoState} {a : α} :
    Returns (onThreads m) s a s' ↔
      ∃ t, Returns m s.threads a t ∧ s' = { s with threads := t } := by
  have hrun : onThreads m s = (m s.threads >>= fun r ↦ .ok (r.1, { s with threads := r.2 })) := rfl
  rw [Returns, hrun]
  cases hm : m s.threads with
  | error e =>
    constructor
    · intro h
      cases h
    · rintro ⟨t, h, -⟩
      rw [Returns, hm] at h
      cases h
  | ok r =>
    constructor
    · intro h
      cases h
      exact ⟨r.2, hm, rfl⟩
    · rintro ⟨t, h, rfl⟩
      rw [Returns, hm, Except.ok.injEq] at h
      subst h
      rfl

/-! ## The lock with interrupts off -/

/-- `lock_acquire` from a round of `sema_down` on, in a call that will restore the interrupt status
`old`: whether the thread has the lock. If not, it has left the processor. -/
def acquireRound (l : ℕ) (old : Bool) : ThM Bool := do
  let taken ← semaDownRound l
  if taken then
    intrSetStatus old
    let s ← get
    modifyLock l fun k ↦ { k with holder := some s.running }
    Thread.ASSERT ((s.lock l).holderRepeatNr = 0)
    modifyLock l fun k ↦ { k with holderRepeatNr := 1 }
    pure true
  else pure false

/-- `lock_acquire`. -/
def lockAcquire (l : ℕ) : ThM Bool := do
  let s ← get
  if (s.lock l).holder ≠ some s.running then
    let old ← intrDisable
    acquireRound l old
  else
    modifyLock l fun k ↦ { k with holderRepeatNr := (k.holderRepeatNr + 1) % 2 ^ 32 }
    pure true

/-- `lock_release`. -/
def lockRelease (l : ℕ) : ThM PUnit := do
  let s ← get
  Thread.ASSERT ((s.lock l).holder = some s.running)
  if 1 < (s.lock l).holderRepeatNr then
    modifyLock l fun k ↦ { k with holderRepeatNr := k.holderRepeatNr - 1 }
  else
    Thread.ASSERT ((s.lock l).holderRepeatNr = 1)
    modifyLock l fun k ↦ { k with holder := none }
    modifyLock l fun k ↦ { k with holderRepeatNr := 0 }
    semaUp l

/-! ## The functions -/

/-- Change the queue. -/
@[simps -fullyApplied] def IoState.setIoq (s : IoState) (q : Ioqueue) : IoState := { s with ioq := q }

/-- `init_ioqueue`. -/
def initIoqueue : IoM PUnit := do
  let s ← get
  onThreads (lockInit s.ioq.lock)
  modify fun s ↦ s.setIoq { s.ioq with waiter := fun _ ↦ none }
  modify fun s ↦ s.setIoq { s.ioq with head := 0, tail := 0 }

/-- `next_pos`. -/
def nextPos (pos : ℕ) : ℕ := (pos + 1) % bufsize

/-- The test of `ioq_full`. -/
abbrev Ioqueue.Full (q : Ioqueue) : Prop := nextPos q.head = q.tail

/-- The test of `ioq_empty`. -/
abbrev Ioqueue.Empty (q : Ioqueue) : Prop := q.head = q.tail

/-- `ASSERT(intr_get_status() == INTR_OFF)`. -/
def assertIntrOff : IoM PUnit := do
  let s ← get
  check Fault.assert (s.threads.intr = false)

/-- `ioq_full`. -/
def ioqFull : IoM Bool := do
  assertIntrOff
  let s ← get
  pure (decide s.ioq.Full)

/-- `ioq_empty`. -/
def ioqEmpty : IoM Bool := do
  assertIntrOff
  let s ← get
  pure (decide s.ioq.Empty)

/-- Assign `consumer` or `producer`. -/
def setWaiter (w : Waiter) (t : Option ℕ) : IoM PUnit :=
  modify fun s ↦ s.setIoq { s.ioq with waiter := Function.update s.ioq.waiter w t }

/-- `ioq_wait`, until the thread leaves the processor. -/
def ioqWait (w : Waiter) : IoM PUnit := do
  let s ← get
  check Fault.assert (s.ioq.waiter w = none)
  setWaiter w (some s.threads.running)
  onThreads (threadBlock .blocked)

/-- `wakeup`. -/
def wakeup (w : Waiter) : IoM PUnit := do
  let s ← get
  match s.ioq.waiter w with
  | none => throw Fault.assert
  | some t => do
    onThreads (threadUnblock t)
    setWaiter w none

/-- Call `wakeup` if a thread waits. -/
def wakeupIf (w : Waiter) : IoM PUnit := do
  let s ← get
  if s.ioq.waiter w ≠ none then wakeup w
  else pure PUnit.unit

/-- The two functions that threads call. -/
inductive IoOp
  | getchar
  | putchar (chr : UInt8)
  deriving DecidableEq, Repr

/-- The field the function waits in. -/
def IoOp.waiter : IoOp → Waiter
  | .getchar => .consumer
  | .putchar _ => .producer

/-- The test of the loop. -/
def IoOp.Stuck (q : Ioqueue) : IoOp → Prop
  | .getchar => q.Empty
  | .putchar _ => q.Full

/-- Where a thread is in one of the functions. -/
inductive IoPc
  /-- In none of them. -/
  | out
  /-- In the loop of `sema_down`, back from `thread_block`. -/
  | lock (op : IoOp)
  /-- In `ioq_wait`, back from `thread_block`. -/
  | wait (op : IoOp)
  deriving DecidableEq, Repr

/-- How a thread comes out of a step. -/
inductive Outcome
  /-- It left the processor at this point. -/
  | sleeps (p : IoPc)
  /-- `ioq_getchar` returned a character. -/
  | got (chr : UInt8)
  /-- `ioq_putchar` returned, having stored a character. -/
  | stored (chr : UInt8)
  deriving DecidableEq, Repr

/-- The body of the loops behind `lock_acquire`. -/
def IoOp.register (op : IoOp) (acquired : Bool) : IoM Outcome := do
  if acquired then
    ioqWait op.waiter
    pure (.sleeps (.wait op))
  else pure (.sleeps (.lock op))

/-- The body of the loops of `ioq_getchar` and `ioq_putchar`. -/
def IoOp.sleep (op : IoOp) : IoM Outcome := do
  let s ← get
  let acquired ← onThreads (lockAcquire s.ioq.lock)
  op.register acquired

/-- `ioq_getchar` behind its loop. -/
def takeChar : IoM Outcome := do
  let s ← get
  check Fault.bounds (s.ioq.tail < bufsize)
  let retchr := s.ioq.buf s.ioq.tail
  modify fun s ↦ s.setIoq { s.ioq with tail := nextPos s.ioq.tail }
  wakeupIf .producer
  pure (.got retchr)

/-- `ioq_putchar` behind its loop. -/
def storeChar (chr : UInt8) : IoM Outcome := do
  let s ← get
  check Fault.bounds (s.ioq.head < bufsize)
  modify fun s ↦ s.setIoq { s.ioq with buf := Function.update s.ioq.buf s.ioq.head chr }
  modify fun s ↦ s.setIoq { s.ioq with head := nextPos s.ioq.head }
  wakeupIf .consumer
  pure (.stored chr)

/-- `ioq_getchar` from the test of its loop on. -/
def getcharLoop : IoM Outcome := do
  let empty ← ioqEmpty
  if empty then IoOp.getchar.sleep else takeChar

/-- `ioq_putchar` from the test of its loop on. -/
def putcharLoop (chr : UInt8) : IoM Outcome := do
  let full ← ioqFull
  if full then (IoOp.putchar chr).sleep else storeChar chr

/-- The loop and what is behind it. -/
def IoOp.loop : IoOp → IoM Outcome
  | .getchar => getcharLoop
  | .putchar chr => putcharLoop chr

/-- `ioq_getchar` and `ioq_putchar`. -/
def IoOp.call (op : IoOp) : IoM Outcome := do
  assertIntrOff
  op.loop

/-- Go on at a control point. -/
def IoPc.resume : IoPc → IoM Outcome
  | .out => pure (.sleeps .out)
  | .lock op => do
    let s ← get
    -- interrupts were off when the thread called `sema_down`
    let acquired ← onThreads (acquireRound s.ioq.lock false)
    op.register acquired
  | .wait op => do
    let s ← get
    onThreads (lockRelease s.ioq.lock)
    op.loop

/-! ## Steps -/

/-- The threads and the queue, the control point of each thread, and what was stored and returned. -/
structure IoSys where
  st : IoState
  pc : ℕ → IoPc
  stored : List UInt8
  returned : List UInt8

/-- The state after a step of the thread `t`. -/
def IoSys.after (σ : IoSys) (t : ℕ) (s : IoState) : Outcome → IoSys
  | .sleeps p => { σ with st := s, pc := Function.update σ.pc t p }
  | .got chr =>
    { σ with st := s, pc := Function.update σ.pc t .out, returned := σ.returned ++ [chr] }
  | .stored chr =>
    { σ with st := s, pc := Function.update σ.pc t .out, stored := σ.stored ++ [chr] }

/-- What happens in a step: the running thread calls a function or goes on in one, or something that
does not use the queue. -/
inductive IoEvent
  | call (op : IoOp)
  | run
  | sched (c : SchedCall)
  | setIntr (b : Bool)

/-- A call of the scheduler from code that does not use the queue. Only a tick comes by itself, and a
thread that waits for the queue or its lock is woken by nobody else. -/
def IoSys.Outside (σ : IoSys) : SchedCall → Prop
  | .tick => True
  | .unblock t => σ.pc σ.st.threads.running = .out ∧ σ.pc t = .out
  | _ => σ.pc σ.st.threads.running = .out

/-- The steps of threads that use the queue. The idle thread never blocks in it: only an interrupt
handler that runs on its stack uses the queue. -/
inductive IoStep (σ : IoSys) : IoEvent → IoSys → Prop
  | call {s : IoState} {o : Outcome} (op : IoOp) (hpc : σ.pc σ.st.threads.running = .out)
      (hidle : σ.st.threads.running = σ.st.threads.idleThread → ¬op.Stuck σ.st.ioq)
      (hret : Returns op.call σ.st o s) :
      IoStep σ (.call op) (σ.after σ.st.threads.running s o)
  | run {s : IoState} {o : Outcome} (hpc : σ.pc σ.st.threads.running ≠ .out)
      (hret : Returns (σ.pc σ.st.threads.running).resume σ.st o s) :
      IoStep σ .run (σ.after σ.st.threads.running s o)
  | sched {t : Threads} (c : SchedCall) (hc : c.Enabled σ.st.threads) (hout : σ.Outside c)
      (hret : Returns c.run σ.st.threads PUnit.unit t) :
      IoStep σ (.sched c) { σ with st := { σ.st with threads := t } }
  | setIntr (b : Bool) (hpc : σ.pc σ.st.threads.running = .out) :
      IoStep σ (.setIntr b) { σ with st := { σ.st with threads := σ.st.threads.setIntr b } }

/-- A state the scheduler can be in, right after `init_ioqueue`. -/
structure IoInit (σ : IoSys) : Prop where
  init : ∃ s : IoState, SchedReachable s.threads ∧ Returns initIoqueue s PUnit.unit σ.st
  out : ∀ t, σ.pc t = .out
  stored : σ.stored = []
  returned : σ.returned = []

/-- The states that threads reach which share the queue. -/
inductive IoReachable : IoSys → Prop
  | init {σ : IoSys} (h : IoInit σ) : IoReachable σ
  | step {σ σ' : IoSys} {e : IoEvent} (h : IoReachable σ) (hstep : IoStep σ e σ') : IoReachable σ'

/-! ## First in, first out -/

section Fifo

variable {s s' : IoState} {o : Outcome} {σ σ' : IoSys} {e : IoEvent}

/-- The ring and its indices are the same. -/
structure SameRing (s s' : IoState) : Prop where
  buf : s'.ioq.buf = s.ioq.buf
  head : s'.ioq.head = s.ioq.head
  tail : s'.ioq.tail = s.ioq.tail

instance : Std.Refl SameRing := ⟨fun _ ↦ ⟨rfl, rfl, rfl⟩⟩

instance : IsTrans IoState SameRing :=
  ⟨fun _ _ _ h h' ↦ ⟨h'.buf.trans h.buf, h'.head.trans h.head, h'.tail.trans h.tail⟩⟩

theorem sameRing_onThreads {α : Type} (m : ThM α) : Within SameRing (onThreads m) := by
  intro s a s' h
  obtain ⟨t, -, rfl⟩ := returns_onThreads.mp h
  exact ⟨rfl, rfl, rfl⟩

theorem sameRing_setWaiter (w : Waiter) (t : Option ℕ) : Within SameRing (setWaiter w t) :=
  .modify fun _ ↦ ⟨rfl, rfl, rfl⟩

theorem sameRing_ioqWait (w : Waiter) : Within SameRing (ioqWait w) :=
  .bind .get fun _ ↦ .bind (.check _ _) fun _ ↦
    .bind (sameRing_setWaiter _ _) fun _ ↦ sameRing_onThreads _

theorem sameRing_wakeupIf (w : Waiter) : Within SameRing (wakeupIf w) := by
  refine .bind .get fun s ↦ .ite (.bind .get fun s ↦ ?_) (.pure _)
  cases s.ioq.waiter w with
  | none => exact .throw _
  | some t => exact .bind (sameRing_onThreads _) fun _ ↦ sameRing_setWaiter _ _

/-- What a step does to the ring. -/
def RingEffect (s : IoState) : Outcome → IoState → Prop
  | .sleeps _, s' => SameRing s s'
  | .got chr, s' => ¬s.ioq.Empty ∧ chr = s.ioq.buf s.ioq.tail ∧
    SameRing (s.setIoq { s.ioq with tail := nextPos s.ioq.tail }) s'
  | .stored chr, s' => ¬s.ioq.Full ∧
    SameRing (s.setIoq { s.ioq with
      buf := Function.update s.ioq.buf s.ioq.head chr
      head := nextPos s.ioq.head }) s'

/-- Only the ring counts for `RingEffect`. -/
theorem RingEffect.of_sameRing {t : IoState} (h : SameRing s t) (he : RingEffect t o s') :
    RingEffect s o s' := by
  obtain ⟨hbuf, hhead, htail⟩ := h
  cases o with
  | sleeps p =>
    have hs : SameRing t s' := he
    exact ⟨hs.buf.trans hbuf, hs.head.trans hhead, hs.tail.trans htail⟩
  | got chr =>
    obtain ⟨hne, hchr, hs⟩ := he
    rw [hbuf, htail] at hchr
    refine ⟨by rwa [Ioqueue.Empty, ← hhead, ← htail], hchr, ?_⟩
    obtain ⟨h1, h2, h3⟩ := hs
    simp only [IoState.setIoq_ioq] at h1 h2 h3
    rw [htail] at h3
    exact ⟨h1.trans hbuf, h2.trans hhead, h3⟩
  | stored chr =>
    obtain ⟨hne, hs⟩ := he
    refine ⟨by rwa [Ioqueue.Full, ← hhead, ← htail], ?_⟩
    obtain ⟨h1, h2, h3⟩ := hs
    simp only [IoState.setIoq_ioq] at h1 h2 h3
    rw [hbuf, hhead] at h1
    rw [hhead] at h2
    exact ⟨h1, h2, h3.trans htail⟩

theorem ringEffect_register {op : IoOp} {b : Bool} (h : Returns (op.register b) s o s') :
    RingEffect s o s' := by
  rcases returns_ite.mp h with ⟨-, h⟩ | ⟨-, h⟩
  · obtain ⟨_, t, h1, h⟩ := returns_bind.mp h
    obtain ⟨rfl, rfl⟩ := returns_pure.mp h
    exact sameRing_ioqWait _ _ _ _ h1
  · obtain ⟨rfl, rfl⟩ := returns_pure.mp h
    exact refl s'

theorem ringEffect_sleep {op : IoOp} (h : Returns op.sleep s o s') : RingEffect s o s' := by
  rw [IoOp.sleep, returns_get_bind] at h
  obtain ⟨b, t, h1, h⟩ := returns_bind.mp h
  exact (ringEffect_register h).of_sameRing (sameRing_onThreads _ _ _ _ h1)

theorem returns_ioqEmpty {b : Bool} :
    Returns ioqEmpty s b s' ↔ s.threads.intr = false ∧ b = decide s.ioq.Empty ∧ s' = s := by
  simp [ioqEmpty, assertIntrOff, and_comm]

theorem returns_ioqFull {b : Bool} :
    Returns ioqFull s b s' ↔ s.threads.intr = false ∧ b = decide s.ioq.Full ∧ s' = s := by
  simp [ioqFull, assertIntrOff, and_comm]

theorem ringEffect_loop {op : IoOp} (h : Returns op.loop s o s') : RingEffect s o s' := by
  cases op with
  | getchar =>
    obtain ⟨b, t, h1, h⟩ := returns_bind.mp h
    obtain ⟨-, rfl, rfl⟩ := returns_ioqEmpty.mp h1
    rcases returns_ite.mp h with ⟨-, h⟩ | ⟨hne, h⟩
    · exact ringEffect_sleep h
    · rw [takeChar, returns_get_bind, returns_check_bind] at h
      obtain ⟨-, h⟩ := h
      rw [returns_modify_bind] at h
      obtain ⟨_, s₁, h1, h⟩ := returns_bind.mp h
      obtain ⟨rfl, rfl⟩ := returns_pure.mp h
      exact ⟨by simpa using hne, rfl, sameRing_wakeupIf _ _ _ _ h1⟩
  | putchar chr =>
    obtain ⟨b, t, h1, h⟩ := returns_bind.mp h
    obtain ⟨-, rfl, rfl⟩ := returns_ioqFull.mp h1
    rcases returns_ite.mp h with ⟨-, h⟩ | ⟨hne, h⟩
    · exact ringEffect_sleep h
    · rw [storeChar, returns_get_bind, returns_check_bind] at h
      obtain ⟨-, h⟩ := h
      rw [returns_modify_bind, returns_modify_bind] at h
      obtain ⟨_, s₁, h1, h⟩ := returns_bind.mp h
      obtain ⟨rfl, rfl⟩ := returns_pure.mp h
      exact ⟨by simpa using hne, sameRing_wakeupIf _ _ _ _ h1⟩

theorem ringEffect_call {op : IoOp} (h : Returns op.call s o s') : RingEffect s o s' := by
  rw [IoOp.call, assertIntrOff, bind_assoc, returns_get_bind, returns_check_bind] at h
  exact ringEffect_loop h.2

theorem ringEffect_resume {p : IoPc} (h : Returns p.resume s o s') : RingEffect s o s' := by
  cases p with
  | out =>
    obtain ⟨rfl, rfl⟩ := returns_pure.mp h
    exact refl s'
  | lock op =>
    rw [IoPc.resume, returns_get_bind] at h
    obtain ⟨b, t, h1, h⟩ := returns_bind.mp h
    exact (ringEffect_register h).of_sameRing (sameRing_onThreads _ _ _ _ h1)
  | wait op =>
    rw [IoPc.resume, returns_get_bind] at h
    obtain ⟨b, t, h1, h⟩ := returns_bind.mp h
    exact (ringEffect_loop h).of_sameRing (sameRing_onThreads _ _ _ _ h1)

/-- The characters stored are those returned and, behind them, the contents of the ring. -/
structure FifoInv (σ : IoSys) : Prop where
  head_lt : σ.st.ioq.head < bufsize
  tail_lt : σ.st.ioq.tail < bufsize
  stored : σ.stored = σ.returned ++
    Ring.contents bufsize σ.st.ioq.buf σ.st.ioq.head σ.st.ioq.tail

theorem IoInit.fifoInv (h : IoInit σ) : FifoInv σ := by
  obtain ⟨⟨s, -, hret⟩, -, hstored, hreturned⟩ := h
  rw [initIoqueue, returns_get_bind] at hret
  obtain ⟨_, t, -, hret⟩ := returns_bind.mp hret
  rw [returns_modify_bind, returns_modify] at hret
  have hhead : σ.st.ioq.head = 0 := by rw [hret]; rfl
  have htail : σ.st.ioq.tail = 0 := by rw [hret]; rfl
  refine ⟨by rw [hhead]; decide, by rw [htail]; decide, ?_⟩
  rw [hhead, htail, Ring.contents_self (by decide), hstored, hreturned]
  rfl

/-- A stored character comes behind the contents, and the first of them is returned. -/
theorem FifoInv.after (h : FifoInv σ) (t : ℕ) (he : RingEffect σ.st o s) :
    FifoInv (σ.after t s o) := by
  obtain ⟨hhead, htail, hstored⟩ := h
  cases o with
  | sleeps p =>
    have hs : SameRing σ.st s := he
    refine ⟨hs.head ▸ hhead, hs.tail ▸ htail, ?_⟩
    change σ.stored = σ.returned ++ Ring.contents bufsize s.ioq.buf s.ioq.head s.ioq.tail
    rw [hs.buf, hs.head, hs.tail]
    exact hstored
  | got chr =>
    obtain ⟨hne, rfl, hs⟩ := he
    have hs' : s.ioq.head = σ.st.ioq.head := hs.head
    have hs'' : s.ioq.tail = nextPos σ.st.ioq.tail := hs.tail
    refine ⟨hs' ▸ hhead, hs'' ▸ Ring.next_lt htail, ?_⟩
    change σ.stored = (σ.returned ++ [σ.st.ioq.buf σ.st.ioq.tail]) ++
      Ring.contents bufsize s.ioq.buf s.ioq.head s.ioq.tail
    rw [hs.buf, hs', hs'', hstored, Ring.contents_take hhead htail hne, List.append_assoc]
    rfl
  | stored chr =>
    obtain ⟨hne, hs⟩ := he
    have hs' : s.ioq.head = nextPos σ.st.ioq.head := hs.head
    have hs'' : s.ioq.tail = σ.st.ioq.tail := hs.tail
    refine ⟨hs' ▸ Ring.next_lt hhead, hs'' ▸ htail, ?_⟩
    change σ.stored ++ [chr] = σ.returned ++
      Ring.contents bufsize s.ioq.buf s.ioq.head s.ioq.tail
    rw [hs.buf, hs', hs'', hstored, List.append_assoc]
    exact congrArg (σ.returned ++ ·) (Ring.contents_put hhead htail hne chr).symm

/-- **The step**: whoever runs, the ring has what is stored and not returned. -/
theorem FifoInv.step (h : FifoInv σ) (hstep : IoStep σ e σ') : FifoInv σ' := by
  cases hstep with
  | call op hpc hidle hret => exact h.after _ (ringEffect_call hret)
  | run hpc hret => exact h.after _ (ringEffect_resume hret)
  | sched c hc hout hret => exact ⟨h.head_lt, h.tail_lt, h.stored⟩
  | setIntr b hpc => exact ⟨h.head_lt, h.tail_lt, h.stored⟩

theorem IoReachable.fifoInv (h : IoReachable σ) : FifoInv σ := by
  induction h with
  | init h => exact h.fifoInv
  | step _ hstep ih => exact ih.step hstep

/-- What a queue guarantees. -/
structure FifoOk (σ : IoSys) : Prop where
  /-- What was returned is what was stored first. -/
  isPrefix : σ.returned <+: σ.stored
  /-- The rest is in the ring, from `tail` on. -/
  unread : ∀ i (hi : i < σ.stored.length - σ.returned.length),
    σ.stored[σ.returned.length + i]? = some (σ.st.ioq.buf ((σ.st.ioq.tail + i) % bufsize))
  /-- The indices tell how many characters that are. -/
  count : (σ.stored.length : ℤ) - σ.returned.length =
    ((σ.st.ioq.head : ℤ) - σ.st.ioq.tail) % bufsize
  /-- One cell stays free. -/
  count_le : σ.stored.length - σ.returned.length ≤ 63

theorem FifoInv.fifoOk (h : FifoInv σ) : FifoOk σ := by
  obtain ⟨hhead, htail, hstored⟩ := h
  have hlen : σ.stored.length = σ.returned.length +
      Ring.count bufsize σ.st.ioq.head σ.st.ioq.tail := by
    rw [hstored, List.length_append, Ring.length_contents]
  have hcount := Ring.count_eq hhead htail
  have hlt : Ring.count bufsize σ.st.ioq.head σ.st.ioq.tail < bufsize := Ring.count_lt hhead
  simp only [bufsize] at hhead htail hlen hcount hlt
  refine ⟨⟨_, hstored.symm⟩, fun i hi ↦ ?_, ?_, by omega⟩
  · have hi' : i < Ring.count 64 σ.st.ioq.head σ.st.ioq.tail := by omega
    rw [hstored, List.getElem?_append_right (by omega), Nat.add_sub_cancel_left, Ring.contents,
      List.getElem?_map, List.getElem?_range hi', Option.map_some]
  · rw [hlen, hcount]
    simp only [bufsize]
    split_ifs <;> omega

end Fifo

/-- The queue whose lock is the lock 1 right after `init_ioqueue`, as part of a booted system. -/
theorem exists_ioInit : ∃ σ : IoSys, IoInit σ := by
  obtain ⟨s, h, -⟩ := exists_lockInit
  let s₀ : IoState := ⟨s, ⟨1, fun _ ↦ none, fun _ ↦ 0, 0, 0⟩⟩
  exact ⟨⟨_, fun _ ↦ .out, [], []⟩, ⟨s₀, h.sched, rfl⟩, fun _ ↦ rfl, rfl, rfl⟩

end GlowOS.Device
