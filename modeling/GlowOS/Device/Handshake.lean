import Mathlib
import GlowOS.Fs.State
import GlowOS.Lib.Program

/-!
# The handshake with the disk

`ide_read` and `ide_write` on the disks of one channel, called by any number of threads, and the
handler of the disk's interrupt. A thread may lose the processor between any two statements that run
with interrupts on, and an interrupt may arrive there, so a thread is at a control point and a step
is one statement of any thread that is not blocked, or one run of the handler. What runs with
interrupts off is one step: a round of the loop of `sema_down`, and all of `sema_up`.

A command is in flight from the assignment of `expecting_intr` in `cmd_out` to the return of
`sema_down` on `disk_done`. Only the thread that owns the lock has one in flight. Until the
interrupt is accepted the flag is set, afterwards the semaphore is up; the invariant `Inv` says so
and ties the log of the channel to it.
-/

namespace GlowOS.Channel

open Program

/-! ## Data -/

/-- `struct semaphore`. -/
structure Semaphore where
  value : ℕ
  waiters : List ℕ

/-- The two semaphores of a channel: the one in its lock, and `disk_done`. -/
inductive Sem
  | lock
  | diskDone
  deriving DecidableEq, Repr

/-- What happens to the commands of a channel. -/
inductive Event
  /-- The `cmd_out` of a thread sets `expecting_intr`. -/
  | issue (t : ℕ)
  /-- The handler accepts an interrupt. -/
  | accept
  /-- The `sema_down` of a thread on `disk_done` returns. -/
  | done (t : ℕ)
  deriving DecidableEq, Repr

/-- `struct ide_channel`, and which threads are blocked. -/
structure IdeChannel where
  irqNo : ℕ
  sem : Sem → Semaphore
  /-- The two other fields of the lock. -/
  holder : Option ℕ
  holderRepeatNr : ℕ
  expectingIntr : Bool
  blocked : ℕ → Bool
  /-- The events so far (ghost). -/
  log : List Event

/-- Programs over a channel. -/
abbrev ChM := StateT IdeChannel (Except Fault)

/-- `ASSERT`. -/
abbrev ASSERT (p : Prop) [Decidable p] : ChM PUnit := check Fault.assert p

/-! ## Semaphores -/

/-- Assign a semaphore. -/
def IdeChannel.setSem (c : IdeChannel) (q : Sem) (v : Semaphore) : IdeChannel :=
  { c with sem := Function.update c.sem q v }

/-- Assign the status of a thread, as far as it is blocked or not. -/
def IdeChannel.setBlocked (c : IdeChannel) (t : ℕ) (b : Bool) : IdeChannel :=
  { c with blocked := Function.update c.blocked t b }

/-- A round of the loop of `sema_down` by the thread `t`: whether it took the semaphore. -/
def semaDownRound (q : Sem) (t : ℕ) : ChM Bool := do
  let c ← get
  if (c.sem q).value = 0 then
    ASSERT (t ∉ (c.sem q).waiters)
    modify fun c ↦ c.setSem q ⟨(c.sem q).value, (c.sem q).waiters ++ [t]⟩
    modify fun c ↦ c.setBlocked t true
    pure false
  else
    modify fun c ↦ c.setSem q ⟨(c.sem q).value - 1, (c.sem q).waiters⟩
    let c ← get
    ASSERT ((c.sem q).value = 0)
    pure true

/-- `thread_unblock`. -/
def threadUnblock (t : ℕ) : ChM PUnit := do
  let c ← get
  ASSERT (c.blocked t = true)
  modify fun c ↦ c.setBlocked t false

/-- `list_pop` and `thread_unblock` on the first waiter, if there is one. -/
def wakeWaiter (q : Sem) : ChM PUnit := do
  let c ← get
  match (c.sem q).waiters with
  | [] => pure ()
  | t :: ts => do
    modify fun c ↦ c.setSem q ⟨(c.sem q).value, ts⟩
    threadUnblock t

/-- `sema_up`. -/
def semaUp (q : Sem) : ChM PUnit := do
  let c ← get
  ASSERT ((c.sem q).value = 0)
  wakeWaiter q
  modify fun c ↦ c.setSem q ⟨(c.sem q).value + 1, (c.sem q).waiters⟩
  let c ← get
  ASSERT ((c.sem q).value = 1)

/-! ## The driver -/

/-- `intr_hd_handler`, for the channel of the interrupt. -/
def intrHdHandler (irqNo : ℕ) : ChM PUnit := do
  ASSERT (irqNo = 0x2e ∨ irqNo = 0x2f)
  let c ← get
  ASSERT (c.irqNo = irqNo)
  if c.expectingIntr then
    modify fun c ↦ { c with expectingIntr := false, log := c.log ++ [.accept] }
    semaUp .diskDone
  else pure ()

/-- The arguments of `ide_read` or `ide_write`. -/
structure Request where
  write : Bool
  lba : ℕ
  secCnt : ℕ
  deriving DecidableEq, Repr

/-- Where a thread is in `ide_read` or `ide_write`; `n` sectors are done and `op` more under way. -/
inductive Pc
  /-- In neither function. -/
  | out
  /-- At the two assertions at the start. -/
  | start (r : Request)
  /-- In `lock_acquire`: at the test for the holder, in the loop of `sema_down`, at the assignment
  of `holder`, at the assertion behind it, at the assignment of `holder_repeat_nr`, and at its
  increment. -/
  | acquire (r : Request)
  | down (r : Request)
  | setHolder (r : Request)
  | assertRepeat (r : Request)
  | setRepeat (r : Request)
  | incRepeat (r : Request)
  /-- At the test of the loop, with the choice of the sectors behind it. -/
  | loop (r : Request) (n : ℕ)
  /-- In `cmd_out`: at the assignment of `expecting_intr`, and at the output of the command. -/
  | expect (r : Request) (n op : ℕ)
  | outCmd (r : Request) (n op : ℕ)
  /-- In the loop of `sema_down` on `disk_done`. -/
  | doneDown (r : Request) (n op : ℕ)
  /-- In `busy_wait`, and in `read_from_sector` or `write2sector`. -/
  | busyWait (r : Request) (n op : ℕ)
  | transfer (r : Request) (n op : ℕ)
  /-- In `lock_release`: at the assertion it starts with, at the test of `holder_repeat_nr`, at its
  decrement, at the second assertion, at the two assignments behind it, and at `sema_up`. -/
  | release
  | testRepeat
  | decRepeat
  | assertOne
  | clearHolder
  | clearRepeat
  | up
  deriving DecidableEq, Repr

/-- Execute the statement at a control point of the thread `t`: its next control point. -/
def Pc.exec (t : ℕ) : Pc → ChM Pc
  | .out => pure .out
  | .start r => do
    ASSERT (r.lba ≤ maxLba)
    ASSERT (0 < r.secCnt)
    pure (.acquire r)
  | .acquire r => do
    let c ← get
    pure (if c.holder ≠ some t then .down r else .incRepeat r)
  | .down r => do
    let taken ← semaDownRound .lock t
    pure (if taken then .setHolder r else .down r)
  | .setHolder r => do
    modify fun c ↦ { c with holder := some t }
    pure (.assertRepeat r)
  | .assertRepeat r => do
    let c ← get
    ASSERT (c.holderRepeatNr = 0)
    pure (.setRepeat r)
  | .setRepeat r => do
    modify fun c ↦ { c with holderRepeatNr := 1 }
    pure (.loop r 0)
  | .incRepeat r => do
    modify fun c ↦ { c with holderRepeatNr := (c.holderRepeatNr + 1) % 2 ^ 32 }
    pure (.loop r 0)
  | .loop r n =>
    if n < r.secCnt then do
      ASSERT (r.lba + n ≤ maxLba)
      pure (.expect r n (if n + 256 ≤ r.secCnt then 256 else r.secCnt - n))
    else pure .release
  | .expect r n op => do
    modify fun c ↦ { c with expectingIntr := true, log := c.log ++ [.issue t] }
    pure (.outCmd r n op)
  | .outCmd r n op => pure (if r.write then .busyWait r n op else .doneDown r n op)
  | .doneDown r n op => do
    let taken ← semaDownRound .diskDone t
    if taken then
      modify fun c ↦ { c with log := c.log ++ [.done t] }
      pure (if r.write then .loop r (n + op) else .busyWait r n op)
    else pure (.doneDown r n op)
  | .busyWait r n op => pure (.transfer r n op)
  | .transfer r n op => pure (if r.write then .doneDown r n op else .loop r (n + op))
  | .release => do
    let c ← get
    ASSERT (c.holder = some t)
    pure .testRepeat
  | .testRepeat => do
    let c ← get
    pure (if 1 < c.holderRepeatNr then .decRepeat else .assertOne)
  | .decRepeat => do
    modify fun c ↦ { c with holderRepeatNr := c.holderRepeatNr - 1 }
    pure .out
  | .assertOne => do
    let c ← get
    ASSERT (c.holderRepeatNr = 1)
    pure .clearHolder
  | .clearHolder => do
    modify fun c ↦ { c with holder := none }
    pure .clearRepeat
  | .clearRepeat => do
    modify fun c ↦ { c with holderRepeatNr := 0 }
    pure .up
  | .up => do
    semaUp .lock
    pure .out

/-! ## Steps -/

/-- The channel and the control point of each thread. -/
structure Sys where
  chan : IdeChannel
  pc : ℕ → Pc

/-- A thread calls one of the functions or executes a statement of it, the disk interrupts, or a
thread that is in neither function is blocked or woken by something else. -/
inductive Step (σ : Sys) : Sys → Prop
  | call (t : ℕ) (r : Request) (hb : σ.chan.blocked t = false) (hpc : σ.pc t = .out) :
      Step σ { σ with pc := Function.update σ.pc t (.start r) }
  | run (t : ℕ) {p : Pc} {c : IdeChannel} (hb : σ.chan.blocked t = false)
      (hret : Returns ((σ.pc t).exec t) σ.chan p c) :
      Step σ { chan := c, pc := Function.update σ.pc t p }
  | intr {c : IdeChannel} (hret : Returns (intrHdHandler σ.chan.irqNo) σ.chan () c) :
      Step σ { σ with chan := c }
  | elsewhere (t : ℕ) (b : Bool) (hpc : σ.pc t = .out) :
      Step σ { σ with chan := σ.chan.setBlocked t b }

/-- What `ide_init` leaves, before any thread uses the channel. -/
structure Init (σ : Sys) : Prop where
  irq : σ.chan.irqNo = 0x2e ∨ σ.chan.irqNo = 0x2f
  lock : σ.chan.sem .lock = ⟨1, []⟩
  holder : σ.chan.holder = none
  holderRepeatNr : σ.chan.holderRepeatNr = 0
  expecting : σ.chan.expectingIntr = false
  diskDone : σ.chan.sem .diskDone = ⟨0, []⟩
  log : σ.chan.log = []
  out : ∀ t, σ.pc t = .out

/-- One command after the other: issued, accepted, done. -/
def commands (ts : List ℕ) : List Event :=
  ts.flatMap fun t ↦ [.issue t, .accept, .done t]

/-- The handshake is in order. -/
structure HandshakeOk (c : IdeChannel) : Prop where
  /-- At most one acknowledgement is outstanding or expected. -/
  value_add_le : (c.sem .diskDone).value + (if c.expectingIntr then 1 else 0) ≤ 1
  /-- None of them while the lock is free. -/
  free : (c.sem .lock).value = 1 ∨ c.holder = none →
    (c.sem .diskDone).value = 0 ∧ c.expectingIntr = false
  /-- The handler returns, so none of its assertions fails. -/
  handler : ∃ c', Returns (intrHdHandler c.irqNo) c () c'
  /-- Every return of `sema_down` has an interrupt of its own, accepted behind the command of the
  same thread. -/
  matched : ∃ ts, c.log <+: commands ts

/-! ## The semaphores -/

section Semaphores

variable {q : Sem} {c c' : IdeChannel} {t : ℕ} {u : PUnit} {b : Bool}

@[simp] theorem IdeChannel.setSem_self (v : Semaphore) : (c.setSem q v).sem q = v :=
  Function.update_self ..

theorem IdeChannel.value_setSem (c : IdeChannel) (q : Sem) (v : Semaphore) :
    ((c.setSem q v).sem q).value = v.value := by rw [setSem_self]

theorem IdeChannel.waiters_setSem (c : IdeChannel) (q : Sem) (v : Semaphore) :
    ((c.setSem q v).sem q).waiters = v.waiters := by rw [setSem_self]

theorem IdeChannel.setSem_of_ne {q' : Sem} (h : q' ≠ q) (v : Semaphore) :
    (c.setSem q v).sem q' = c.sem q' := Function.update_of_ne h ..

/-- A round that blocks the thread, or one that takes the semaphore. -/
theorem returns_semaDownRound : Returns (semaDownRound q t) c b c' ↔
    ((c.sem q).value = 0 ∧ t ∉ (c.sem q).waiters ∧ b = false ∧
      c' = (c.setSem q ⟨0, (c.sem q).waiters ++ [t]⟩).setBlocked t true) ∨
    ((c.sem q).value = 1 ∧ b = true ∧ c' = c.setSem q ⟨0, (c.sem q).waiters⟩) := by
  rw [semaDownRound, returns_get_bind]
  by_cases hv : (c.sem q).value = 0
  · rw [if_pos hv, returns_check_bind, returns_modify_bind, returns_modify_bind, returns_pure, hv]
    simp
  · rw [if_neg hv, returns_modify_bind, returns_get_bind, returns_check_bind, returns_pure,
      IdeChannel.setSem_self]
    constructor
    · rintro ⟨h, rfl, rfl⟩
      change (c.sem q).value - 1 = 0 at h
      exact .inr ⟨by omega, rfl, by rw [h]⟩
    · rintro (⟨h, -⟩ | ⟨h, rfl, rfl⟩)
      · exact absurd h hv
      · exact ⟨by rw [h], rfl, by rw [h]⟩

/-- `sema_up` wakes the first waiter, if there is one. -/
theorem returns_semaUp : Returns (semaUp q) c u c' ↔ (c.sem q).value = 0 ∧
    (((c.sem q).waiters = [] ∧ c' = c.setSem q ⟨1, []⟩) ∨
      ∃ t ts, (c.sem q).waiters = t :: ts ∧ c.blocked t = true ∧
        c' = (c.setBlocked t false).setSem q ⟨1, ts⟩) := by
  rw [semaUp, returns_get_bind, returns_check_bind]
  refine and_congr_right fun hv ↦ ?_
  simp only [wakeWaiter, returns_bind, returns_get]
  cases hw : (c.sem q).waiters with
  | nil =>
    constructor
    · rintro ⟨u₁, c₁, ⟨a, b, ⟨rfl, rfl⟩, h⟩, u₂, c₂, h₂, a₃, c₃, ⟨rfl, rfl⟩, h₃⟩
      rw [hw] at h
      obtain ⟨rfl, rfl⟩ := returns_pure.mp h
      obtain rfl := returns_modify.mp h₂
      obtain ⟨-, rfl⟩ := returns_check.mp h₃
      exact .inl ⟨rfl, by rw [hv, hw]⟩
    · rintro (⟨-, rfl⟩ | ⟨t, ts, h, -⟩)
      · refine ⟨(), c, ⟨c, c, ⟨rfl, rfl⟩, ?_⟩, (), _, returns_modify.mpr rfl, _, _, ⟨rfl, rfl⟩,
          returns_check.mpr ⟨?_, ?_⟩⟩
        · rw [hw]
          exact returns_pure.mpr ⟨rfl, rfl⟩
        · rw [IdeChannel.setSem_self, hv]
        · rw [hv, hw]
      · cases h
  | cons t ts =>
    have hset : ∀ d : IdeChannel, d = (c.setSem q ⟨(c.sem q).value, ts⟩).setBlocked t false →
        d.setSem q ⟨(d.sem q).value + 1, (d.sem q).waiters⟩ =
          (c.setBlocked t false).setSem q ⟨1, ts⟩ := by
      rintro d rfl
      simp [IdeChannel.setSem, IdeChannel.setBlocked, hv]
    constructor
    · rintro ⟨u₁, c₁, ⟨a, b, ⟨rfl, rfl⟩, h⟩, u₂, c₂, h₂, a₃, c₃, ⟨rfl, rfl⟩, h₃⟩
      rw [hw] at h
      rw [returns_modify_bind, threadUnblock, returns_get_bind, returns_check_bind,
        returns_modify] at h
      obtain rfl := returns_modify.mp h₂
      obtain ⟨-, rfl⟩ := returns_check.mp h₃
      exact .inr ⟨t, ts, rfl, h.1, hset _ h.2⟩
    · rintro (⟨h, -⟩ | ⟨t', ts', h, hb, rfl⟩)
      · cases h
      · obtain ⟨rfl, rfl⟩ := List.cons.inj h
        refine ⟨(), _, ⟨c, c, ⟨rfl, rfl⟩, ?_⟩, (), _, returns_modify.mpr rfl, _, _, ⟨rfl, rfl⟩,
          returns_check.mpr ⟨?_, (hset _ rfl).symm⟩⟩
        · rw [hw, returns_modify_bind, threadUnblock, returns_get_bind, returns_check_bind,
            returns_modify]
          exact ⟨hb, rfl⟩
        · rw [hset _ rfl, IdeChannel.setSem_self]

end Semaphores

/-! ## The invariant -/

/-- The thread took the semaphore of the lock and did not give it back. -/
def Pc.owns : Pc → Bool
  | .out | .start _ | .acquire _ | .down _ | .incRepeat _ | .decRepeat => false
  | _ => true

/-- The thread is the holder of the lock. -/
def Pc.held : Pc → Bool
  | .out | .start _ | .acquire _ | .down _ | .incRepeat _ | .decRepeat | .setHolder _ | .clearRepeat
  | .up => false
  | _ => true

/-- The thread has a command in flight. -/
def Pc.flight : Pc → Bool
  | .outCmd _ _ _ | .doneDown _ _ _ => true
  | .busyWait r _ _ | .transfer r _ _ => r.write
  | _ => false

/-- The thread acquires or releases a lock that it keeps. -/
def Pc.nested : Pc → Bool
  | .incRepeat _ | .decRepeat => true
  | _ => false

/-- The semaphore that the thread may wait for. -/
def Pc.waitsFor : Pc → Option Sem
  | .down _ => some .lock
  | .doneDown _ _ _ => some .diskDone
  | _ => none

/-- The flag, the semaphore and the log, with the command of thread `f` in flight. -/
def IdeChannel.InFlight (c : IdeChannel) : Option ℕ → Prop
  | none => (c.sem .diskDone).value = 0 ∧ c.expectingIntr = false ∧ ∃ ts, c.log = commands ts
  | some t => ∃ ts,
      (c.sem .diskDone).value = 0 ∧ c.expectingIntr = true ∧ c.log = commands ts ++ [.issue t] ∨
      (c.sem .diskDone).value = 1 ∧ c.expectingIntr = false ∧
        c.log = commands ts ++ [.issue t, .accept]

/-- The invariant, with the thread `o` that owns the lock and the thread `f` whose command is in
flight. -/
structure Inv (c : IdeChannel) (pc : ℕ → Pc) (o f : Option ℕ) : Prop where
  irq : c.irqNo = 0x2e ∨ c.irqNo = 0x2f
  owner : ∀ t, (pc t).owns = true ↔ o = some t
  value : (c.sem .lock).value = if o = none then 1 else 0
  holder : ∀ t, (pc t).held = true ↔ c.holder = some t
  repeat_le : c.holderRepeatNr ≤ 1
  flat : ∀ t, (pc t).nested = false
  flight : ∀ t, (pc t).flight = true ↔ f = some t
  nodup : ∀ q, (c.sem q).waiters.Nodup
  waiting : ∀ q, ∀ t ∈ (c.sem q).waiters, c.blocked t = true ∧ (pc t).waitsFor = some q
  inFlight : c.InFlight f

theorem Pc.owns_of_flight {p : Pc} (h : p.flight = true) : p.held = true ∧ p.owns = true := by
  cases p <;> simp_all [Pc.flight, Pc.owns, Pc.held]

theorem Pc.owns_of_held {p : Pc} (h : p.held = true) : p.owns = true := by
  cases p <;> simp_all [Pc.owns, Pc.held]

namespace Inv

variable {c c' : IdeChannel} {pc : ℕ → Pc} {o f : Option ℕ} {t : ℕ} {p : Pc}

theorem notMem_waiters (h : Inv c pc o f) (hb : c.blocked t = false) (q : Sem) :
    t ∉ (c.sem q).waiters := by
  intro hmem
  rw [(h.waiting q t hmem).1] at hb
  cases hb

/-- A set of threads with at most one element, after thread `t` went on. -/
theorem update_iff {P : Pc → Bool} {o' : Option ℕ} (h : ∀ u, P (pc u) = true ↔ o = some u)
    (ht : P p = true ↔ o' = some t) (hu : ∀ u ≠ t, o = some u ↔ o' = some u) (u : ℕ) :
    P (Function.update pc t p u) = true ↔ o' = some u := by
  by_cases hut : u = t
  · rw [hut, Function.update_self]
    exact ht
  · rw [Function.update_of_ne hut, h u]
    exact hu u hut

/-- The same set, if `t` stays in it or outside. -/
theorem update_same {P : Pc → Bool} (h : ∀ u, P (pc u) = true ↔ o = some u) (ht : P p = P (pc t))
    (u : ℕ) : P (Function.update pc t p u) = true ↔ o = some u :=
  update_iff h (by rw [ht]; exact h t) (fun _ _ ↦ Iff.rfl) u

theorem update_flat (h : Inv c pc o f) (hn : p.nested = false) (u : ℕ) :
    (Function.update pc t p u).nested = false := by
  by_cases hut : u = t
  · rw [hut, Function.update_self, hn]
  · rw [Function.update_of_ne hut]
    exact h.flat u

/-- The waiters do not notice that a thread that is not blocked goes on. -/
theorem update_waiting {d : IdeChannel} (h : Inv c pc o f) (hb : c.blocked t = false) (hsem : ∀ q,
      (d.sem q).waiters = (c.sem q).waiters) (hblocked : d.blocked = c.blocked) :
    (∀ q, (d.sem q).waiters.Nodup) ∧ ∀ q, ∀ u ∈ (d.sem q).waiters,
      d.blocked u = true ∧ (Function.update pc t p u).waitsFor = some q := by
  refine ⟨fun q ↦ hsem q ▸ h.nodup q, fun q u hu ↦ ?_⟩
  rw [hsem] at hu
  have hut : u ≠ t := fun heq ↦ h.notMem_waiters hb q (heq ▸ hu)
  rw [hblocked, Function.update_of_ne hut]
  exact h.waiting q u hu

/-- Thread `t` goes on and nothing else happens that the invariant speaks of. -/
theorem move (h : Inv c pc o f) (hb : c.blocked t = false) (ho : p.owns = (pc t).owns)
    (hh : p.held = (pc t).held) (hf : p.flight = (pc t).flight) (hn : p.nested = false) :
    Inv c (Function.update pc t p) o f :=
  have hw := h.update_waiting (d := c) (p := p) hb (fun _ ↦ rfl) rfl
  ⟨h.irq, update_same h.owner ho, h.value, update_same h.holder hh, h.repeat_le, h.update_flat hn,
    update_same h.flight hf, hw.1, hw.2, h.inFlight⟩

/-- The owner assigns `holder_repeat_nr`. -/
theorem setRepeat (h : Inv c pc o f) {n : ℕ} (hn : n ≤ 1) :
    Inv { c with holderRepeatNr := n } pc o f :=
  ⟨h.irq, h.owner, h.value, h.holder, hn, h.flat, h.flight, h.nodup, h.waiting, by
    have hf := h.inFlight
    cases f <;> exact hf⟩

/-- At most one thread is the owner. -/
theorem owner_unique (h : Inv c pc o f) {u : ℕ} (ht : (pc t).owns = true)
    (hu : (pc u).owns = true) : u = t := by
  have ho := (h.owner t).mp ht
  rw [(h.owner u).mp hu] at ho
  exact Option.some.inj ho

/-- What is in flight is a command of the owner. -/
theorem flight_none (h : Inv c pc o f) (ht : o = none ∨ ∃ u, o = some u ∧ (pc u).flight = false) :
    f = none := by
  cases hf : f with
  | none => rfl
  | some u =>
    have hfl := (h.flight u).mpr hf
    have ho := (h.owner u).mp (Pc.owns_of_flight hfl).2
    rcases ht with hnone | ⟨v, hv, hno⟩
    · rw [hnone] at ho
      cases ho
    · rw [hv] at ho
      obtain rfl := Option.some.inj ho
      rw [hfl] at hno
      cases hno

/-- A thread is blocked in `sema_down`. -/
theorem blocks (h : Inv c pc o f) {q : Sem} (hq : (pc t).waitsFor = some q)
    (hb : c.blocked t = false) (hv : (c.sem q).value = 0) :
    Inv ((c.setSem q ⟨0, (c.sem q).waiters ++ [t]⟩).setBlocked t true) pc o f := by
  have hnot := h.notMem_waiters hb
  have hvalue : ∀ q', (((c.setSem q ⟨0, (c.sem q).waiters ++ [t]⟩).setBlocked t true).sem q').value =
      (c.sem q').value := by
    intro q'
    by_cases hqq : q' = q
    · rw [hqq, hv]
      exact c.value_setSem q ⟨0, (c.sem q).waiters ++ [t]⟩
    · exact congrArg Semaphore.value (Function.update_of_ne hqq ..)
  have hwait : ∀ q', (((c.setSem q ⟨0, (c.sem q).waiters ++ [t]⟩).setBlocked t true).sem
      q').waiters = if q' = q then (c.sem q).waiters ++ [t] else (c.sem q').waiters := by
    intro q'
    by_cases hqq : q' = q
    · rw [if_pos hqq, hqq]
      exact c.waiters_setSem q ⟨0, (c.sem q).waiters ++ [t]⟩
    · rw [if_neg hqq]
      exact congrArg Semaphore.waiters (Function.update_of_ne hqq ..)
  refine ⟨h.irq, h.owner, (hvalue .lock).trans h.value, h.holder, h.repeat_le, h.flat, h.flight,
    fun q' ↦ ?_, fun q' u hu ↦ ?_, ?_⟩
  · rw [hwait]
    split_ifs with hqq
    · exact List.nodup_append'.mpr ⟨h.nodup q, List.nodup_singleton t,
        List.disjoint_singleton.mpr (hnot q)⟩
    · exact h.nodup q'
  · rw [hwait] at hu
    by_cases hut : u = t
    · subst hut
      refine ⟨Function.update_self .., ?_⟩
      split_ifs at hu with hqq
      · rw [hq, hqq]
      · exact absurd hu (hnot q')
    · have hmem : u ∈ (c.sem q').waiters := by
        split_ifs at hu with hqq
        · rw [hqq]
          simpa [hut] using hu
        · exact hu
      exact ⟨(Function.update_of_ne hut ..).trans (h.waiting q' u hmem).1,
        (h.waiting q' u hmem).2⟩
  · have hf := h.inFlight
    have hdone := hvalue .diskDone
    cases f with
    | none => exact ⟨hdone.trans hf.1, hf.2⟩
    | some v =>
      obtain ⟨ts, hf | hf⟩ := hf
      · exact ⟨ts, .inl ⟨hdone.trans hf.1, hf.2⟩⟩
      · exact ⟨ts, .inr ⟨hdone.trans hf.1, hf.2⟩⟩

/-- The lists of waiters after `sema_up`. -/
theorem semaUp {q : Sem} {u : PUnit} (hn : ∀ q, (c.sem q).waiters.Nodup)
    (hw : ∀ q, ∀ t ∈ (c.sem q).waiters, c.blocked t = true ∧ (pc t).waitsFor = some q)
    (hret : Returns (Channel.semaUp q) c u c') :
    ∃ ws bl, c' = { c.setSem q ⟨1, ws⟩ with blocked := bl } ∧
      (∀ q, (c'.sem q).waiters.Nodup) ∧
      ∀ q, ∀ t ∈ (c'.sem q).waiters, c'.blocked t = true ∧ (pc t).waitsFor = some q := by
  rcases (returns_semaUp.mp hret).2 with ⟨hnil, rfl⟩ | ⟨t, ts, hcons, -, rfl⟩
  · have hsame : ∀ q', ((c.setSem q ⟨1, []⟩).sem q').waiters = (c.sem q').waiters := by
      intro q'
      by_cases hqq : q' = q
      · rw [hqq, hnil, IdeChannel.setSem_self]
      · rw [IdeChannel.setSem_of_ne hqq]
    refine ⟨[], c.blocked, rfl, fun q' ↦ hsame q' ▸ hn q', fun q' v hv ↦ ?_⟩
    rw [hsame] at hv
    exact hw q' v hv
  · have hnodup := hn q
    rw [hcons, List.nodup_cons] at hnodup
    have hsub : ∀ q', ∀ v ∈ (((c.setBlocked t false).setSem q ⟨1, ts⟩).sem q').waiters,
        v ∈ (c.sem q').waiters ∧ v ≠ t := by
      intro q' v hv
      by_cases hqq : q' = q
      · rw [hqq, IdeChannel.setSem_self] at hv
        refine ⟨by rw [hqq, hcons]; exact List.mem_cons_of_mem t hv, ?_⟩
        rintro rfl
        exact hnodup.1 hv
      · rw [IdeChannel.setSem_of_ne hqq] at hv
        refine ⟨hv, ?_⟩
        -- a thread waits for one semaphore only
        rintro rfl
        have h1 := (hw q' v hv).2
        have h2 := (hw q v (by rw [hcons]; exact List.mem_cons_self ..)).2
        rw [h1] at h2
        exact hqq (Option.some.inj h2)
    refine ⟨ts, _, rfl, fun q' ↦ ?_, fun q' v hv ↦ ?_⟩
    · by_cases hqq : q' = q
      · rw [hqq, IdeChannel.setSem_self]
        exact hnodup.2
      · rw [IdeChannel.setSem_of_ne hqq]
        exact hn q'
    · obtain ⟨hmem, hne⟩ := hsub q' v hv
      exact ⟨(Function.update_of_ne hne ..).trans (hw q' v hmem).1, (hw q' v hmem).2⟩

/-- A thread takes the lock. -/
theorem takesLock (h : Inv c pc o f) {r : Request} (hpc : pc t = .down r)
    (hb : c.blocked t = false) (hv : (c.sem .lock).value = 1) :
    Inv (c.setSem .lock ⟨0, (c.sem .lock).waiters⟩) (Function.update pc t (.setHolder r)) (some t)
      f := by
  have ho : o = none := by
    by_contra hne
    have hvalue := h.value
    rw [if_neg hne, hv] at hvalue
    cases hvalue
  obtain rfl := h.flight_none (.inl ho)
  have hw := h.update_waiting (d := c.setSem .lock ⟨0, (c.sem .lock).waiters⟩)
    (p := .setHolder r) hb (fun q ↦ by
      cases q with
      | lock => exact c.waiters_setSem .lock ⟨0, (c.sem .lock).waiters⟩
      | diskDone => rfl) rfl
  refine ⟨h.irq, update_iff h.owner (by simp [Pc.owns]) (fun u hu ↦ ?_), ?_,
    update_same h.holder (by rw [hpc]; rfl), h.repeat_le, h.update_flat rfl,
    update_same h.flight (by rw [hpc]; rfl), hw.1, hw.2, h.inFlight⟩
  · simp [ho, Ne.symm hu]
  · rw [IdeChannel.setSem_self]
    rfl

/-- The owner becomes the holder. -/
theorem setHolder (h : Inv c pc o f) {r : Request} (hpc : pc t = .setHolder r)
    (hb : c.blocked t = false) :
    Inv { c with holder := some t } (Function.update pc t (.assertRepeat r)) o f := by
  have howns : (pc t).owns = true := by
    rw [hpc]
    rfl
  have hw := h.update_waiting (d := { c with holder := some t }) (p := .assertRepeat r) hb
    (fun _ ↦ rfl) rfl
  refine ⟨h.irq, update_same h.owner (by rw [hpc]; rfl), h.value,
    update_iff h.holder (by simp [Pc.held]) (fun u hu ↦ ?_), h.repeat_le, h.update_flat rfl,
    update_same h.flight (by rw [hpc]; rfl), hw.1, hw.2, ?_⟩
  · rw [← h.holder u]
    constructor
    · intro hheld
      exact absurd (h.owner_unique howns (Pc.owns_of_held hheld)) hu
    · intro heq
      exact absurd (Option.some.inj heq).symm hu
  · have hf := h.inFlight
    cases f <;> exact hf

/-- The holder gives the field up. -/
theorem clearHolder (h : Inv c pc o f) (hpc : pc t = .clearHolder) (hb : c.blocked t = false) :
    Inv { c with holder := none } (Function.update pc t .clearRepeat) o f := by
  have hholder : c.holder = some t := (h.holder t).mp (by rw [hpc]; rfl)
  have hw := h.update_waiting (d := { c with holder := none }) (p := .clearRepeat) hb
    (fun _ ↦ rfl) rfl
  refine ⟨h.irq, update_same h.owner (by rw [hpc]; rfl), h.value,
    update_iff h.holder (by simp [Pc.held]) (fun u hu ↦ ?_), h.repeat_le, h.update_flat rfl,
    update_same h.flight (by rw [hpc]; rfl), hw.1, hw.2, ?_⟩
  · rw [hholder]
    simp [Ne.symm hu]
  · have hf := h.inFlight
    cases f <;> exact hf

/-- The owner gives the lock back. -/
theorem unlocks (h : Inv c pc o f) (hpc : pc t = .up) (hb : c.blocked t = false) {u : PUnit}
    (hret : Returns (Channel.semaUp .lock) c u c') :
    Inv c' (Function.update pc t .out) none f := by
  have ho : o = some t := (h.owner t).mp (by rw [hpc]; rfl)
  obtain rfl := h.flight_none (.inr ⟨t, ho, by rw [hpc]; rfl⟩)
  have hnot : ∀ q, ∀ u ∈ (c.sem q).waiters, c.blocked u = true ∧
      (Function.update pc t .out u).waitsFor = some q := by
    intro q u hu
    have hut : u ≠ t := fun heq ↦ h.notMem_waiters hb q (heq ▸ hu)
    rw [Function.update_of_ne hut]
    exact h.waiting q u hu
  obtain ⟨ws, bl, rfl, hnodup, hwait⟩ := semaUp h.nodup hnot hret
  refine ⟨h.irq, update_iff h.owner (by simp [Pc.owns]) (fun u hu ↦ ?_), ?_,
    update_same h.holder (by rw [hpc]; rfl), h.repeat_le, h.update_flat rfl,
    update_same h.flight (by rw [hpc]; rfl), hnodup, hwait, h.inFlight⟩
  · rw [ho]
    simp [Ne.symm hu]
  · exact c.value_setSem .lock ⟨1, ws⟩

/-- `cmd_out` puts a command in flight. -/
theorem issues (h : Inv c pc o f) {r : Request} {n op : ℕ} (hpc : pc t = .expect r n op)
    (hb : c.blocked t = false) :
    Inv { c with expectingIntr := true, log := c.log ++ [.issue t] }
      (Function.update pc t (.outCmd r n op)) o (some t) := by
  have ho : o = some t := (h.owner t).mp (by rw [hpc]; rfl)
  obtain rfl := h.flight_none (.inr ⟨t, ho, by rw [hpc]; rfl⟩)
  obtain ⟨hv, -, ts, hlog⟩ := h.inFlight
  have hw := h.update_waiting
    (d := { c with expectingIntr := true, log := c.log ++ [.issue t] }) (p := .outCmd r n op) hb
    (fun _ ↦ rfl) rfl
  refine ⟨h.irq, update_same h.owner (by rw [hpc]; rfl), h.value,
    update_same h.holder (by rw [hpc]; rfl), h.repeat_le, h.update_flat rfl,
    update_iff h.flight (by simp [Pc.flight]) (fun u hu ↦ by simp [Ne.symm hu]), hw.1, hw.2,
    ts, .inl ⟨hv, rfl, ?_⟩⟩
  exact congrArg (· ++ [Event.issue t]) hlog

/-- The wait for the command is over. -/
theorem takesDone (h : Inv c pc o f) {r : Request} {n op : ℕ} (hpc : pc t = .doneDown r n op)
    (hb : c.blocked t = false) (hv : (c.sem .diskDone).value = 1) (hown : p.owns = true)
    (hheld : p.held = true) (hfl : p.flight = false) (hn : p.nested = false) :
    Inv { c.setSem .diskDone ⟨0, (c.sem .diskDone).waiters⟩ with log := c.log ++ [.done t] }
      (Function.update pc t p) o none := by
  have hf : f = some t := (h.flight t).mp (by rw [hpc]; rfl)
  subst hf
  have hw := h.update_waiting
    (d := { c.setSem .diskDone ⟨0, (c.sem .diskDone).waiters⟩ with log := c.log ++ [.done t] })
    (p := p) hb (fun q ↦ by
      cases q with
      | lock => rfl
      | diskDone => exact c.waiters_setSem .diskDone ⟨0, (c.sem .diskDone).waiters⟩) rfl
  refine ⟨h.irq, update_same h.owner (by rw [hpc, hown]; rfl), h.value,
    update_same h.holder (by rw [hpc, hheld]; rfl), h.repeat_le, h.update_flat hn,
    update_iff h.flight (by simp [hfl]) (fun u hu ↦ by simp [Ne.symm hu]), hw.1, hw.2, ?_⟩
  obtain ⟨ts, ⟨h0, -⟩ | ⟨-, hexp, hlog⟩⟩ := h.inFlight
  · rw [h0] at hv
    cases hv
  · refine ⟨c.value_setSem .diskDone ⟨0, (c.sem .diskDone).waiters⟩, hexp, ts ++ [t], ?_⟩
    change c.log ++ [.done t] = _
    rw [hlog, commands, commands, List.flatMap_append, List.append_assoc]
    rfl

/-- The handler. -/
theorem interrupt (h : Inv c pc o f) {u : PUnit} (hret : Returns (intrHdHandler c.irqNo) c u c') :
    Inv c' pc o f := by
  rw [intrHdHandler, returns_check_bind, returns_get_bind, returns_check_bind] at hret
  obtain ⟨-, -, hret⟩ := hret
  by_cases hexp : c.expectingIntr = true
  · rw [if_pos hexp, returns_modify_bind] at hret
    obtain ⟨ws, bl, rfl, hnodup, hwait⟩ := semaUp
      (c := { c with expectingIntr := false, log := c.log ++ [.accept] }) h.nodup h.waiting hret
    refine ⟨h.irq, h.owner, h.value, h.holder, h.repeat_le, h.flat, h.flight, hnodup, hwait, ?_⟩
    have hf := h.inFlight
    cases f with
    | none =>
      rw [hf.2.1] at hexp
      cases hexp
    | some t =>
      obtain ⟨ts, ⟨-, -, hlog⟩ | ⟨-, hno, -⟩⟩ := hf
      · refine ⟨ts, .inr ⟨c.value_setSem .diskDone ⟨1, ws⟩, rfl, ?_⟩⟩
        change c.log ++ [.accept] = _
        rw [hlog, List.append_assoc]
        rfl
      · rw [hno] at hexp
        cases hexp
  · rw [if_neg hexp] at hret
    obtain ⟨-, rfl⟩ := returns_pure.mp hret
    exact h

/-- Every statement of the driver keeps the invariant. -/
theorem run (h : Inv c pc o f) (hb : c.blocked t = false)
    (hret : Returns ((pc t).exec t) c p c') : ∃ o f, Inv c' (Function.update pc t p) o f := by
  -- most statements change nothing but the control point
  have hmove : ∀ p : Pc, p.owns = (pc t).owns → p.held = (pc t).held → p.flight = (pc t).flight →
      p.nested = false → ∃ o f, Inv c (Function.update pc t p) o f :=
    fun p ho hh hf hn ↦ ⟨o, f, h.move hb ho hh hf hn⟩
  cases hpc : pc t with
  | out =>
    rw [hpc, Pc.exec, returns_pure] at hret
    obtain ⟨rfl, rfl⟩ := hret
    exact hmove _ (by rw [hpc]) (by rw [hpc]) (by rw [hpc]) rfl
  | start r =>
    rw [hpc, Pc.exec, returns_check_bind, returns_check_bind, returns_pure] at hret
    obtain ⟨-, -, rfl, rfl⟩ := hret
    exact hmove _ (by rw [hpc]; rfl) (by rw [hpc]; rfl) (by rw [hpc]; rfl) rfl
  | acquire r =>
    rw [hpc, Pc.exec, returns_get_bind, returns_pure] at hret
    obtain ⟨rfl, rfl⟩ := hret
    have hne : c'.holder ≠ some t := by
      intro heq
      have hheld := (h.holder t).mpr heq
      rw [hpc] at hheld
      cases hheld
    rw [if_pos hne]
    exact hmove _ (by rw [hpc]; rfl) (by rw [hpc]; rfl) (by rw [hpc]; rfl) rfl
  | down r =>
    rw [hpc, Pc.exec, returns_bind] at hret
    obtain ⟨b, c₁, hround, hret⟩ := hret
    obtain ⟨rfl, rfl⟩ := returns_pure.mp hret
    rcases returns_semaDownRound.mp hround with ⟨hv, -, rfl, rfl⟩ | ⟨hv, rfl, rfl⟩
    · have hsame : Function.update pc t (.down r) = pc := by
        rw [← hpc]
        exact Function.update_eq_self ..
      rw [if_neg (by decide), hsame]
      exact ⟨o, f, h.blocks (by rw [hpc]; rfl) hb hv⟩
    · exact ⟨some t, f, h.takesLock hpc hb hv⟩
  | setHolder r =>
    rw [hpc, Pc.exec, returns_modify_bind, returns_pure] at hret
    obtain ⟨rfl, rfl⟩ := hret
    exact ⟨o, f, h.setHolder hpc hb⟩
  | assertRepeat r =>
    rw [hpc, Pc.exec, returns_get_bind, returns_check_bind, returns_pure] at hret
    obtain ⟨-, rfl, rfl⟩ := hret
    exact hmove _ (by rw [hpc]; rfl) (by rw [hpc]; rfl) (by rw [hpc]; rfl) rfl
  | setRepeat r =>
    rw [hpc, Pc.exec, returns_modify_bind, returns_pure] at hret
    obtain ⟨rfl, rfl⟩ := hret
    exact ⟨o, f, (h.setRepeat (le_refl 1)).move hb (by rw [hpc]; rfl) (by rw [hpc]; rfl)
      (by rw [hpc]; rfl) rfl⟩
  | incRepeat r =>
    have hflat := h.flat t
    rw [hpc] at hflat
    cases hflat
  | loop r n =>
    rw [hpc, Pc.exec, returns_ite, returns_check_bind, returns_pure, returns_pure] at hret
    obtain ⟨-, -, rfl, rfl⟩ | ⟨-, rfl, rfl⟩ := hret
    · exact hmove _ (by rw [hpc]; rfl) (by rw [hpc]; rfl) (by rw [hpc]; rfl) rfl
    · exact hmove _ (by rw [hpc]; rfl) (by rw [hpc]; rfl) (by rw [hpc]; rfl) rfl
  | expect r n op =>
    rw [hpc, Pc.exec, returns_modify_bind, returns_pure] at hret
    obtain ⟨rfl, rfl⟩ := hret
    exact ⟨o, some t, h.issues hpc hb⟩
  | outCmd r n op =>
    rw [hpc, Pc.exec, returns_pure] at hret
    obtain ⟨rfl, rfl⟩ := hret
    cases hw : r.write with
    | true => exact hmove _ (by rw [hpc]; rfl) (by rw [hpc]; rfl) (by rw [hpc]; exact hw) rfl
    | false => exact hmove _ (by rw [hpc]; rfl) (by rw [hpc]; rfl) (by rw [hpc]; rfl) rfl
  | doneDown r n op =>
    rw [hpc, Pc.exec, returns_bind] at hret
    obtain ⟨b, c₁, hround, hret⟩ := hret
    rcases returns_semaDownRound.mp hround with ⟨hv, -, rfl, rfl⟩ | ⟨hv, rfl, rfl⟩
    · rw [if_neg (by decide), returns_pure] at hret
      obtain ⟨rfl, rfl⟩ := hret
      have hsame : Function.update pc t (.doneDown r n op) = pc := by
        rw [← hpc]
        exact Function.update_eq_self ..
      rw [hsame]
      exact ⟨o, f, h.blocks (by rw [hpc]; rfl) hb hv⟩
    · rw [if_pos rfl, returns_modify_bind, returns_pure] at hret
      obtain ⟨rfl, rfl⟩ := hret
      refine ⟨o, none, ?_⟩
      cases hw : r.write with
      | true => exact h.takesDone hpc hb hv rfl rfl rfl rfl
      | false => exact h.takesDone hpc hb hv rfl rfl hw rfl
  | busyWait r n op =>
    rw [hpc, Pc.exec, returns_pure] at hret
    obtain ⟨rfl, rfl⟩ := hret
    exact hmove _ (by rw [hpc]; rfl) (by rw [hpc]; rfl) (by rw [hpc]; rfl) rfl
  | transfer r n op =>
    rw [hpc, Pc.exec, returns_pure] at hret
    obtain ⟨rfl, rfl⟩ := hret
    cases hw : r.write with
    | true => exact hmove _ (by rw [hpc]; rfl) (by rw [hpc]; rfl) (by rw [hpc]; exact hw.symm) rfl
    | false => exact hmove _ (by rw [hpc]; rfl) (by rw [hpc]; rfl) (by rw [hpc]; exact hw.symm) rfl
  | release =>
    rw [hpc, Pc.exec, returns_get_bind, returns_check_bind, returns_pure] at hret
    obtain ⟨-, rfl, rfl⟩ := hret
    exact hmove _ (by rw [hpc]; rfl) (by rw [hpc]; rfl) (by rw [hpc]; rfl) rfl
  | testRepeat =>
    rw [hpc, Pc.exec, returns_get_bind, returns_pure] at hret
    obtain ⟨rfl, rfl⟩ := hret
    rw [if_neg (not_lt.mpr h.repeat_le)]
    exact hmove _ (by rw [hpc]; rfl) (by rw [hpc]; rfl) (by rw [hpc]; rfl) rfl
  | decRepeat =>
    have hflat := h.flat t
    rw [hpc] at hflat
    cases hflat
  | assertOne =>
    rw [hpc, Pc.exec, returns_get_bind, returns_check_bind, returns_pure] at hret
    obtain ⟨-, rfl, rfl⟩ := hret
    exact hmove _ (by rw [hpc]; rfl) (by rw [hpc]; rfl) (by rw [hpc]; rfl) rfl
  | clearHolder =>
    rw [hpc, Pc.exec, returns_modify_bind, returns_pure] at hret
    obtain ⟨rfl, rfl⟩ := hret
    exact ⟨o, f, h.clearHolder hpc hb⟩
  | clearRepeat =>
    rw [hpc, Pc.exec, returns_modify_bind, returns_pure] at hret
    obtain ⟨rfl, rfl⟩ := hret
    exact ⟨o, f, (h.setRepeat (Nat.zero_le 1)).move hb (by rw [hpc]; rfl) (by rw [hpc]; rfl)
      (by rw [hpc]; rfl) rfl⟩
  | up =>
    rw [hpc, Pc.exec, returns_bind] at hret
    obtain ⟨u, c₁, hup, hret⟩ := hret
    obtain ⟨rfl, rfl⟩ := returns_pure.mp hret
    exact ⟨none, f, h.unlocks hpc hb hup⟩

/-- A thread outside the driver is blocked or woken by something else. -/
theorem elsewhere (h : Inv c pc o f) (hpc : pc t = .out) (b : Bool) :
    Inv (c.setBlocked t b) pc o f := by
  refine ⟨h.irq, h.owner, h.value, h.holder, h.repeat_le, h.flat, h.flight, h.nodup,
    fun q u hu ↦ ?_, ?_⟩
  · obtain ⟨hblocked, hwaits⟩ := h.waiting q u hu
    have hut : u ≠ t := by
      rintro rfl
      rw [hpc] at hwaits
      cases hwaits
    exact ⟨(Function.update_of_ne hut ..).trans hblocked, hwaits⟩
  · have hf := h.inFlight
    cases f <;> exact hf

/-- The invariant says that the handshake is in order. -/
theorem handshakeOk (h : Inv c pc o f) : HandshakeOk c := by
  have hf := h.inFlight
  refine ⟨?_, fun hfree ↦ ?_, ?_, ?_⟩
  · cases f with
    | none => simp [hf.1, hf.2.1]
    | some t =>
      obtain ⟨ts, ⟨h1, h2, -⟩ | ⟨h1, h2, -⟩⟩ := hf
      · simp [h1, h2]
      · simp [h1, h2]
  · cases f with
    | none => exact ⟨hf.1, hf.2.1⟩
    | some t =>
      -- with a command in flight the lock has an owner and a holder
      obtain ⟨hheld, howns⟩ := Pc.owns_of_flight ((h.flight t).mpr rfl)
      rcases hfree with hone | hnone
      · rw [h.value, (h.owner t).mp howns, if_neg (by simp)] at hone
        cases hone
      · rw [(h.holder t).mp hheld] at hnone
        cases hnone
  · by_cases hexp : c.expectingIntr = true
    · have hv : (c.sem .diskDone).value = 0 := by
        cases f with
        | none => exact hf.1
        | some t =>
          obtain ⟨ts, ⟨h1, -⟩ | ⟨-, h2, -⟩⟩ := hf
          · exact h1
          · rw [h2] at hexp
            cases hexp
      have hup : ∃ c', Returns (Channel.semaUp .diskDone)
          { c with expectingIntr := false, log := c.log ++ [.accept] } () c' := by
        cases hw : (c.sem .diskDone).waiters with
        | nil => exact ⟨_, returns_semaUp.mpr ⟨hv, .inl ⟨hw, rfl⟩⟩⟩
        | cons t ts =>
          have hb := (h.waiting .diskDone t (by rw [hw]; exact List.mem_cons_self ..)).1
          exact ⟨_, returns_semaUp.mpr ⟨hv, .inr ⟨t, ts, hw, hb, rfl⟩⟩⟩
      obtain ⟨c', hup⟩ := hup
      refine ⟨c', ?_⟩
      rw [intrHdHandler, returns_check_bind, returns_get_bind, returns_check_bind, if_pos hexp,
        returns_modify_bind]
      exact ⟨h.irq, rfl, hup⟩
    · refine ⟨c, ?_⟩
      rw [intrHdHandler, returns_check_bind, returns_get_bind, returns_check_bind, if_neg hexp]
      exact ⟨h.irq, rfl, returns_pure.mpr ⟨rfl, rfl⟩⟩
  · cases f with
    | none =>
      obtain ⟨ts, hlog⟩ := hf.2.2
      exact ⟨ts, [], by rw [hlog, List.append_nil]⟩
    | some t =>
      have hlast : ∀ ts, commands (ts ++ [t]) = commands ts ++ [.issue t, .accept, .done t] := by
        intro ts
        rw [commands, List.flatMap_append]
        rfl
      obtain ⟨ts, ⟨-, -, hlog⟩ | ⟨-, -, hlog⟩⟩ := hf
      · refine ⟨ts ++ [t], [.accept, .done t], ?_⟩
        rw [hlog, hlast, List.append_assoc]
        rfl
      · refine ⟨ts ++ [t], [.done t], ?_⟩
        rw [hlog, hlast, List.append_assoc]
        rfl

end Inv

/-! ## Runs -/

section Runs

variable {σ σ' : Sys}

theorem Init.inv (h : Init σ) : Inv σ.chan σ.pc none none := by
  refine ⟨h.irq, fun t ↦ ?_, by rw [h.lock]; rfl, fun t ↦ ?_, by rw [h.holderRepeatNr]; decide,
    fun t ↦ by rw [h.out]; rfl, fun t ↦ ?_, fun q ↦ ?_, fun q t ht ↦ ?_, ?_⟩
  · rw [h.out]
    simp [Pc.owns]
  · rw [h.out, h.holder]
    simp [Pc.held]
  · rw [h.out]
    simp [Pc.flight]
  · cases q with
    | lock => simp [h.lock]
    | diskDone => simp [h.diskDone]
  · cases q with
    | lock => simp [h.lock] at ht
    | diskDone => simp [h.diskDone] at ht
  · exact ⟨by rw [h.diskDone], h.expecting, [], h.log⟩

/-- One step keeps the invariant. -/
theorem Step.inv (hstep : Step σ σ') (h : ∃ o f, Inv σ.chan σ.pc o f) :
    ∃ o f, Inv σ'.chan σ'.pc o f := by
  obtain ⟨o, f, h⟩ := h
  cases hstep with
  | call t r hb hpc =>
    exact ⟨o, f, h.move hb (by rw [hpc]; rfl) (by rw [hpc]; rfl) (by rw [hpc]; rfl) rfl⟩
  | run t hb hret => exact h.run hb hret
  | intr hret => exact ⟨o, f, h.interrupt hret⟩
  | elsewhere t b hpc => exact ⟨o, f, h.elsewhere hpc b⟩

/-- The first channel, as `ide_init` leaves it. -/
def start : Sys where
  chan := ⟨0x2e, fun q ↦ if q = .lock then ⟨1, []⟩ else ⟨0, []⟩, none, 0, false, fun _ ↦ false, []⟩
  pc _ := .out

end Runs

end GlowOS.Channel
