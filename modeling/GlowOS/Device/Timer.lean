import Mathlib
import GlowOS.Kernel.Debug
import GlowOS.Lib.Program

/-!
# The timer

The tick counter of `device/timer.c`, the sleep that waits for it, and the programming of the
interval timer. `DIV_ROUND_UP` takes its arguments as text, and `mil_second_per_init` stands for
`1000 / IRQ0_FREQUENCY` without parentheses, so the division that is meant to be by 10 is one by
1000 and another by 100. `frequency_set` casts before it shifts, so the high byte it sends is 0.

The ticks that pass while a thread has given up the processor are not decided by it: `pass k` is
their number during its `k`-th turn of the loop.
-/

namespace GlowOS

open Program

/-! ## Data -/

/-- The variable `ticks`, a 32-bit word, and how many ticks there were in all. -/
structure Clock where
  ticks : ℕ
  counted : ℕ
  deriving DecidableEq, Repr

/-- Programs that look at the clock. -/
abbrev TimerM := StateT Clock (Except Fault)

/-- `n` runs of `intr_timer_handler`. -/
def Clock.tick (c : Clock) (n : ℕ) : Clock := ⟨(c.ticks + n) % 2 ^ 32, c.counted + n⟩

/-! ## Sleeping -/

/-- The loop of `ticks_to_sleep`, at most `fuel` turns of it, from turn `k` on. -/
def sleepLoop (pass : ℕ → ℕ) (startTick sleepTicks : ℕ) : ℕ → ℕ → TimerM PUnit
  | 0, _ => throw Fault.hang
  | fuel + 1, k => do
    let c ← get
    if (c.ticks + 2 ^ 32 - startTick) % 2 ^ 32 < sleepTicks then
      modify fun c ↦ c.tick (pass k)
      sleepLoop pass startTick sleepTicks fuel (k + 1)
    else pure ()

/-- `ticks_to_sleep`. -/
def ticksToSleep (pass : ℕ → ℕ) (fuel sleepTicks : ℕ) : TimerM PUnit := do
  let c ← get
  sleepLoop pass c.ticks sleepTicks fuel 0

/-- `DIV_ROUND_UP(m_seconds, mil_second_per_init)`, which expands to
`((m_seconds + 1000 / 100 - 1) / 1000 / 100)`. -/
def sleepTicksOf (mSeconds : ℕ) : ℕ :=
  ((mSeconds + 1000 / 100) % 2 ^ 32 + 2 ^ 32 - 1) % 2 ^ 32 / 1000 / 100

/-- `mtime_sleep`. -/
def mtimeSleep (pass : ℕ → ℕ) (fuel mSeconds : ℕ) : TimerM PUnit := do
  let sleepTicks := sleepTicksOf mSeconds
  check Fault.assert (0 < sleepTicks)
  ticksToSleep pass fuel sleepTicks

/-! ## The interval timer -/

/-- What counter 0 of the device does with the next byte. -/
inductive Latch
  | low
  | high (low : ℕ)
  deriving DecidableEq, Repr

/-- Counter 0 of the interval timer: its mode, what it does with the next byte, and the value it
counts down from. -/
structure Pit where
  mode : ℕ
  latch : Latch
  reload : ℕ
  deriving DecidableEq, Repr

/-- A byte comes in at a port. A control word for counter 0 with access to both bytes, low one
first, makes the device wait for these. -/
def Pit.outb (p : Pit) (port value : ℕ) : Pit :=
  if port = 0x43 then
    if value / 64 = 0 ∧ value / 16 % 4 = 3 then
      { p with mode := value / 2 % 8, latch := .low }
    else p
  else if port = 0x40 then
    match p.latch with
    | .low => { p with latch := .high value }
    | .high low => { p with latch := .low, reload := low + 256 * value }
  else p

/-- The two operands of the shift in `frequency_set`: the cast binds before the shift. -/
def frequencySet (p : Pit) (counterPort counterNo rwl counterMode counterValue : ℕ) : Pit :=
  let p := p.outb 0x43 ((counterNo <<< 6 ||| rwl <<< 4 ||| counterMode <<< 1) % 2 ^ 8)
  let p := p.outb counterPort (counterValue % 2 ^ 8)
  p.outb counterPort ((counterValue % 2 ^ 8) >>> 8)

/-- `COUNTER0_VALUE`. -/
def counter0Value : ℕ := 1193180 / 100

/-- What `timer_init` does to the device. -/
def timerInit (p : Pit) : Pit := frequencySet p 0x40 0 3 2 counter0Value

/-! ## The loop -/

section Loop

variable {pass : ℕ → ℕ} {startTick sleepTicks fuel k : ℕ} {c c' : Clock} {u : PUnit}

@[simp] theorem Clock.tick_counted (c : Clock) (n : ℕ) : (c.tick n).counted = c.counted + n := rfl

@[simp] theorem Clock.tick_ticks (c : Clock) (n : ℕ) :
    (c.tick n).ticks = (c.ticks + n) % 2 ^ 32 := rfl

/-- The difference that the loop looks at is the number of ticks that have passed, modulo the width
of the counter. -/
theorem elapsed_tick (d n : ℕ) : ((startTick + d) % 2 ^ 32 + n) % 2 ^ 32 =
    (startTick + (d + n)) % 2 ^ 32 := by
  omega

/-- **The loop never ends too early.** Behind it the ticks that it was to wait for have been
counted. -/
theorem sleepLoop_counts {d : ℕ} (hstart : startTick < 2 ^ 32)
    (hticks : c.ticks = (startTick + d) % 2 ^ 32)
    (h : Returns (sleepLoop pass startTick sleepTicks fuel k) c u c') :
    c.counted + sleepTicks ≤ c'.counted + d := by
  induction fuel generalizing k c d with
  | zero => exact absurd h returns_throw
  | succ fuel ih =>
    rw [sleepLoop, returns_get_bind, returns_ite] at h
    rcases h with ⟨-, h⟩ | ⟨hend, h⟩
    · rw [returns_modify_bind] at h
      have hrest := ih (d := d + pass k)
        (by rw [Clock.tick_ticks, hticks, elapsed_tick]) h
      rw [Clock.tick_counted] at hrest
      omega
    · obtain ⟨-, rfl⟩ := returns_pure.mp h
      omega

/-- One tick in each turn ends the loop after as many turns as there are ticks to wait for. -/
theorem sleepLoop_exact {d : ℕ} (hstart : startTick < 2 ^ 32) (hsleep : sleepTicks < 2 ^ 32)
    (hd : d ≤ sleepTicks) (hticks : c.ticks = (startTick + d) % 2 ^ 32)
    (hfuel : sleepTicks - d < fuel) :
    ∃ c', Returns (sleepLoop (fun _ ↦ 1) startTick sleepTicks fuel k) c () c' ∧
      c'.counted + d = c.counted + sleepTicks := by
  induction fuel generalizing k c d with
  | zero => omega
  | succ fuel ih =>
    by_cases hend : d = sleepTicks
    · refine ⟨c, ?_, by omega⟩
      rw [sleepLoop, returns_get_bind, if_neg (by omega)]
      exact returns_pure.mpr ⟨rfl, rfl⟩
    · obtain ⟨c', hret, hcount⟩ := ih (k := k + 1) (d := d + 1) (c := c.tick 1) (by omega)
        (by rw [Clock.tick_ticks, hticks, elapsed_tick]) (by omega)
      refine ⟨c', ?_, ?_⟩
      · rw [sleepLoop, returns_get_bind, if_pos (by omega), returns_modify_bind]
        exact hret
      · rw [Clock.tick_counted] at hcount
        omega

end Loop

/-! ## The length of a sleep -/

/-- What a caller of `mtime_sleep` relies on: no assertion fails, and when the call returns, a tick
for each 10 ms has been counted. -/
def SleepsFor (mSeconds : ℕ) (c : Clock) : Prop :=
  ∀ pass fuel, mtimeSleep pass fuel mSeconds c ≠ .error Fault.assert ∧
    ∀ c', Returns (mtimeSleep pass fuel mSeconds) c () c' →
      c.counted + (mSeconds + 9) / 10 ≤ c'.counted

/-- A tick of 10 ms: the device counts `COUNTER0_VALUE` periods of its input. -/
def Pit.TenMs (p : Pit) : Prop := p.reload = counter0Value

theorem sleepTicksOf_eq {mSeconds : ℕ} (h : mSeconds ≤ 2 ^ 32 - 10) :
    sleepTicksOf mSeconds = (mSeconds + 9) / 100000 := by
  rw [sleepTicksOf, Nat.div_div_eq_div_mul]
  omega

/-- A sleep of less than 100 seconds stops at the assertion. -/
theorem mtimeSleep_stops {pass : ℕ → ℕ} {fuel mSeconds : ℕ} {c : Clock} (h : mSeconds ≤ 99990) :
    mtimeSleep pass fuel mSeconds c = .error Fault.assert := by
  have hzero : ¬0 < sleepTicksOf mSeconds := by
    rw [sleepTicksOf_eq (by omega)]
    omega
  rw [mtimeSleep]
  exact check_stop hzero

/-- A longer one can be over after a ten thousandth of its time. -/
theorem mtimeSleep_short {mSeconds : ℕ} {c : Clock} (hlo : 99990 < mSeconds)
    (hhi : mSeconds ≤ 2 ^ 32 - 10) (hc : c.ticks < 2 ^ 32) :
    ∃ fuel c', Returns (mtimeSleep (fun _ ↦ 1) fuel mSeconds) c () c' ∧
      c'.counted = c.counted + (mSeconds + 9) / 100000 := by
  have hloop : ∃ c', Returns (sleepLoop (fun _ ↦ 1) c.ticks ((mSeconds + 9) / 100000)
      ((mSeconds + 9) / 100000 + 1) 0) c () c' ∧
      c'.counted + 0 = c.counted + (mSeconds + 9) / 100000 :=
    sleepLoop_exact hc (by omega) (Nat.zero_le _) (Nat.mod_eq_of_lt hc).symm (Nat.lt_succ_self _)
  obtain ⟨c', hret, hcount⟩ := hloop
  refine ⟨(mSeconds + 9) / 100000 + 1, c', ?_, hcount⟩
  have hpos : 0 < (mSeconds + 9) / 100000 := by omega
  rw [mtimeSleep, returns_check_bind, sleepTicksOf_eq hhi, ticksToSleep, returns_get_bind]
  exact ⟨hpos, hret⟩

/-- Whatever the value, the device counts down from its low byte. -/
theorem frequencySet_reload (p : Pit) (counterValue : ℕ) :
    (frequencySet p 0x40 0 3 2 counterValue).reload = counterValue % 2 ^ 8 := by
  have hhigh : (counterValue % 2 ^ 8) >>> 8 = 0 := by
    rw [Nat.shiftRight_eq_div_pow]
    omega
  rw [frequencySet, hhigh]
  rfl

/-- **No sleep has the length that is asked for.** Every sleep of less than 100 seconds stops the
kernel, every longer one can end too early, and a tick is not 10 ms long. -/
theorem mtimeSleep_never {mSeconds : ℕ} (hlo : 1 ≤ mSeconds) (hhi : mSeconds ≤ 2 ^ 32 - 10)
    {c : Clock} (hc : c.ticks < 2 ^ 32) (p : Pit) :
    ¬SleepsFor mSeconds c ∧ ¬(timerInit p).TenMs := by
  constructor
  · intro h
    by_cases hshort : mSeconds ≤ 99990
    · exact (h (fun _ ↦ 0) 0).1 (mtimeSleep_stops hshort)
    · obtain ⟨fuel, c', hret, hcount⟩ := mtimeSleep_short (Nat.lt_of_not_le hshort) hhi hc
      have henough := (h _ fuel).2 c' hret
      omega
  · intro h
    have hreload := frequencySet_reload p counter0Value
    rw [Pit.TenMs, timerInit, hreload] at h
    exact absurd h (by decide)

/-- The sleep of `busy_wait`. -/
theorem mtimeSleep_never_ten :
    ¬SleepsFor 10 ⟨0, 0⟩ ∧ ¬(timerInit ⟨0, .low, 0⟩).TenMs :=
  mtimeSleep_never (by decide) (by decide) (by decide) _

/-- A sleep of 10 ms stops the kernel. -/
theorem not_sleepsFor_ten :
    ¬∀ (mSeconds : ℕ) (c : Clock), 1 ≤ mSeconds → mSeconds ≤ 2 ^ 32 - 10 → c.ticks < 2 ^ 32 →
      SleepsFor mSeconds c ∧ (timerInit ⟨0, .low, 0⟩).TenMs := by
  intro h
  obtain ⟨hsleeps, -⟩ := h 10 ⟨0, 0⟩ (by decide) (by decide) (by decide)
  exact (hsleeps (fun _ ↦ 0) 0).1 (mtimeSleep_stops (by decide))

end GlowOS
