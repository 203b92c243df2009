import Mathlib
import GlowOS.Device.Screen
import GlowOS.Thread.Sections

/-!
# The console

`console_put_str`, `console_put_int` and `console_put_char` print under `console_lock`. Threads that
print at the same time do not mix their texts, although each of them may lose the processor between
any two accesses to the screen: the cursor and the scrolled rows are what the texts leave when they
are printed one after the other.
-/

namespace GlowOS.Console

open Interleave Interleave.Prog Print Sections

/-! ## The calls -/

/-- The calls that print. -/
inductive ConsoleCall
  | putStr (str : List UInt8)
  | putInt (num : UInt32)
  | putChar (chr : UInt8)

/-- What a call does between `console_acquire` and `console_release`. -/
def ConsoleCall.body : ConsoleCall → Prog Display PUnit
  | .putStr str => Print.putStr str
  | .putInt num => Print.putInt num
  | .putChar chr => Print.putChar chr

/-- The characters that a call prints. -/
def ConsoleCall.text : ConsoleCall → List UInt8
  | .putStr str => str
  | .putInt num => (Numerals.numeral 16 num.toNat).map digitChar
  | .putChar chr => [chr]

/-- `console_put_str`. -/
def consolePutStr (t : ℕ) (str : List UInt8) : Prog (Guarded Display ConsoleCall) PUnit :=
  underLock ConsoleCall.body t (.putStr str)

/-- `console_put_int`. -/
def consolePutInt (t : ℕ) (num : UInt32) : Prog (Guarded Display ConsoleCall) PUnit :=
  underLock ConsoleCall.body t (.putInt num)

/-- `console_put_char`. -/
def consolePutChar (t : ℕ) (chr : UInt8) : Prog (Guarded Display ConsoleCall) PUnit :=
  underLock ConsoleCall.body t (.putChar chr)

/-- The programs that threads run are these. -/
theorem calls_iff {t : ℕ} {q : Prog (Guarded Display ConsoleCall) PUnit} :
    Calls ConsoleCall.body t q ↔
      (∃ str, q = consolePutStr t str) ∨ (∃ num, q = consolePutInt t num) ∨
        ∃ chr, q = consolePutChar t chr := by
  constructor
  · rintro ⟨e⟩
    cases e with
    | putStr str => exact .inl ⟨str, rfl⟩
    | putInt num => exact .inr (.inl ⟨num, rfl⟩)
    | putChar chr => exact .inr (.inr ⟨chr, rfl⟩)
  · rintro (⟨str, rfl⟩ | ⟨num, rfl⟩ | ⟨chr, rfl⟩) <;> exact .call _

/-! ## Alone -/

variable {d₀ d d' : Display} {p : Page}

/-- A call prints its text. -/
theorem ConsoleCall.shows (e : ConsoleCall) (h : Shows d₀ p d) :
    ∃ d', e.body.alone d = some (PUnit.unit, d') ∧ Shows d₀ (p.puts e.text) d' := by
  cases e with
  | putStr str =>
    obtain ⟨d', hrun, hs, -⟩ := h.putStr str
    exact ⟨d', hrun, hs⟩
  | putInt num => exact h.putInt num
  | putChar chr =>
    obtain ⟨d', hrun, hs, -⟩ := h.putChar chr
    exact ⟨d', hrun, hs⟩

/-- Calls that are made one after the other print their texts one after the other. -/
theorem shows_aloneAll {es : List ConsoleCall} (h : Shows d₀ p d)
    (hrun : aloneAll ConsoleCall.body es d = some d') :
    Shows d₀ (p.puts (es.flatMap ConsoleCall.text)) d' := by
  induction es generalizing p d with
  | nil =>
    obtain rfl := Option.some.inj hrun
    exact h
  | cons e es ih =>
    obtain ⟨r, hr, hs⟩ := e.shows h
    rw [aloneAll, hr, Option.bind_some] at hrun
    rw [List.flatMap_cons, Page.puts_append]
    exact ih hs hrun

/-! ## Together -/

/-- **Texts do not mix.** In every run of threads that print, whenever `console_lock` is free the
screen shows the texts of the calls that are done, each of them whole, in the order in which they gave
the lock back. -/
theorem console_shows {d : Display} (hd : d.cursor < 2000)
    {c : Threads (Guarded Display ConsoleCall)} (h : Reachable ConsoleCall.body d c)
    (hfree : c.shared.lock.value = 1) :
    Shows d ((Page.ofDisplay d).puts (c.shared.done.flatMap ConsoleCall.text)) c.shared.part := by
  have hinv := h.inv
  have howner : c.shared.owner = none := by
    cases howner : c.shared.owner with
    | none => rfl
    | some u =>
      have hzero := (hinv.held u howner).1
      omega
  exact shows_aloneAll (shows_ofDisplay hd) (hinv.free howner).2

/-- Two threads print a character each. The second one comes while the first one has the lock, and
prints when it has given it back. -/
theorem console_shows_two :
    ∃ c : Threads (Guarded Display ConsoleCall), Reachable ConsoleCall.body .clear c ∧
      c.shared.done.map ConsoleCall.text = [[65], [66]] ∧
      Shows .clear ((Page.ofDisplay .clear).puts (c.shared.done.flatMap ConsoleCall.text))
        c.shared.part := by
  let c₂ : Threads (Guarded Display ConsoleCall) :=
    ⟨Guarded.init .clear, Function.update (Function.update (fun _ ↦ .ret PUnit.unit) 0
      (consolePutChar 0 65)) 1 (consolePutChar 1 66)⟩
  have hcalls : Reachable ConsoleCall.body .clear c₂ :=
    .tail (.tail .refl (.call rfl (.call _))) (.call rfl (.call _))
  have hturns : ((c₂.turns (List.replicate 6 0 ++ [1] ++ List.replicate 15 0 ++
      List.replicate 20 1)).map fun c ↦ (c.shared.lock.value, c.shared.done.map ConsoleCall.text)) =
      some (1, [[65], [66]]) := by
    decide +kernel
  obtain ⟨c, hc, hend⟩ := Option.map_eq_some_iff.mp hturns
  obtain ⟨hvalue, htexts⟩ := Prod.mk.inj hend
  have hrun : Reachable ConsoleCall.body .clear c := hcalls.trans (reaches_of_turns hc)
  exact ⟨c, hrun, htexts, console_shows (by decide) hrun hvalue⟩

end GlowOS.Console
