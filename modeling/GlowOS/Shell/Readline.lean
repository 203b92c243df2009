import Mathlib
import GlowOS.Lib.CStrings

/-!
# The line editor

`readline` of `shell/shell.c`. Every character is first stored at `pos`, and only then is the
position compared with the size of the buffer and the character interpreted. The buffer is known by
its indices; `stored` is the list of the indices that were assigned, so that an assignment behind
the buffer shows.

A read of one character from the keyboard always delivers one. The characters are the keys of a run,
and a run that has used them up waits for the next one.

`edited` is the line one means to have typed. Between two characters the buffer spells it up to
`pos`, and what is behind are leftovers: an interpreted control character, or what was erased.
-/

namespace GlowOS.Shell

open Bytes CStrings

/-! ## The function -/

/-- What appears on the screen. -/
inductive Echo
  | putchar (c : UInt8)
  | clear
  | prompt
  | printf (s : List UInt8)
  /-- The message that there was no Enter. -/
  | noEnter
  deriving DecidableEq

/-- The buffer, the position, the indices that were assigned, and the output. -/
structure Editor where
  buf : Image
  pos : ℕ
  stored : List ℕ
  screen : List Echo

/-- `buf[i] = c`. -/
@[simps] def Editor.store (s : Editor) (i : ℕ) (c : UInt8) : Editor :=
  { s with buf := Function.update s.buf i c, stored := s.stored ++ [i] }

/-- Set the position. -/
@[simps] def Editor.setPos (s : Editor) (i : ℕ) : Editor := { s with pos := i }

/-- Output. -/
@[simps] def Editor.echo (s : Editor) (e : List Echo) : Editor := { s with screen := s.screen ++ e }

/-- Where a call of `readline` is. -/
inductive ReadlineAt
  /-- In front of the next `read`. -/
  | reading (s : Editor)
  | returned (s : Editor)

/-- The buffer and the rest. -/
def ReadlineAt.editor : ReadlineAt → Editor
  | .reading s | .returned s => s

/-- The loop for Ctrl-U, with `pos` at the index `n`. -/
def clearLine : ℕ → Editor → Editor
  | 0, s => s
  | n + 1, s => clearLine n (((s.echo [.putchar 8]).store (n + 1) 0).setPos n)

/-- A round of the loop in which `read` delivers the character `c`. -/
def readlineStep (count : ℕ) (s : Editor) (c : UInt8) : ReadlineAt :=
  let s := s.store s.pos c
  if s.pos < count then
    -- `'l' - 'a'`
    if c = 11 then
      let s := s.store s.pos 0
      .reading (s.echo
        [.clear, .prompt, .printf (((List.range (s.pos + 1)).map s.buf).takeWhile (· ≠ 0))])
    -- `'u' - 'a'`
    else if c = 20 then .reading (clearLine s.pos s)
    else if c = 10 ∨ c = 13 then .returned ((s.store s.pos 0).echo [.putchar 10])
    else if c = 8 then
      if s.buf 0 ≠ 8 then .reading ((s.setPos (s.pos - 1)).echo [.putchar 8]) else .reading s
    else .reading ((s.setPos (s.pos + 1)).echo [.putchar c])
  else .returned (s.echo [.noEnter])

/-- The loop, with the characters that `read` delivers. -/
def readlineFrom (count : ℕ) : Editor → List UInt8 → ReadlineAt
  | s, [] => .reading s
  | s, c :: cs =>
    match readlineStep count s c with
    | .reading s => readlineFrom count s cs
    | .returned s => .returned s

/-- `readline`, for a buffer with the contents `buf`. -/
def readline (buf : Image) (count : ℕ) (cs : List UInt8) : ReadlineAt :=
  readlineFrom count ⟨buf, 0, [], []⟩ cs

/-! ## The line one has typed -/

/-- What a character does to the line: backspace, Ctrl-U, Ctrl-L, or an ordinary one. -/
def edit (line : List UInt8) (c : UInt8) : List UInt8 :=
  if c = 8 then line.dropLast else if c = 20 then [] else if c = 11 then line else line ++ [c]

/-- The line after some characters. -/
def edited (cs : List UInt8) : List UInt8 := cs.foldl edit []

/-- Line feed or carriage return. -/
abbrev IsEnter (c : UInt8) : Prop := c = 10 ∨ c = 13

/-- `readline` has edited the line: it has assigned elements of the buffer only, leaves a string
when it returns, and if Enter came in time this is the line. -/
structure Edits (buf : Image) (count : ℕ) (cs : List UInt8) : Prop where
  within : ∀ i ∈ (readline buf count cs).editor.stored, i < count
  terminated : ∀ s, readline buf count cs = .returned s → ∃ i < count, s.buf i = 0
  line : ∀ pre c post, cs = pre ++ c :: post → (∀ x ∈ pre, ¬IsEnter x) → IsEnter c →
    (edited pre).length < count →
    ∃ s, readline buf count cs = .returned s ∧ HoldsString s.buf 0 (edited pre)

/-- Whenever a character comes before Enter or is it, the line is shorter than the buffer. -/
def InTime (count : ℕ) (line cs : List UInt8) : Prop :=
  ∀ pre c post, cs = pre ++ c :: post → (∀ x ∈ pre, ¬IsEnter x) →
    (pre.foldl edit line).length < count

/-! ## One character -/

/-- Between two characters the buffer spells the line up to the position. -/
structure Holds (count : ℕ) (line : List UInt8) (s : Editor) : Prop where
  pos : s.pos = line.length
  spells : Spells s.buf 0 line
  /-- Control characters are interpreted. -/
  noBackspace : (8 : UInt8) ∉ line
  noNul : (0 : UInt8) ∉ line
  fits : line.length ≤ count
  within : ∀ i ∈ s.stored, i < count

section Steps

variable {count : ℕ} {line cs : List UInt8} {s : Editor} {c : UInt8}

theorem clearLine_pos (n : ℕ) (s : Editor) (h : s.pos = n) : (clearLine n s).pos = 0 := by
  induction n generalizing s with
  | zero => exact h
  | succ n ih => exact ih _ rfl

theorem clearLine_stored (n : ℕ) (s : Editor) (hn : n < count) (h : ∀ i ∈ s.stored, i < count) :
    ∀ i ∈ (clearLine n s).stored, i < count := by
  induction n generalizing s with
  | zero => exact h
  | succ n ih =>
    refine ih _ (by omega) fun i hi ↦ ?_
    rcases List.mem_append.mp hi with hi | hi
    · exact h i hi
    · rwa [List.mem_singleton.mp hi]

/-- Storing the character at the position. -/
theorem Holds.store (h : Holds count line s) (hlt : line.length < count) :
    Spells (s.store s.pos c).buf 0 line ∧ (s.store s.pos c).buf line.length = c ∧
      ∀ i ∈ (s.store s.pos c).stored, i < count := by
  refine ⟨h.spells.congr fun i _ h2 ↦ ?_, ?_, fun i hi ↦ ?_⟩
  · rw [Editor.store_buf, h.pos]
    exact Function.update_of_ne (by omega) _ _
  · rw [Editor.store_buf, h.pos, Function.update_self]
  · rcases List.mem_append.mp hi with hi | hi
    · exact h.within i hi
    · rwa [List.mem_singleton.mp hi, h.pos]

/-- A character other than Enter edits the line. -/
theorem Holds.step (h : Holds count line s) (hlt : line.length < count) (henter : ¬IsEnter c)
    (hnul : c ≠ 0) : ∃ s', readlineStep count s c = .reading s' ∧ Holds count (edit line c) s' := by
  obtain ⟨hspells, hat, hwithin⟩ := h.store (c := c) hlt
  have hpos : (s.store s.pos c).pos = line.length := h.pos
  have hlt' : (s.store s.pos c).pos < count := by rwa [hpos]
  rw [readlineStep]
  dsimp only
  rw [if_pos hlt']
  by_cases hl : c = 11
  · subst hl
    refine ⟨_, if_pos rfl, ⟨hpos, ?_, h.noBackspace, h.noNul, h.fits, fun i hi ↦ ?_⟩⟩
    · exact hspells.congr fun i _ h2 ↦ Function.update_of_ne (by omega) _ _
    · rcases List.mem_append.mp hi with hi | hi
      · exact hwithin i hi
      · rwa [List.mem_singleton.mp hi]
  · rw [if_neg hl]
    by_cases hu : c = 20
    · subst hu
      exact ⟨_, if_pos rfl, ⟨clearLine_pos _ _ rfl, trivial, List.not_mem_nil, List.not_mem_nil,
        Nat.zero_le _, clearLine_stored _ _ hlt' hwithin⟩⟩
    · rw [if_neg hu, if_neg henter]
      by_cases hb : c = 8
      · subst hb
        rw [if_pos rfl]
        cases line with
        | nil =>
          -- the line is empty, and the backspace is the first character of the buffer
          have hfirst : (s.store s.pos 8).buf 0 = 8 := hat
          exact ⟨_, if_neg (not_not.mpr hfirst), ⟨hpos, hspells, h.noBackspace, h.noNul, h.fits,
            hwithin⟩⟩
        | cons x line =>
          have hfirst : (s.store s.pos 8).buf 0 ≠ 8 := by
            rw [hspells.1]
            exact fun hx ↦ h.noBackspace (hx ▸ List.mem_cons_self)
          have hdrop : edit (x :: line) 8 = (x :: line).dropLast := rfl
          have hsplit := List.dropLast_append_getLast (List.cons_ne_nil x line)
          refine ⟨_, if_pos hfirst, ⟨?_, ?_, ?_, ?_, ?_, hwithin⟩⟩
          · rw [hdrop, List.length_dropLast, Editor.echo_pos, Editor.setPos_pos, hpos]
          · rw [hdrop]
            rw [← hsplit] at hspells
            exact (spells_append.mp hspells).1
          · exact fun hm ↦ h.noBackspace (List.mem_of_mem_dropLast (hdrop ▸ hm))
          · exact fun hm ↦ h.noNul (List.mem_of_mem_dropLast (hdrop ▸ hm))
          · rw [hdrop, List.length_dropLast]
            exact (Nat.sub_le _ _).trans h.fits
      · rw [if_neg hb]
        have happ : edit line c = line ++ [c] := by rw [edit, if_neg hb, if_neg hu, if_neg hl]
        refine ⟨_, rfl, ⟨?_, ?_, ?_, ?_, ?_, hwithin⟩⟩
        · rw [happ, Editor.echo_pos, Editor.setPos_pos, hpos, List.length_append,
            List.length_singleton]
        · rw [happ, spells_append, Nat.zero_add]
          exact ⟨hspells, hat, trivial⟩
        · rw [happ, List.mem_append, List.mem_singleton, not_or]
          exact ⟨h.noBackspace, Ne.symm hb⟩
        · rw [happ, List.mem_append, List.mem_singleton, not_or]
          exact ⟨h.noNul, hnul.symm⟩
        · rw [happ, List.length_append, List.length_singleton]
          exact hlt

/-- Enter returns the line. -/
theorem Holds.enter (h : Holds count line s) (hlt : line.length < count) (henter : IsEnter c) :
    ∃ s', readlineStep count s c = .returned s' ∧ HoldsString s'.buf 0 line ∧
      ∀ i ∈ s'.stored, i < count := by
  obtain ⟨hspells, -, hwithin⟩ := h.store (c := c) hlt
  have hpos : (s.store s.pos c).pos = line.length := h.pos
  have hlt' : (s.store s.pos c).pos < count := by rwa [hpos]
  have hne : c ≠ 11 ∧ c ≠ 20 := by rcases henter with rfl | rfl <;> decide
  rw [readlineStep]
  dsimp only
  rw [if_pos hlt', if_neg hne.1, if_neg hne.2, if_pos henter]
  refine ⟨_, rfl, ⟨?_, ?_, h.noNul⟩, fun i hi ↦ ?_⟩
  · refine hspells.congr fun i _ h2 ↦ Function.update_of_ne ?_ _ _
    rw [hpos]
    omega
  · rw [Editor.echo_buf, Editor.store_buf, hpos, Nat.zero_add, Function.update_self]
  · rcases List.mem_append.mp hi with hi | hi
    · exact hwithin i hi
    · rwa [List.mem_singleton.mp hi]

/-- With a full buffer the character is stored behind it. -/
theorem Holds.full (h : Holds count line s) (hfull : line.length = count) :
    ∃ s', readlineStep count s c = .returned s' ∧ count ∈ s'.stored := by
  have hpos : (s.store s.pos c).pos = count := h.pos.trans hfull
  rw [readlineStep]
  dsimp only
  rw [if_neg (by rw [hpos]; exact Nat.lt_irrefl _)]
  refine ⟨_, rfl, List.mem_append_right _ ?_⟩
  rw [h.pos, hfull]
  exact List.mem_singleton_self _

end Steps

/-! ## A run -/

section Runs

variable {count : ℕ} {line cs : List UInt8} {s s' : Editor} {c : UInt8}

theorem readlineFrom_of_reading (h : readlineStep count s c = .reading s') :
    readlineFrom count s (c :: cs) = readlineFrom count s' cs := by
  rw [readlineFrom, h]

theorem readlineFrom_of_returned (h : readlineStep count s c = .returned s') :
    readlineFrom count s (c :: cs) = .returned s' := by
  rw [readlineFrom, h]

theorem inTime_nil : InTime count line [] := by
  intro pre c post h
  cases pre <;> cases h

theorem inTime_cons : InTime count line (c :: cs) ↔
    line.length < count ∧ (¬IsEnter c → InTime count (edit line c) cs) := by
  constructor
  · intro h
    refine ⟨h [] c cs rfl (by simp), fun henter pre d post hcs hpre ↦ ?_⟩
    refine h (c :: pre) d post (by rw [hcs, List.cons_append]) fun x hx ↦ ?_
    rcases List.mem_cons.mp hx with rfl | hx
    · exact henter
    · exact hpre x hx
  · rintro ⟨hlt, h⟩ pre d post hcs hpre
    cases pre with
    | nil => exact hlt
    | cons x pre =>
      obtain ⟨rfl, rfl⟩ := List.cons.inj hcs
      exact h (hpre c List.mem_cons_self) pre d post rfl fun x hx ↦
        hpre x (List.mem_cons_of_mem _ hx)

/-- All assignments are within the buffer exactly when every character comes in time. -/
theorem readlineFrom_within_iff (h : Holds count line s) (hcs : (0 : UInt8) ∉ cs) :
    (∀ i ∈ (readlineFrom count s cs).editor.stored, i < count) ↔ InTime count line cs := by
  induction cs generalizing line s with
  | nil => exact iff_of_true h.within inTime_nil
  | cons c cs ih =>
    rw [List.mem_cons, not_or] at hcs
    rw [inTime_cons]
    by_cases hfull : line.length = count
    · obtain ⟨s', hstep, hstored⟩ := h.full (c := c) hfull
      rw [readlineFrom_of_returned hstep]
      constructor
      · exact fun hwithin ↦ absurd (hwithin count hstored) (Nat.lt_irrefl _)
      · exact fun hin ↦ absurd hfull hin.1.ne
    · have hlt : line.length < count := lt_of_le_of_ne h.fits hfull
      by_cases henter : IsEnter c
      · obtain ⟨s', hstep, -, hwithin⟩ := h.enter hlt henter
        rw [readlineFrom_of_returned hstep]
        exact iff_of_true hwithin ⟨hlt, fun hne ↦ absurd henter hne⟩
      · obtain ⟨s', hstep, hholds⟩ := h.step hlt henter (Ne.symm hcs.1)
        rw [readlineFrom_of_reading hstep, ih hholds hcs.2]
        exact ⟨fun hin ↦ ⟨hlt, fun _ ↦ hin⟩, fun hin ↦ hin.2 henter⟩

/-- If every character comes in time, the call returns a string. -/
theorem readlineFrom_terminated (h : Holds count line s) (hcs : (0 : UInt8) ∉ cs)
    (hin : InTime count line cs) (hret : readlineFrom count s cs = .returned s') :
    ∃ i < count, s'.buf i = 0 := by
  induction cs generalizing line s with
  | nil => cases hret
  | cons c cs ih =>
    rw [List.mem_cons, not_or] at hcs
    obtain ⟨hlt, hin⟩ := inTime_cons.mp hin
    by_cases henter : IsEnter c
    · obtain ⟨s₁, hstep, hholds, -⟩ := h.enter hlt henter
      rw [readlineFrom_of_returned hstep] at hret
      cases hret
      exact ⟨line.length, hlt, by simpa using hholds.terminated⟩
    · obtain ⟨s₁, hstep, hholds⟩ := h.step hlt henter (Ne.symm hcs.1)
      rw [readlineFrom_of_reading hstep] at hret
      exact ih hholds hcs.2 (hin henter) hret

/-- If every character comes in time, Enter returns the line. -/
theorem readlineFrom_line (h : Holds count line s) {pre post : List UInt8}
    (hnul : (0 : UInt8) ∉ pre) (hin : InTime count line (pre ++ c :: post))
    (hpre : ∀ x ∈ pre, ¬IsEnter x) (henter : IsEnter c) :
    ∃ s', readlineFrom count s (pre ++ c :: post) = .returned s' ∧
      HoldsString s'.buf 0 (pre.foldl edit line) := by
  induction pre generalizing line s with
  | nil =>
    obtain ⟨s', hstep, hholds, -⟩ := h.enter (inTime_cons.mp hin).1 henter
    exact ⟨s', readlineFrom_of_returned hstep, hholds⟩
  | cons x pre ih =>
    rw [List.mem_cons, not_or] at hnul
    obtain ⟨hlt, hin⟩ := inTime_cons.mp hin
    have hx : ¬IsEnter x := hpre x List.mem_cons_self
    obtain ⟨s₁, hstep, hholds⟩ := h.step hlt hx (Ne.symm hnul.1)
    obtain ⟨s', hret, hstring⟩ :=
      ih hholds hnul.2 (hin hx) fun y hy ↦ hpre y (List.mem_cons_of_mem _ hy)
    exact ⟨s', (readlineFrom_of_reading hstep).trans hret, hstring⟩

/-- A call starts with an empty line. -/
theorem holds_start (buf : Image) (count : ℕ) : Holds count [] ⟨buf, 0, [], []⟩ :=
  ⟨rfl, trivial, List.not_mem_nil, List.not_mem_nil, Nat.zero_le _, by simp⟩

/-- **Editing a line** works exactly when no character comes that finds the line as long as the
buffer. -/
theorem edits_iff {buf : Image} (hcs : (0 : UInt8) ∉ cs) :
    Edits buf count cs ↔ InTime count [] cs := by
  have hstart := holds_start buf count
  constructor
  · exact fun h ↦ (readlineFrom_within_iff hstart hcs).mp h.within
  · intro hin
    refine ⟨(readlineFrom_within_iff hstart hcs).mpr hin,
      fun s hret ↦ readlineFrom_terminated hstart hcs hin hret, ?_⟩
    rintro pre c post rfl hpre henter -
    refine readlineFrom_line hstart (fun h0 ↦ hcs ?_) hin hpre henter
    exact List.mem_append_left _ h0

end Runs

/-- A line with a backspace, a Ctrl-U and an Enter. -/
theorem edits_iff_sample :
    Edits (fun _ ↦ 0) 128 [97, 20, 98, 99, 8, 13] ↔ InTime 128 [] [97, 20, 98, 99, 8, 13] :=
  edits_iff (by decide)

theorem foldl_edit_replicate (n : ℕ) (line : List UInt8) :
    ((List.replicate n 97).foldl edit line).length = line.length + n := by
  induction n generalizing line with
  | zero => rfl
  | succ n ih =>
    have hedit : edit line 97 = line ++ [97] := rfl
    rw [List.replicate_succ, List.foldl_cons, ih, hedit, List.length_append, List.length_singleton,
      Nat.add_assoc, Nat.add_comm 1]

/-- A line as long as the buffer, and one character more. -/
theorem not_edits : ¬Edits (fun _ ↦ 0) 128 (List.replicate 129 97) := by
  intro h
  have hin := (readlineFrom_within_iff (holds_start _ 128)
    (fun h0 ↦ absurd (List.eq_of_mem_replicate h0) (by decide))).mp h.within
  have hlt := hin (List.replicate 128 97) 97 [] List.replicate_succ' fun x hx ↦ by
    rw [List.eq_of_mem_replicate hx]
    decide
  rw [foldl_edit_replicate] at hlt
  exact absurd hlt (Nat.lt_irrefl 128)

end GlowOS.Shell
