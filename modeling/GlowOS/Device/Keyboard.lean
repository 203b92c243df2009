import Mathlib
import GlowOS.Device.IoQueue

/-!
# The keyboard

`intr_keyboard_handler` of `device/keyboard.c`, which is called with one byte from the port at a
time. A scan code is one byte, or two when the first is `0xe0`; a break code is the make code with
bit 7 set.

The handler keeps one flag for each kind of modifier key. The left and the right key of a kind set
and clear the same flag, so that it goes out when one of them is released while the other is held;
otherwise the flags are right. `tracks_iff` says so of every sequence of presses and releases.

Between two interrupts the rest of the system may do anything to the threads and to `kb_buf`, but
not to the flags.
-/

namespace GlowOS.Keyboard

open Program Device

/-! ## Data -/

/-- The status variables of the driver. -/
structure Kbd where
  ctrlStatus : Bool
  shiftStatus : Bool
  altStatus : Bool
  capsLockStatus : Bool
  extScancode : Bool
  deriving DecidableEq, Repr

/-- Their initial values. -/
def Kbd.boot : Kbd := ⟨false, false, false, false, false⟩

/-- The driver, with `kb_buf` and the threads. -/
structure KbdState where
  kbd : Kbd
  io : IoState

/-- Programs over the driver. -/
abbrev KbdM := StateT KbdState (Except Fault)

/-- Change the status variables. -/
@[simps] def KbdState.setKbd (s : KbdState) (k : Kbd) : KbdState := { s with kbd := k }

/-- A function of the queue. -/
def onIo {α : Type} (m : IoM α) : KbdM α := fun s ↦ do
  let r ← m s.io
  pure (r.1, { s with io := r.2 })

/-- `keymap`: the character of a key, without and with shift. -/
def keymap : List (UInt8 × UInt8) :=
  [(0, 0), (27, 27), (49, 33), (50, 64), (51, 35), (52, 36), (53, 37), (54, 94), (55, 38), (56, 42),
    (57, 40), (48, 41), (45, 95), (61, 43), (8, 8), (9, 9), (113, 81), (119, 87), (101, 69),
    (114, 82), (116, 84), (121, 89), (117, 85), (105, 73), (111, 79), (112, 80), (91, 123),
    (93, 125), (13, 13), (0, 0), (97, 65), (115, 83), (100, 68), (102, 70), (103, 71), (104, 72),
    (106, 74), (107, 75), (108, 76), (59, 58), (39, 34), (96, 126), (0, 0), (92, 124), (122, 90),
    (120, 88), (99, 67), (118, 86), (98, 66), (110, 78), (109, 77), (44, 60), (46, 62), (47, 63),
    (0, 0), (42, 42), (0, 0), (32, 32), (0, 0)]

/-! ## The handler -/

/-- The key has two characters, and is not a letter. -/
def isDouble (scancode : ℕ) : Bool :=
  scancode < 0x0e || scancode == 0x29 || scancode == 0x1a || scancode == 0x1b ||
    scancode == 0x2b || scancode == 0x27 || scancode == 0x28 || scancode == 0x33 ||
    scancode == 0x34 || scancode == 0x35

/-- Which of the two characters it is. -/
def Kbd.shift (k : Kbd) (scancode : ℕ) : Bool :=
  if isDouble scancode then k.shiftStatus
  else if k.shiftStatus && k.capsLockStatus then false
  else k.shiftStatus || k.capsLockStatus

/-- `cur_char`. -/
def curChar (ctrl shift : Bool) (index : ℕ) : UInt8 :=
  let entry := keymap.getD index (0, 0)
  let c := if shift then entry.2 else entry.1
  if ctrl && c == 108 || ctrl && c == 117 then c - 97 else c

/-- The codes the driver knows. -/
abbrev Legal (scancode : ℕ) : Prop :=
  0x00 < scancode ∧ scancode < 0x3b ∨ scancode = 0xe038 ∨ scancode = 0xe01d

/-- The branch for a break code. -/
def Kbd.breakKey (k : Kbd) (makeCode : ℕ) : Kbd :=
  if makeCode = 0x1d ∨ makeCode = 0xe01d then { k with ctrlStatus := false }
  else if makeCode = 0x2a ∨ makeCode = 0x36 then { k with shiftStatus := false }
  else if makeCode = 0x38 ∨ makeCode = 0xe038 then { k with altStatus := false }
  else k

/-- The end of the branch for a make code, for keys without a character. -/
def Kbd.makeKey (k : Kbd) (scancode : ℕ) : Kbd :=
  if scancode = 0x1d ∨ scancode = 0xe01d then { k with ctrlStatus := true }
  else if scancode = 0x2a ∨ scancode = 0x36 then { k with shiftStatus := true }
  else if scancode = 0x38 ∨ scancode = 0xe038 then { k with altStatus := true }
  else if scancode = 0x3a then { k with capsLockStatus := !k.capsLockStatus }
  else k

/-- `scancode`, put together with the prefix. -/
def Kbd.scancode (k : Kbd) (byte : UInt8) : ℕ :=
  if k.extScancode then 0xe000 ||| byte.toNat else byte.toNat

/-- `intr_keyboard_handler`, with the byte that `inb` returns. -/
def intrKeyboardHandler (byte : UInt8) : KbdM PUnit := do
  let s ← get
  let k := s.kbd
  if byte = 0xe0 then modify fun s ↦ s.setKbd { k with extScancode := true }
  else do
    let scancode := k.scancode byte
    let k := { k with extScancode := false }
    modify fun s ↦ s.setKbd k
    if scancode &&& 0x0080 ≠ 0 then modify fun s ↦ s.setKbd (k.breakKey (scancode &&& 0xff7f))
    else if Legal scancode then do
      let c := curChar k.ctrlStatus (k.shift scancode) (scancode &&& 0x00ff)
      if c ≠ 0 then do
        let full ← onIo ioqFull
        if full then pure PUnit.unit
        else do
          let _ ← onIo (IoOp.putchar c).call
          pure PUnit.unit
      else modify fun s ↦ s.setKbd (k.makeKey scancode)
    else pure PUnit.unit

/-! ## What an interrupt does to the flags -/

/-- The status variables behind an interrupt. -/
def Kbd.next (k : Kbd) (byte : UInt8) : Kbd :=
  if byte = 0xe0 then { k with extScancode := true }
  else
    let scancode := k.scancode byte
    let k := { k with extScancode := false }
    if scancode &&& 0x0080 ≠ 0 then k.breakKey (scancode &&& 0xff7f)
    else if Legal scancode ∧ curChar k.ctrlStatus (k.shift scancode) (scancode &&& 0x00ff) = 0 then
      k.makeKey scancode
    else k

theorem returns_onIo {α : Type} {m : IoM α} {s s' : KbdState} {a : α} :
    Returns (onIo m) s a s' ↔ ∃ t, Returns m s.io a t ∧ s' = { s with io := t } := by
  have hrun : onIo m s = (m s.io >>= fun r ↦ .ok (r.1, { s with io := r.2 })) := rfl
  rw [Returns, hrun]
  cases hm : m s.io with
  | error e =>
    constructor
    · intro h
      cases h
    · rintro ⟨t, h, -⟩
      rw [Returns, hm] at h
      cases h
  | ok r =>
    constructor
    · intro h
      cases h
      exact ⟨r.2, hm, rfl⟩
    · rintro ⟨t, h, rfl⟩
      rw [Returns, hm, Except.ok.injEq] at h
      subst h
      rfl

/-- The handler sets the status variables to these values, whatever it does with the queue. -/
theorem kbd_of_returns {byte : UInt8} {s s' : KbdState}
    (h : Returns (intrKeyboardHandler byte) s PUnit.unit s') : s'.kbd = s.kbd.next byte := by
  rw [intrKeyboardHandler, returns_get_bind] at h
  rw [Kbd.next]
  dsimp only at h ⊢
  by_cases hext : byte = 0xe0
  · rw [if_pos hext] at h ⊢
    rw [returns_modify.mp h]
    rfl
  rw [if_neg hext, returns_modify_bind] at h
  rw [if_neg hext]
  by_cases hbreak : s.kbd.scancode byte &&& 0x0080 ≠ 0
  · rw [if_pos hbreak] at h ⊢
    rw [returns_modify.mp h]
    rfl
  rw [if_neg hbreak] at h ⊢
  by_cases hlegal : Legal (s.kbd.scancode byte)
  · rw [if_pos hlegal] at h
    split_ifs at h with hchar
    · rw [if_neg fun hc ↦ hchar hc.2]
      obtain ⟨full, t, h1, h2⟩ := returns_bind.mp h
      obtain ⟨io, -, rfl⟩ := returns_onIo.mp h1
      split_ifs at h2 with hfull
      · obtain ⟨-, rfl⟩ := returns_pure.mp h2
        rfl
      · obtain ⟨o, t', h3, h4⟩ := returns_bind.mp h2
        obtain ⟨io', -, rfl⟩ := returns_onIo.mp h3
        obtain ⟨-, rfl⟩ := returns_pure.mp h4
        rfl
    · rw [if_pos ⟨hlegal, not_not.mp hchar⟩, returns_modify.mp h]
      rfl
  · rw [if_neg hlegal] at h
    rw [if_neg fun hc ↦ hlegal hc.1]
    obtain ⟨-, rfl⟩ := returns_pure.mp h
    rfl

theorem returns_wakeupIf_of_none {w : Waiter} {io : IoState} (h : io.ioq.waiter w = none) :
    Returns (wakeupIf w) io PUnit.unit io := by
  rw [wakeupIf, returns_get_bind, if_neg (not_not.mpr h)]
  exact returns_pure.mpr ⟨rfl, rfl⟩

/-- A character is stored without waking anybody. -/
theorem exists_returns_putchar (c : UInt8) {io : IoState} (hintr : io.threads.intr = false)
    (hfull : ¬io.ioq.Full) (hhead : io.ioq.head < bufsize)
    (hwaiter : io.ioq.waiter .consumer = none) :
    ∃ o io', Returns (IoOp.putchar c).call io o io' := by
  let io₁ := io.setIoq { io.ioq with buf := Function.update io.ioq.buf io.ioq.head c }
  refine ⟨.stored c, io₁.setIoq { io₁.ioq with head := nextPos io₁.ioq.head }, ?_⟩
  rw [IoOp.call, assertIntrOff, bind_assoc, returns_get_bind, returns_check_bind]
  refine ⟨hintr, ?_⟩
  rw [IoOp.loop, putcharLoop, (returns_ioqFull.mpr ⟨hintr, rfl, rfl⟩).bind_iff,
    if_neg (by simpa using hfull), storeChar, returns_get_bind, returns_check_bind]
  refine ⟨hhead, ?_⟩
  rw [returns_modify_bind, returns_modify_bind,
    (returns_wakeupIf_of_none (by exact hwaiter)).bind_iff]
  exact returns_pure.mpr ⟨rfl, rfl⟩

/-- With room in the queue and nobody waiting for it, the handler returns. -/
theorem exists_returns_handler (byte : UInt8) (k : Kbd) {io : IoState}
    (hintr : io.threads.intr = false) (hfull : ¬io.ioq.Full) (hhead : io.ioq.head < bufsize)
    (hwaiter : io.ioq.waiter .consumer = none) :
    ∃ s', Returns (intrKeyboardHandler byte) ⟨k, io⟩ PUnit.unit s' := by
  rw [intrKeyboardHandler]
  simp only [returns_get_bind]
  split_ifs with h1 h2 h3 h4
  · exact ⟨_, returns_modify.mpr rfl⟩
  · simp only [returns_modify_bind]
    exact ⟨_, returns_modify.mpr rfl⟩
  · simp only [returns_modify_bind]
    have hread : Returns (onIo ioqFull) (KbdState.setKbd ⟨k, io⟩ { k with extScancode := false })
        (decide io.ioq.Full) (KbdState.setKbd ⟨k, io⟩ { k with extScancode := false }) :=
      returns_onIo.mpr ⟨io, returns_ioqFull.mpr ⟨hintr, rfl, rfl⟩, rfl⟩
    simp only [hread.bind_iff]
    obtain ⟨o, io', hput⟩ := exists_returns_putchar
      (curChar k.ctrlStatus (Kbd.shift { k with extScancode := false } (k.scancode byte))
        (k.scancode byte &&& 0x00ff)) hintr hfull hhead hwaiter
    rw [if_neg (by simpa using hfull)]
    refine ⟨⟨{ k with extScancode := false }, io'⟩, returns_bind.mpr ⟨o, _, returns_onIo.mpr
      ⟨io', hput, rfl⟩, returns_pure.mpr ⟨rfl, rfl⟩⟩⟩
  · simp only [returns_modify_bind]
    exact ⟨_, returns_modify.mpr rfl⟩
  · simp only [returns_modify_bind]
    exact ⟨_, returns_pure.mpr ⟨rfl, rfl⟩⟩

/-- Interrupts one after the other, with anything happening to the queue in between. -/
inductive Interrupts : Kbd → List UInt8 → Kbd → Prop
  | nil (k : Kbd) : Interrupts k [] k
  | cons {k k₁ k₂ : Kbd} {byte : UInt8} {bytes : List UInt8} {io io' : IoState}
      (hret : Returns (intrKeyboardHandler byte) ⟨k, io⟩ PUnit.unit ⟨k₁, io'⟩)
      (hrest : Interrupts k₁ bytes k₂) : Interrupts k (byte :: bytes) k₂

/-- The flags are a function of the bytes. -/
theorem Interrupts.eq {k k' : Kbd} {bytes : List UInt8} (h : Interrupts k bytes k') :
    k' = bytes.foldl Kbd.next k := by
  induction h with
  | nil => rfl
  | cons hret _ ih =>
    have hnext := kbd_of_returns hret
    dsimp only at hnext
    rw [ih, List.foldl_cons, hnext]

/-- An empty queue that nobody waits for, with interrupts off. -/
def idleIo : IoState where
  threads :=
    { task := fun _ ↦ ⟨.running, 0, 0, 0, none, 0⟩, tags := ⟨fun _ ↦ .null, fun _ ↦ .null⟩,
      lock := fun _ ↦ ⟨none, 1, 0⟩, running := 0, mainThread := none, idleThread := 0, intr := false,
      resumes := fun _ ↦ false, cr3 := none, created := 0 }
  ioq := ⟨0, fun _ ↦ none, fun _ ↦ 0, 0, 0⟩

/-- All bytes can come. -/
theorem exists_interrupts (k : Kbd) (bytes : List UInt8) :
    Interrupts k bytes (bytes.foldl Kbd.next k) := by
  induction bytes generalizing k with
  | nil => exact .nil k
  | cons byte bytes ih =>
    obtain ⟨s', hret⟩ :=
      @exists_returns_handler byte k idleIo rfl (by decide) (by decide) rfl
    have hnext := kbd_of_returns hret
    rw [List.foldl_cons]
    have hstep :
        Returns (intrKeyboardHandler byte) ⟨k, idleIo⟩ PUnit.unit ⟨k.next byte, s'.io⟩ := by
      rwa [← hnext]
    exact .cons hstep (ih _)

/-! ## Keys -/

/-- A key: its make code, and whether the prefix comes before it. No key has the code whose break
code would be the prefix. -/
structure Key where
  ext : Bool
  code : UInt8
  lt : code < 0x80
  ne : code ≠ 0x60
  deriving DecidableEq

/-- The kinds of keys that have a left and a right one. -/
inductive Modifier
  | ctrl
  | shift
  | alt
  deriving DecidableEq, Repr

/-- Which modifier a key is. -/
def Key.modifier (key : Key) : Option Modifier :=
  if key.code = 0x1d then some .ctrl
  else if key.code = 0x38 then some .alt
  else if key.ext = false ∧ (key.code = 0x2a ∨ key.code = 0x36) then some .shift
  else none

/-- The caps-lock key. -/
abbrev Key.IsCapsLock (key : Key) : Prop := key.ext = false ∧ key.code = 0x3a

/-- A key goes down or up. -/
structure KeyEvent where
  key : Key
  down : Bool
  deriving DecidableEq

/-- The complete code of an event: the prefix, if the key has it, and the make or break code. -/
def KeyEvent.codes (e : KeyEvent) : List UInt8 :=
  (if e.key.ext then [0xe0] else []) ++ [if e.down then e.key.code else e.key.code ||| 0x80]

/-- The bytes that events produce. -/
def codes (es : List KeyEvent) : List UInt8 := es.flatMap KeyEvent.codes

/-- Which keys are held after some events. -/
def held (es : List KeyEvent) : Key → Bool :=
  es.foldl (fun H e ↦ Function.update H e.key e.down) fun _ ↦ false

/-- How often caps lock was pressed. -/
def capsLockPresses (es : List KeyEvent) : ℕ :=
  es.countP fun e ↦ e.down && decide e.key.IsCapsLock

/-- The flag of a modifier. -/
def Kbd.status (k : Kbd) : Modifier → Bool
  | .ctrl => k.ctrlStatus
  | .shift => k.shiftStatus
  | .alt => k.altStatus

/-- Set or clear the flag of a modifier. -/
def Kbd.setStatus (k : Kbd) (b : Bool) : Modifier → Kbd
  | .ctrl => { k with ctrlStatus := b }
  | .shift => { k with shiftStatus := b }
  | .alt => { k with altStatus := b }

/-- The flags say which modifiers are held and whether caps lock is on. -/
structure FlagsOk (H : Key → Bool) (presses : ℕ) (k : Kbd) : Prop where
  status : ∀ m, k.status m = true ↔ ∃ key : Key, key.modifier = some m ∧ H key = true
  capsLock : k.capsLockStatus = decide (presses % 2 = 1)

/-- After every complete code the flags are right. -/
def Tracks (es : List KeyEvent) : Prop :=
  ∀ pre post, es = pre ++ post → ∀ k, Interrupts .boot (codes pre) k →
    FlagsOk (held pre) (capsLockPresses pre) k

/-- When a modifier key goes up, no other key of its kind is held. -/
def ReleasedAlone (es : List KeyEvent) : Prop :=
  ∀ pre e post, es = pre ++ e :: post → e.down = false → ∀ m, e.key.modifier = some m →
    ∀ key : Key, key.modifier = some m → key ≠ e.key → held pre key = false

/-! ## What an event does to the flags -/

/-- The scan code of a key. -/
def Key.scancode (key : Key) : ℕ := if key.ext then 0xe000 + key.code.toNat else key.code.toNat

/-- The status variables behind the complete code of an event. -/
def Kbd.after (k : Kbd) (e : KeyEvent) : Kbd :=
  match e.key.modifier with
  | some m => k.setStatus e.down m
  | none =>
    if e.down = true ∧ e.key.IsCapsLock then { k with capsLockStatus := !k.capsLockStatus } else k

theorem Key.toNat_lt (key : Key) : key.code.toNat < 128 := UInt8.lt_iff_toNat_lt.mp key.lt

theorem or_prefix {n : ℕ} (h : n < 256) : 0xe000 ||| n = 0xe000 + n :=
  (Nat.shiftLeft_add_eq_or_of_lt (i := 13) (by omega) 7).symm

theorem and_break : ∀ n < 128, n &&& 0x0080 = 0 ∧ (n ||| 0x80) &&& 0x0080 ≠ 0 ∧
    (n ||| 0x80) &&& 0xff7f = n ∧ (n ||| 0x80) < 256 ∧ (0xe000 + n) &&& 0x0080 = 0 ∧
      (0xe000 + (n ||| 0x80)) &&& 0x0080 ≠ 0 ∧
      (0xe000 + (n ||| 0x80)) &&& 0xff7f = 0xe000 + n := by
  decide

/-- The keys without a character. -/
theorem curChar_control (ctrl shift : Bool) {scancode : ℕ}
    (h : scancode = 0x1d ∨ scancode = 0xe01d ∨ scancode = 0x2a ∨ scancode = 0x36 ∨
      scancode = 0x38 ∨ scancode = 0xe038 ∨ scancode = 0x3a) :
    Legal scancode ∧ curChar ctrl shift (scancode &&& 0x00ff) = 0 := by
  rcases h with rfl | rfl | rfl | rfl | rfl | rfl | rfl <;> revert ctrl shift <;> decide

/-- The flags change only for keys without a character. -/
theorem next_make (k : Kbd) (scancode : ℕ) :
    (if Legal scancode ∧ curChar k.ctrlStatus (k.shift scancode) (scancode &&& 0x00ff) = 0 then
      k.makeKey scancode else k) = k.makeKey scancode := by
  split_ifs with h
  · rfl
  · rw [Kbd.makeKey]
    have hcontrol := mt (curChar_control k.ctrlStatus (k.shift scancode)) h
    simp only [not_or] at hcontrol
    obtain ⟨h1, h2, h3, h4, h5, h6, h7⟩ := hcontrol
    rw [if_neg (not_or.mpr ⟨h1, h2⟩), if_neg (not_or.mpr ⟨h3, h4⟩), if_neg (not_or.mpr ⟨h5, h6⟩),
      if_neg h7]

/-- Keys that are neither modifiers nor caps lock. -/
theorem other_key {key : Key} (h1 : key.code ≠ 0x1d) (h2 : key.code ≠ 0x38)
    (h3 : key.code ≠ 0x2a) (h4 : key.code ≠ 0x36) (h5 : key.code ≠ 0x3a) (k : Kbd) (b : Bool) :
    k.makeKey key.scancode = k ∧ k.breakKey key.scancode = k ∧ k.after ⟨key, b⟩ = k := by
  have hlt := key.toNat_lt
  have hne : ∀ {n : UInt8}, key.code ≠ n → key.code.toNat ≠ n.toNat := fun h hn ↦
    h (UInt8.toNat_inj.mp hn)
  have g1 := hne h1
  have g2 := hne h2
  have g3 := hne h3
  have g4 := hne h4
  have g5 := hne h5
  simp only [UInt8.reduceToNat] at g1 g2 g3 g4 g5
  have hcode : key.scancode ≠ 0x1d ∧ key.scancode ≠ 0xe01d ∧ key.scancode ≠ 0x2a ∧
      key.scancode ≠ 0x36 ∧ key.scancode ≠ 0x38 ∧ key.scancode ≠ 0xe038 ∧ key.scancode ≠ 0x3a := by
    rw [Key.scancode]
    split_ifs <;> omega
  obtain ⟨e1, e2, e3, e4, e5, e6, e7⟩ := hcode
  refine ⟨?_, ?_, ?_⟩
  · rw [Kbd.makeKey, if_neg (not_or.mpr ⟨e1, e2⟩), if_neg (not_or.mpr ⟨e3, e4⟩),
      if_neg (not_or.mpr ⟨e5, e6⟩), if_neg e7]
  · rw [Kbd.breakKey, if_neg (not_or.mpr ⟨e1, e2⟩), if_neg (not_or.mpr ⟨e3, e4⟩),
      if_neg (not_or.mpr ⟨e5, e6⟩)]
  · have hnone : key.modifier = none := by
      rw [Key.modifier, if_neg h1, if_neg h2, if_neg fun h ↦ h.2.elim h3 h4]
    rw [Kbd.after]
    dsimp only
    rw [hnone]
    exact if_neg fun h ↦ h5 h.2.2

/-- The two branches, by the kind of key. -/
theorem branch_scancode (k : Kbd) (key : Key) :
    k.makeKey key.scancode = k.after ⟨key, true⟩ ∧
      k.breakKey key.scancode = k.after ⟨key, false⟩ := by
  obtain ⟨ext, code, hlt, hne⟩ := key
  by_cases h1 : code = 0x1d
  · subst h1
    cases ext <;> exact ⟨rfl, rfl⟩
  by_cases h2 : code = 0x38
  · subst h2
    cases ext <;> exact ⟨rfl, rfl⟩
  by_cases h3 : code = 0x2a
  · subst h3
    cases ext <;> exact ⟨rfl, rfl⟩
  by_cases h4 : code = 0x36
  · subst h4
    cases ext <;> exact ⟨rfl, rfl⟩
  by_cases h5 : code = 0x3a
  · subst h5
    cases ext <;> exact ⟨rfl, rfl⟩
  · let key : Key := ⟨ext, code, hlt, hne⟩
    obtain ⟨hmake, -, hdown⟩ := other_key (show key.code ≠ _ from h1) h2 h3 h4 h5 k true
    obtain ⟨-, hbreak, hup⟩ := other_key (show key.code ≠ _ from h1) h2 h3 h4 h5 k false
    exact ⟨hmake.trans hdown.symm, hbreak.trans hup.symm⟩

/-- The status variables behind a byte that completes a code. -/
theorem next_of_scancode {k : Kbd} {byte : UInt8} (hext : byte ≠ 0xe0) {n : ℕ}
    (hn : k.scancode byte = n) :
    k.next byte =
      if n &&& 0x0080 ≠ 0 then
        ({ k with extScancode := false } : Kbd).breakKey (n &&& 0xff7f)
      else ({ k with extScancode := false } : Kbd).makeKey n := by
  rw [Kbd.next, if_neg hext]
  dsimp only
  rw [hn]
  by_cases h : n &&& 0x0080 ≠ 0
  · rw [if_pos h, if_pos h]
  · rw [if_neg h, if_neg h]
    exact next_make { k with extScancode := false } n

theorem toNat_break {code : UInt8} : (code ||| 0x80).toNat = code.toNat ||| 0x80 :=
  UInt8.toNat_or ..

/-- The byte that completes a code is not the prefix. -/
theorem Key.byte_ne_prefix (key : Key) (down : Bool) :
    (if down then key.code else key.code ||| 0x80) ≠ 0xe0 := by
  intro h
  have hlt := key.toNat_lt
  have hnat := congrArg UInt8.toNat h
  cases down with
  | true =>
    have hnat' : key.code.toNat = 224 := hnat
    omega
  | false =>
    have hnat' : key.code.toNat ||| 0x80 = 224 := toNat_break.symm.trans hnat
    have hbreak := (and_break _ hlt).2.2.1
    rw [hnat'] at hbreak
    exact key.ne (UInt8.toNat_inj.mp hbreak.symm)

/-- The byte that completes a code has the effect of the event. -/
theorem next_byte (key : Key) (down : Bool) (k : Kbd) (hk : k.extScancode = key.ext) :
    k.next (if down then key.code else key.code ||| 0x80) =
      ({ k with extScancode := false } : Kbd).after ⟨key, down⟩ := by
  have hlt := key.toNat_lt
  obtain ⟨a1, a2, a3, a4, a5, a6, a7⟩ := and_break _ hlt
  obtain ⟨hmake, hbreak⟩ := branch_scancode { k with extScancode := false } key
  have hne := key.byte_ne_prefix down
  cases down with
  | true =>
    have hcode : k.scancode key.code = key.scancode := by
      rw [Kbd.scancode, Key.scancode, hk, or_prefix (by omega)]
    have hand : ¬key.scancode &&& 0x0080 ≠ 0 := by
      rw [not_not, Key.scancode]
      split_ifs
      · exact a5
      · exact a1
    exact (next_of_scancode hne hcode).trans ((if_neg hand).trans hmake)
  | false =>
    let broken := key.code.toNat ||| 0x80
    have hcode : k.scancode (key.code ||| 0x80) = if key.ext then 0xe000 + broken else broken := by
      rw [Kbd.scancode, hk, toNat_break, or_prefix a4]
    have hand : (if key.ext then 0xe000 + broken else broken) &&& 0x0080 ≠ 0 := by
      split_ifs
      · exact a6
      · exact a2
    have hmask : (if key.ext then 0xe000 + broken else broken) &&& 0xff7f = key.scancode := by
      rw [Key.scancode]
      split_ifs
      · exact a7
      · exact a3
    refine (next_of_scancode hne hcode).trans ((if_pos hand).trans ?_)
    rw [hmask]
    exact hbreak

theorem after_extScancode (k : Kbd) (e : KeyEvent) : (k.after e).extScancode = k.extScancode := by
  rw [Kbd.after]
  split
  · rename_i m _
    cases m <;> rfl
  · split_ifs <;> rfl

/-- Interrupts for a complete code have the effect of the event. -/
theorem foldl_next_codes {k : Kbd} (hext : k.extScancode = false) (e : KeyEvent) :
    e.codes.foldl Kbd.next k = k.after e := by
  obtain ⟨key, down⟩ := e
  have hk : ({ k with extScancode := false } : Kbd) = k := by rw [← hext]
  rw [KeyEvent.codes]
  dsimp only
  by_cases hkey : key.ext = true
  · rw [if_pos hkey, List.foldl_append, List.foldl_cons, List.foldl_nil, List.foldl_cons,
      List.foldl_nil]
    have hfirst : k.next 0xe0 = { k with extScancode := true } := rfl
    rw [hfirst, next_byte key down _ hkey.symm]
    dsimp only
    rw [hk]
  · have hkey' : key.ext = false := by simpa using hkey
    rw [if_neg hkey, List.nil_append, List.foldl_cons, List.foldl_nil,
      next_byte key down _ (hext.trans hkey'.symm), hk]

/-- The flags after the codes of some events. -/
theorem foldl_next_flatMap {k : Kbd} (hext : k.extScancode = false) (es : List KeyEvent) :
    (codes es).foldl Kbd.next k = es.foldl Kbd.after k := by
  induction es generalizing k with
  | nil => rfl
  | cons e es ih =>
    rw [codes, List.flatMap_cons, List.foldl_append, foldl_next_codes hext, List.foldl_cons]
    exact ih ((after_extScancode k e).trans hext)

theorem interrupts_codes_iff {es : List KeyEvent} {k : Kbd} :
    Interrupts .boot (codes es) k ↔ k = es.foldl Kbd.after .boot := by
  rw [← foldl_next_flatMap rfl]
  constructor
  · exact Interrupts.eq
  · rintro rfl
    exact exists_interrupts _ _

/-! ## The flags -/

section Flags

variable {H : Key → Bool} {n : ℕ} {k : Kbd} {e : KeyEvent}

theorem status_setStatus (k : Kbd) (b : Bool) (m m' : Modifier) :
    (k.setStatus b m).status m' = if m' = m then b else k.status m' := by
  cases m <;> cases m' <;> rfl

theorem capsLockStatus_setStatus (k : Kbd) (b : Bool) (m : Modifier) :
    (k.setStatus b m).capsLockStatus = k.capsLockStatus := by
  cases m <;> rfl

/-- Only the flag of its own kind changes with a key. -/
theorem status_after (k : Kbd) (e : KeyEvent) (m : Modifier) :
    (k.after e).status m = if e.key.modifier = some m then e.down else k.status m := by
  rw [Kbd.after]
  cases hm : e.key.modifier with
  | none =>
    have hnone : ¬(none : Option Modifier) = some m := by simp
    dsimp only
    by_cases hcaps : e.down = true ∧ e.key.IsCapsLock
    · rw [if_pos hcaps, if_neg hnone]
      cases m <;> rfl
    · rw [if_neg hcaps, if_neg hnone]
  | some m' =>
    dsimp only
    rw [status_setStatus]
    by_cases h : m = m'
    · rw [if_pos h, if_pos (by rw [h])]
    · rw [if_neg h, if_neg (by simpa using Ne.symm h)]

theorem capsLockStatus_after (k : Kbd) (e : KeyEvent) :
    (k.after e).capsLockStatus =
      if e.down = true ∧ e.key.IsCapsLock then !k.capsLockStatus else k.capsLockStatus := by
  rw [Kbd.after]
  cases hm : e.key.modifier with
  | none =>
    dsimp only
    split_ifs <;> rfl
  | some m =>
    have hnot : ¬(e.down = true ∧ e.key.IsCapsLock) := by
      rintro ⟨-, -, hcode⟩
      rw [Key.modifier, hcode] at hm
      simp at hm
    dsimp only
    rw [if_neg hnot, capsLockStatus_setStatus]

/-- What an event does to the number of caps-lock presses. -/
theorem capsLockPresses_append (es : List KeyEvent) (e : KeyEvent) :
    capsLockPresses (es ++ [e]) =
      capsLockPresses es + if e.down = true ∧ e.key.IsCapsLock then 1 else 0 := by
  rw [capsLockPresses, List.countP_append, List.countP_singleton, capsLockPresses]
  congr 1
  simp

theorem held_append (es : List KeyEvent) (e : KeyEvent) :
    held (es ++ [e]) = Function.update (held es) e.key e.down := by
  rw [held, List.foldl_append, List.foldl_cons, List.foldl_nil, held]

/-- The event leaves no other key of its kind held with the flag cleared. -/
def EventAlone (H : Key → Bool) (e : KeyEvent) : Prop :=
  e.down = false → ∀ m, e.key.modifier = some m →
    ∀ key : Key, key.modifier = some m → key ≠ e.key → H key = false

/-- Right flags stay right exactly when the event leaves no other key of its kind held. -/
theorem FlagsOk.after_iff (h : FlagsOk H n k) :
    FlagsOk (Function.update H e.key e.down)
        (n + if e.down = true ∧ e.key.IsCapsLock then 1 else 0) (k.after e) ↔ EventAlone H e := by
  constructor
  · intro hafter hdown m hm key hkey hne
    by_contra hheld
    have hstatus := (hafter.status m).mpr ⟨key, hkey, by
      rw [Function.update_of_ne hne]
      simpa using hheld⟩
    rw [status_after, if_pos hm, hdown] at hstatus
    cases hstatus
  · intro halone
    refine ⟨fun m ↦ ?_, ?_⟩
    · rw [status_after]
      by_cases hm : e.key.modifier = some m
      · rw [if_pos hm]
        cases hdown : e.down with
        | true => exact iff_of_true rfl ⟨e.key, hm, Function.update_self ..⟩
        | false =>
          refine iff_of_false (by simp) ?_
          rintro ⟨key, hkey, hheld⟩
          by_cases hne : key = e.key
          · rw [hne, Function.update_self] at hheld
            cases hheld
          · rw [Function.update_of_ne hne, halone hdown m hm key hkey hne] at hheld
            cases hheld
      · rw [if_neg hm, h.status m]
        have hsame : ∀ key : Key, key.modifier = some m →
            Function.update H e.key e.down key = H key := fun key hkey ↦
          Function.update_of_ne (fun heq : key = e.key ↦ hm (heq ▸ hkey)) _ _
        constructor
        · rintro ⟨key, hkey, hheld⟩
          exact ⟨key, hkey, (hsame key hkey).trans hheld⟩
        · rintro ⟨key, hkey, hheld⟩
          exact ⟨key, hkey, (hsame key hkey).symm.trans hheld⟩
    · rw [capsLockStatus_after, h.capsLock]
      split_ifs
      · rw [← decide_not]
        congr 1
        rw [eq_iff_iff]
        omega
      · rfl

theorem flagsOk_boot : FlagsOk (held []) (capsLockPresses []) .boot := by
  refine ⟨fun m ↦ iff_of_false ?_ ?_, rfl⟩
  · cases m <;> simp [Kbd.status, Kbd.boot]
  · rintro ⟨key, -, hheld⟩
    cases hheld

/-- The flags after some events. -/
theorem flagsOk_of_alone {es : List KeyEvent}
    (h : ∀ pre e post, es = pre ++ e :: post → EventAlone (held pre) e) :
    FlagsOk (held es) (capsLockPresses es) (es.foldl Kbd.after .boot) := by
  induction es using List.reverseRecOn with
  | nil => exact flagsOk_boot
  | append_singleton es e ih =>
    have hes := ih fun pre e' post hsplit ↦
      h pre e' (post ++ [e]) (by rw [hsplit, List.append_assoc, List.cons_append])
    rw [held_append, capsLockPresses_append, List.foldl_append, List.foldl_cons, List.foldl_nil]
    exact hes.after_iff.mpr (h es e [] rfl)

/-- **The flags are right** after every complete code exactly when no modifier key is released while
the other one of its kind is held. -/
theorem tracks_iff {es : List KeyEvent} : Tracks es ↔ ReleasedAlone es := by
  constructor
  · intro h pre e post hsplit
    have hpre := h pre (e :: post) hsplit _ (interrupts_codes_iff.mpr rfl)
    have hnext := h (pre ++ [e]) post (by rw [hsplit, List.append_assoc, List.singleton_append]) _
      (interrupts_codes_iff.mpr rfl)
    rw [held_append, capsLockPresses_append, List.foldl_append, List.foldl_cons,
      List.foldl_nil] at hnext
    exact hpre.after_iff.mp hnext
  · intro h pre post hsplit k hk
    rw [interrupts_codes_iff.mp hk]
    refine flagsOk_of_alone fun pre' e post' hsplit' ↦ h pre' e (post' ++ post) ?_
    rw [hsplit, hsplit', List.append_assoc, List.cons_append]

end Flags

/-- The left and the right shift key. -/
def shiftL : Key := ⟨false, 0x2a, by decide, by decide⟩

@[inherit_doc shiftL] def shiftR : Key := ⟨false, 0x36, by decide, by decide⟩

/-- Both shift keys go down, and the right one goes up. -/
theorem not_tracks : ¬Tracks [⟨shiftL, true⟩, ⟨shiftR, true⟩, ⟨shiftR, false⟩] := by
  intro h
  have hflags := h _ [] (List.append_nil _).symm _ (interrupts_codes_iff.mpr rfl)
  have hshift := (hflags.status .shift).mpr ⟨shiftL, rfl, by decide⟩
  revert hshift
  decide

end GlowOS.Keyboard
