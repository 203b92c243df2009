import Mathlib
import GlowOS.Kernel.Entry

/-!
# Switching threads

`switch_to` over whole runs. A thread that waits for the processor has its stack pointer in the first
word of its page, and there the four registers that `switch_to` pushes. Between two switches the running
thread does anything that leaves the stacks of the waiting threads alone; it may create threads, whose
first stack `thread_create` builds so that `switch_to` enters `kernel_thread`.
-/

namespace GlowOS.Switch

open Bytes

/-! ## The code -/

/-- `thread_create`. The stack pointer is a pointer to words, so the two sizes count four times. -/
def threadCreate (kernelThread : BitVec 32) (f : Image) (pthread : ℕ)
    (function funcArg : BitVec 32) : Image :=
  let kstack := BitVec.ofNat 32 (le32 f pthread) - 4 * 76 - 4 * 32
  let f := setWord f pthread kstack.toNat
  let k := kstack.toNat
  let f := setWord f (k + 16) kernelThread.toNat
  let f := setWord f (k + 24) function.toNat
  let f := setWord f (k + 28) funcArg.toNat
  -- `edi` is not assigned, `ebx` twice
  let f := setWord f (k + 12) 0
  let f := setWord f (k + 4) 0
  let f := setWord f (k + 4) 0
  setWord f k 0

/-! ## The system -/

/-- The page of a thread. -/
structure IsPage (t : ℕ) : Prop where
  aligned : t % 4096 = 0
  fits : t + 4096 ≤ 2 ^ 32

/-- The processor, the running thread, and what the waiting threads had at the first instruction of
`switch_to`. -/
structure Sys where
  core : Core
  cur : ℕ
  waiting : ℕ → Option Core

/-- What a new thread has, as if it had called `switch_to` from the first instruction of
`kernel_thread`. -/
def newborn (f : Image) (t : ℕ) (c : Core) : Core :=
  { c with
    ebp := 0
    ebx := 0
    esi := 0
    edi := BitVec.ofNat 32 (le32 f (t + 3672))
    esp := BitVec.ofNat 32 (t + 3680)
    mem := f }

/-- What stands on the stack of a waiting thread, and the pointer to it, are the same. -/
structure Spared (t : ℕ) (x : Core) (f g : Image) : Prop where
  kstack : Agree f g t 4
  stack : Agree f g (x.esp.toNat - 16) (t + 4096 - (x.esp.toNat - 16))

/-- The running thread calls `switch_to` with enough room on its stack. -/
structure Switches (s : Sys) (next : ℕ) (s' : Sys) : Prop where
  call : ∃ a back, s.core.OnStack (a + 16) [back, BitVec.ofNat 32 s.cur, BitVec.ofNat 32 next] ∧
    s.cur + 4 ≤ a ∧ a + 28 ≤ s.cur + 4096
  waits : (s.waiting next).isSome = true
  result : s' =
    { core := s.core.switchTo
      cur := next
      waiting := Function.update (Function.update s.waiting s.cur (some s.core)) next none }

/-- The running thread creates a thread in a page that `init_thread` has prepared. -/
structure Creates (kernelThread : BitVec 32) (s : Sys) (t : ℕ) (function funcArg : BitVec 32)
    (s' : Sys) : Prop where
  page : IsPage t
  new : t ≠ s.cur ∧ s.waiting t = none
  kstack : le32 s.core.mem t = t + 4096
  result : s' =
    { s with
      core := { s.core with mem := threadCreate kernelThread s.core.mem t function funcArg }
      waiting := Function.update s.waiting t
        (some (newborn (threadCreate kernelThread s.core.mem t function funcArg) t s.core)) }

/-- One step. -/
inductive Step (kernelThread : BitVec 32) : Sys → Sys → Prop
  | code {s : Sys} (c : Core) (h : ∀ t x, s.waiting t = some x → Spared t x s.core.mem c.mem) :
      Step kernelThread s { s with core := c }
  | create {s s' : Sys} {t : ℕ} {function funcArg : BitVec 32}
      (h : Creates kernelThread s t function funcArg s') : Step kernelThread s s'
  | switch {s s' : Sys} {next : ℕ} (h : Switches s next s') : Step kernelThread s s'

/-- Before any thread waits. -/
structure Init (s : Sys) : Prop where
  page : IsPage s.cur
  waiting : ∀ t, s.waiting t = none

/-! ## One switch -/

/-- The stack of the waiting thread `t` is as it was in `x`, with the registers below. -/
structure Kept (t : ℕ) (x : Core) (f : Image) : Prop where
  room : t + 20 ≤ x.esp.toNat ∧ x.esp.toNat + 4 ≤ t + 4096
  kstack : le32 f t = x.esp.toNat - 16
  words : WordsAt f (x.esp.toNat - 16) [x.ebp, x.ebx, x.edi, x.esi, x.word x.esp]
  stack : Agree x.mem f x.esp.toNat (t + 4096 - x.esp.toNat)

/-- The thread `t` goes on in `c` where it called `switch_to` in `x`. -/
structure Resumed (t : ℕ) (x c : Core) : Prop where
  eip : c.eip = x.word x.esp
  esp : c.esp = x.esp + 4
  ebp : c.ebp = x.ebp
  ebx : c.ebx = x.ebx
  esi : c.esi = x.esi
  edi : c.edi = x.edi
  stack : Agree x.mem c.mem x.esp.toNat (t + 4096 - x.esp.toNat)

section Switch

variable {a t cur next : ℕ} {back : BitVec 32} {c x : Core} {f g : Image}

theorem Kept.spared (h : Kept t x f) (hs : Spared t x f g) : Kept t x g where
  room := h.room
  kstack := (hs.kstack.le32 le_rfl le_rfl).trans h.kstack
  words := by
    have hroom := h.room
    refine h.words.agree (hs.stack.sub le_rfl ?_)
    change x.esp.toNat - 16 + 20 ≤ _
    omega
  stack := by
    have hroom := h.room
    exact h.stack.trans (hs.stack.sub (by omega) (by omega))

/-- Memory outside of a page is spared if the thread has another one. -/
theorem Kept.agree (h : Kept t x f) (ht : IsPage t) (hcur : IsPage cur) (hne : t ≠ cur)
    (hfg : ∀ o n, o + n ≤ cur ∨ cur + 4096 ≤ o → Agree f g o n) : Kept t x g := by
  have hroom := h.room
  have h1 := ht.aligned
  have h2 := hcur.aligned
  exact h.spared ⟨hfg _ _ (by omega), hfg _ _ (by omega)⟩

/-- The first half of `switch_to` leaves the stack pointer in the page. -/
theorem leave_kstack {cur next : BitVec 32} (h : c.OnStack (a + 16) [back, cur, next])
    (hlt : a + 28 ≤ 2 ^ 32) : le32 c.leave.mem cur.toNat = a := by
  have h4 := (((h.push c.esi).push c.edi).push c.ebx).push c.ebp
  have hword := h4.word (i := 5) rfl (by omega)
  have hmem : c.leave.mem = setWord ((((c.push c.esi).push c.edi).push c.ebx).push c.ebp).mem
      cur.toNat ((((c.push c.esi).push c.edi).push c.ebx).push c.ebp).esp.toNat := by
    rw [← hword]
    rfl
  rw [hmem, le32_setWord (BitVec.isLt _), h4.1]

/-- The second half writes nothing. -/
theorem switchTo_mem (c : Core) : c.switchTo.mem = c.leave.mem := rfl

/-- The registers that the second half of `switch_to` takes from the stack at `k`. -/
theorem switchTo_regs {k : BitVec 32} (hk : c.leave.word (c.leave.word (c.leave.esp + 24)) = k) :
    c.switchTo.eip = c.leave.word (k + 16#32) ∧ c.switchTo.esp = k + 16#32 + 4#32 ∧
      c.switchTo.ebp = c.leave.word (k + 0#32) ∧ c.switchTo.ebx = c.leave.word (k + 4#32) ∧
        c.switchTo.esi = c.leave.word (k + 12#32) ∧ c.switchTo.edi = c.leave.word (k + 8#32) := by
  subst hk
  refine ⟨rfl, rfl, ?_, rfl, rfl, rfl⟩
  rw [BitVec.add_zero]
  rfl

/-- What a switch does: the one thread goes on, the other one is kept, and the page of the other one is
all that changes. -/
theorem switchTo_resumes (hcur : IsPage cur) (hnext : IsPage next) (hne : next ≠ cur)
    (h : c.OnStack (a + 16) [back, BitVec.ofNat 32 cur, BitVec.ofNat 32 next])
    (ha : cur + 4 ≤ a ∧ a + 28 ≤ cur + 4096) (hkept : Kept next x c.mem) :
    Resumed next x c.switchTo ∧ Kept cur c c.switchTo.mem ∧
      ∀ o n, o + n ≤ cur ∨ cur + 4096 ≤ o → Agree c.mem c.switchTo.mem o n := by
  have h1 := hcur.aligned
  have h2 := hcur.fits
  have h3 := hnext.aligned
  have h4 := hnext.fits
  have hcur' : (BitVec.ofNat 32 cur).toNat = cur := Nat.mod_eq_of_lt (by omega)
  have hnext' : (BitVec.ofNat 32 next).toNat = next := Nat.mod_eq_of_lt (by omega)
  obtain ⟨hleave, -, hagree⟩ := Core.leave_spec h (by rw [hcur']; omega) (by omega)
  rw [hcur'] at hagree
  have hout : ∀ o n, o + n ≤ cur ∨ cur + 4096 ≤ o → Agree c.mem c.leave.mem o n :=
    fun o n ho ↦ hagree o n (by omega) (by omega)
  have hkept' : Kept next x c.leave.mem := hkept.agree hnext hcur hne hout
  have hroom := hkept'.room
  have harg : c.leave.word (c.leave.esp + 24) = BitVec.ofNat 32 next := hleave.word (i := 6) rfl (by omega)
  have hesp : c.leave.word (c.leave.word (c.leave.esp + 24)) = BitVec.ofNat 32 (x.esp.toNat - 16) := by
    rw [harg, Core.word, hnext', hkept'.kstack]
  have hstack : ({ c.leave with esp := BitVec.ofNat 32 (x.esp.toNat - 16) } : Core).OnStack
      (x.esp.toNat - 16) [x.ebp, x.ebx, x.edi, x.esi, x.word x.esp] := by
    refine ⟨Nat.mod_eq_of_lt (by omega), hkept'.words⟩
  have hword : ∀ i w, [x.ebp, x.ebx, x.edi, x.esi, x.word x.esp][i]? = some w →
      c.leave.word (BitVec.ofNat 32 (x.esp.toNat - 16) + BitVec.ofNat 32 (4 * i)) = w := by
    intro i w hi
    have hi' : i < 5 := (List.getElem?_eq_some_iff.mp hi).1
    exact hstack.word hi (by omega)
  have hebp := hword 0 _ rfl
  have hebx := hword 1 _ rfl
  have hedi := hword 2 _ rfl
  have hesi := hword 3 _ rfl
  have heip := hword 4 _ rfl
  simp only [Nat.reduceMul] at hebp hebx hedi hesi heip
  have hk : BitVec.ofNat 32 (x.esp.toNat - 16) + 16#32 + 4#32 = x.esp + 4 := by
    apply BitVec.eq_of_toNat_eq
    have h16 : (16#32).toNat = 16 := rfl
    have h4' : (4 : BitVec 32).toNat = 4 := rfl
    have h4'' : (4#32).toNat = 4 := rfl
    rw [BitVec.toNat_add, BitVec.toNat_add, BitVec.toNat_add, BitVec.toNat_ofNat, h16, h4', h4'']
    omega
  obtain ⟨r1, r2, r3, r4, r5, r6⟩ := switchTo_regs hesp
  rw [switchTo_mem]
  refine ⟨⟨r1.trans heip, r2.trans hk, r3.trans hebp, r4.trans hebx, r5.trans hesi, r6.trans hedi,
    ?_⟩, ⟨?_, ?_, ?_, ?_⟩, hout⟩
  · rw [switchTo_mem]
    exact hkept'.stack
  · have := h.1
    omega
  · have hk := leave_kstack h (by omega)
    rw [hcur'] at hk
    rw [h.1, Nat.add_sub_cancel]
    exact hk
  · have hback : c.word c.esp = back := by
      have hw := h.word (i := 0) rfl (by omega)
      simpa using hw
    rw [h.1, Nat.add_sub_cancel, hback]
    exact ⟨hleave.2.1, hleave.2.2.1, hleave.2.2.2.1, hleave.2.2.2.2.1, hleave.2.2.2.2.2.1, trivial⟩
  · rw [h.1]
    exact hagree _ _ (by omega) (by omega)

end Switch

/-! ## Creating -/

section Create

variable {t : ℕ} {f : Image} {kernelThread function funcArg : BitVec 32}

theorem threadCreate_eq (hf : le32 f t = t + 4096) (ht : IsPage t) :
    threadCreate kernelThread f t function funcArg =
      setWord (setWord (setWord (setWord (setWord (setWord (setWord (setWord f t (t + 3664))
        (t + 3664 + 16) kernelThread.toNat) (t + 3664 + 24) function.toNat) (t + 3664 + 28)
          funcArg.toNat) (t + 3664 + 12) 0) (t + 3664 + 4) 0) (t + 3664 + 4) 0) (t + 3664) 0 := by
  have hfits := ht.fits
  have hk : (BitVec.ofNat 32 (le32 f t) - 4 * 76 - 4 * 32).toNat = t + 3664 := by
    have h1 : (4 * 76 : BitVec 32).toNat = 304 := rfl
    have h2 : (4 * 32 : BitVec 32).toNat = 128 := rfl
    rw [hf, BitVec.toNat_sub, BitVec.toNat_sub, BitVec.toNat_ofNat, h1, h2]
    omega
  simp only [threadCreate, hk]

/-- A new thread touches its own page only. -/
theorem differsIn_threadCreate (hf : le32 f t = t + 4096) (ht : IsPage t) :
    DiffersIn t (t + 4096) f (threadCreate kernelThread f t function funcArg) := by
  have hset : ∀ (g : Image) (o w : ℕ), t ≤ o → o + 4 ≤ t + 4096 → DiffersIn t (t + 4096) f g →
      DiffersIn t (t + 4096) f (setWord g o w) :=
    fun g o w h1 h2 h ↦ h.trans (.setWord h1 h2)
  rw [threadCreate_eq hf ht]
  iterate 8 refine hset _ _ _ (by omega) (by omega) ?_
  exact DiffersIn.refl t (t + 4096) f

/-- The first stack of a thread. -/
theorem threadCreate_words (kernelThread function funcArg : BitVec 32) (hf : le32 f t = t + 4096)
    (ht : IsPage t) :
    le32 (threadCreate kernelThread f t function funcArg) t = t + 3664 ∧
      WordsAt (threadCreate kernelThread f t function funcArg) (t + 3664) [0, 0,
        BitVec.ofNat 32 (le32 (threadCreate kernelThread f t function funcArg) (t + 3672)), 0,
        kernelThread] ∧
      WordsAt (threadCreate kernelThread f t function funcArg) (t + 3688) [function, funcArg] := by
  have hfits := ht.fits
  have hne : ∀ {g : Image} {o w p : ℕ}, p + 4 ≤ o ∨ o + 4 ≤ p → le32 (setWord g o w) p = le32 g p :=
    fun h ↦ le32_splice_of_disjoint h
  have hedi : ∀ g : Image, le32 g (t + 3672) = (BitVec.ofNat 32 (le32 g (t + 3672))).toNat :=
    fun g ↦ (Nat.mod_eq_of_lt (le32_lt g _)).symm
  have hlast := hedi (threadCreate kernelThread f t function funcArg)
  rw [threadCreate_eq hf ht] at hlast ⊢
  refine ⟨?_, ⟨?_, ?_, hlast, ?_, ?_, trivial⟩, ?_, ?_, trivial⟩
  · iterate 7 rw [hne (by omega)]
    exact le32_setWord (by omega)
  · exact le32_setWord (by decide)
  · rw [hne (by omega)]
    exact le32_setWord (by decide)
  · iterate 3 rw [hne (by omega)]
    exact le32_setWord (by decide)
  · iterate 6 rw [hne (by omega)]
    exact le32_setWord (BitVec.isLt _)
  · iterate 5 rw [hne (by omega)]
    exact le32_setWord (BitVec.isLt _)
  · iterate 4 rw [hne (by omega)]
    exact le32_setWord (BitVec.isLt _)

/-- A new thread waits as if it had called `switch_to`. -/
theorem kept_newborn (hf : le32 f t = t + 4096) (ht : IsPage t) (c : Core) :
    Kept t (newborn (threadCreate kernelThread f t function funcArg) t c)
      (threadCreate kernelThread f t function funcArg) := by
  have hfits := ht.fits
  obtain ⟨hk, hwords, -⟩ := threadCreate_words kernelThread function funcArg hf ht
  have hesp : (newborn (threadCreate kernelThread f t function funcArg) t c).esp.toNat = t + 3680 :=
    Nat.mod_eq_of_lt (by omega)
  have heip : (newborn (threadCreate kernelThread f t function funcArg) t c).word
      (newborn (threadCreate kernelThread f t function funcArg) t c).esp = kernelThread := by
    have hat := hwords.2.2.2.2.1
    rw [Core.word, hesp]
    exact (congrArg (BitVec.ofNat 32) hat).trans (by simp)
  refine ⟨by omega, by rw [hesp]; exact hk, ?_, fun _ _ ↦ rfl⟩
  rw [heip, hesp]
  exact hwords

end Create

/-! ## Runs -/

/-- Every waiting thread has a page of its own, and its stack is as it was. -/
structure Inv (s : Sys) : Prop where
  page : IsPage s.cur
  cur : s.waiting s.cur = none
  waiting : ∀ t x, s.waiting t = some x → IsPage t ∧ Kept t x s.core.mem

section Run

variable {kernelThread function funcArg : BitVec 32} {s₀ s s' s₁ s₂ s₃ : Sys} {t next : ℕ} {x : Core}

theorem Inv.ne (h : Inv s) (hx : s.waiting t = some x) : t ≠ s.cur := by
  rintro rfl
  rw [h.cur] at hx
  cases hx

/-- One switch. -/
theorem Inv.switched (h : Inv s) (hs : Switches s next s') : Inv s' ∧
    ∀ x, s.waiting next = some x → Resumed next x s'.core := by
  obtain ⟨⟨a, back, hcall, hroom⟩, hnext, rfl⟩ := hs
  obtain ⟨x, hx⟩ := Option.isSome_iff_exists.mp hnext
  obtain ⟨hpage, hkept⟩ := h.waiting next x hx
  have hne := h.ne hx
  obtain ⟨hres, hcur, hout⟩ := switchTo_resumes h.page hpage hne hcall hroom hkept
  refine ⟨⟨hpage, Function.update_self .., fun t y hy ↦ ?_⟩, fun y hy ↦ ?_⟩
  · dsimp only at hy
    by_cases htn : t = next
    · rw [htn, Function.update_self] at hy
      cases hy
    rw [Function.update_of_ne htn] at hy
    by_cases htc : t = s.cur
    · rw [htc, Function.update_self] at hy
      cases hy
      subst htc
      exact ⟨h.page, hcur⟩
    · rw [Function.update_of_ne htc] at hy
      obtain ⟨hp, hk⟩ := h.waiting t y hy
      exact ⟨hp, hk.agree hp h.page htc hout⟩
  · rw [hx] at hy
    cases hy
    exact hres

theorem Inv.create (h : Inv s) (hs : Creates kernelThread s t function funcArg s') : Inv s' := by
  obtain ⟨hpage, ⟨hcur, hnone⟩, hk, rfl⟩ := hs
  refine ⟨h.page, (Function.update_of_ne (Ne.symm hcur) _ s.waiting).trans h.cur,
    fun u y hy ↦ ?_⟩
  dsimp only at hy
  by_cases hu : u = t
  · rw [hu, Function.update_self] at hy
    cases hy
    subst hu
    exact ⟨hpage, kept_newborn hk hpage s.core⟩
  · rw [Function.update_of_ne hu] at hy
    obtain ⟨hp, hkept⟩ := h.waiting u y hy
    exact ⟨hp, hkept.agree hp hpage hu fun o n ho ↦ (differsIn_threadCreate hk hpage).agree ho⟩

theorem Inv.step (h : Inv s) (hs : Step kernelThread s s') : Inv s' := by
  cases hs with
  | code c hc =>
    refine ⟨h.page, h.cur, fun t x hx ↦ ?_⟩
    obtain ⟨hpage, hkept⟩ := h.waiting t x hx
    exact ⟨hpage, hkept.spared (hc t x hx)⟩
  | create hc => exact h.create hc
  | switch hsw => exact (h.switched hsw).1

/-- A thread that writes to its own page leaves the others alone. -/
theorem Inv.spares {g : Image} (h : Inv s) (hfg : DiffersIn s.cur (s.cur + 4096) s.core.mem g) :
    ∀ t x, s.waiting t = some x → Spared t x s.core.mem g := by
  intro t x hx
  obtain ⟨hpage, hkept⟩ := h.waiting t x hx
  have hne := h.ne hx
  have hroom := hkept.room
  have h1 := hpage.aligned
  have h2 := h.page.aligned
  exact ⟨hfg.agree (by omega), hfg.agree (by omega)⟩

theorem Init.inv (hinit : Init s) : Inv s where
  page := hinit.page
  cur := hinit.waiting _
  waiting t x hx := by
    rw [hinit.waiting] at hx
    cases hx

theorem inv_of_run (hinit : Init s₀) (hrun : Relation.ReflTransGen (Step kernelThread) s₀ s) :
    Inv s := by
  induction hrun with
  | refl => exact hinit.inv
  | tail _ hstep ih => exact ih.step hstep

/-- A run in which the thread `t` does not get the processor. -/
def Away (kernelThread : BitVec 32) (t : ℕ) : Sys → Sys → Prop :=
  Relation.ReflTransGen fun s s' ↦ Step kernelThread s s' ∧ s'.cur ≠ t

/-- What a thread had when it called stays the same until it goes on. -/
theorem waiting_away (h : Inv s) (hx : s.waiting t = some x) (haway : Away kernelThread t s s') :
    Inv s' ∧ s'.waiting t = some x := by
  induction haway with
  | refl => exact ⟨h, hx⟩
  | @tail s₁ s₂ _ hstep ih =>
    obtain ⟨hinv, hwait⟩ := ih
    obtain ⟨hstep, hcur⟩ := hstep
    refine ⟨hinv.step hstep, ?_⟩
    cases hstep with
    | code c hc => exact hwait
    | create hc =>
      obtain ⟨-, ⟨-, hnone⟩, -, rfl⟩ := hc
      refine (Function.update_of_ne ?_ ..).trans hwait
      rintro rfl
      rw [hnone] at hwait
      cases hwait
    | switch hsw =>
      obtain ⟨-, -, rfl⟩ := hsw
      refine (Function.update_of_ne (Ne.symm hcur) ..).trans ?_
      exact (Function.update_of_ne (hinv.ne hwait) ..).trans hwait

/-- **A thread goes on where it called `switch_to`**, with its stack and the registers that C code
expects, whatever the others have done and however often they were switched. -/
theorem switchTo_returns (hinit : Init s₀) (hrun : Relation.ReflTransGen (Step kernelThread) s₀ s)
    (hleave : Switches s next s₁) (haway : Away kernelThread s.cur s₁ s₂)
    (hback : Switches s₂ s.cur s₃) : Resumed s.cur s.core s₃.core := by
  have hinv := inv_of_run hinit hrun
  have hinv₁ := (hinv.switched hleave).1
  have hwait : s₁.waiting s.cur = some s.core := by
    obtain ⟨-, hnext, rfl⟩ := hleave
    obtain ⟨x, hx⟩ := Option.isSome_iff_exists.mp hnext
    refine (Function.update_of_ne (Ne.symm (hinv.ne hx)) ..).trans ?_
    exact Function.update_self ..
  obtain ⟨hinv₂, hwait₂⟩ := waiting_away hinv₁ hwait haway
  exact (hinv₂.switched hback).2 _ hwait₂

/-- **A thread starts in `kernel_thread`** with its function and the argument, whenever it is switched to
for the first time. -/
theorem threadCreate_starts (hinit : Init s₀)
    (hrun : Relation.ReflTransGen (Step kernelThread) s₀ s)
    (hcreate : Creates kernelThread s t function funcArg s₁) (haway : Away kernelThread t s₁ s₂)
    (hfirst : Switches s₂ t s₃) : s₃.core.eip = kernelThread ∧ s₃.core.esp.toNat = t + 3684 ∧
      WordsAt s₃.core.mem (t + 3688) [function, funcArg] := by
  have hinv := inv_of_run hinit hrun
  have hwait : s₁.waiting t = some (newborn
      (threadCreate kernelThread s.core.mem t function funcArg) t s.core) := by
    obtain ⟨-, -, -, rfl⟩ := hcreate
    exact Function.update_self ..
  obtain ⟨hinv₂, hwait₂⟩ := waiting_away (hinv.create hcreate) hwait haway
  have hres := (hinv₂.switched hfirst).2 _ hwait₂
  have hfits := hcreate.page.fits
  obtain ⟨-, hwords, hargs⟩ := threadCreate_words kernelThread function funcArg hcreate.kstack hcreate.page
  have hesp : (newborn (threadCreate kernelThread s.core.mem t function funcArg) t
      s.core).esp.toNat = t + 3680 := Nat.mod_eq_of_lt (by omega)
  have hstack := hres.stack
  rw [hesp] at hstack
  refine ⟨?_, ?_, hargs.agree (hstack.sub (by omega) ?_)⟩
  · have hat := hwords.2.2.2.2.1
    rw [hres.eip, Core.word, hesp]
    exact (congrArg (BitVec.ofNat 32) hat).trans (by simp)
  · have h4 : (4 : BitVec 32).toNat = 4 := rfl
    rw [hres.esp, BitVec.toNat_add, hesp, h4]
    omega
  · change t + 3688 + 8 ≤ _
    omega

end Run

/-! ### The first thread creates a second one, which switches back -/

def mainPage : ℕ := 0xc009e000

def newPage : ℕ := 0xc0100000

def kernelThreadAt : BitVec 32 := 0xc0001000

/-- The arguments and the return address of a call of `switch_to`. -/
def callSwitch (cur next : ℕ) (back : BitVec 32) (c : Core) : Core :=
  c |>.push (BitVec.ofNat 32 next) |>.push (BitVec.ofNat 32 cur) |>.call 0xc0002000 back

/-- An empty stack at the end of the page of the first thread. -/
def emptyStack : Core where
  edi := 1
  esi := 2
  ebp := 0xc009f000
  esp := 0xc009f000
  ebx := 3
  edx := 0
  ecx := 0
  eax := 0
  eip := 0xc0002000
  eflags := 0x2
  cs := selectorKCode
  ss := selectorKStack
  ds := selectorKStack
  es := selectorKStack
  fs := selectorKStack
  gs := selectorKStack
  mem := setWord (fun _ ↦ 0) newPage (newPage + 4096)

def booted : Sys where
  core := callSwitch mainPage newPage 0xc0001234 emptyStack
  cur := mainPage
  waiting := fun _ ↦ none

def created : Sys where
  core := { booted.core with
    mem := threadCreate kernelThreadAt booted.core.mem newPage 0xc0005000 7 }
  cur := mainPage
  waiting := Function.update booted.waiting newPage
    (some (newborn (threadCreate kernelThreadAt booted.core.mem newPage 0xc0005000 7) newPage
      booted.core))

def entered : Sys where
  core := created.core.switchTo
  cur := newPage
  waiting := Function.update (Function.update created.waiting mainPage (some created.core)) newPage none

/-- The new thread calls `switch_to` from a stack that starts at 4000 in its page. -/
def calling : Sys where
  core := callSwitch newPage mainPage 0xc0005678
    { entered.core with esp := BitVec.ofNat 32 (newPage + 4000) }
  cur := newPage
  waiting := entered.waiting

def returned : Sys where
  core := calling.core.switchTo
  cur := mainPage
  waiting := Function.update (Function.update calling.waiting newPage (some calling.core)) mainPage none

theorem callSwitch_onStack {a cur next : ℕ} {back : BitVec 32} {c : Core} (h : c.esp.toNat = a + 12) :
    (callSwitch cur next back c).OnStack a [back, BitVec.ofNat 32 cur, BitVec.ofNat 32 next] := by
  have hstart : c.OnStack (a + 12) [] := ⟨h, trivial⟩
  exact ((hstart.push (BitVec.ofNat 32 next)).push (BitVec.ofNat 32 cur)).call 0xc0002000 back

theorem callSwitch_differsIn {a lo hi cur next : ℕ} {back : BitVec 32} {c : Core}
    (h : c.esp.toNat = a + 12) (hlo : lo ≤ a) (hhi : a + 12 ≤ hi) :
    DiffersIn lo hi c.mem (callSwitch cur next back c).mem := by
  have hstart : c.OnStack (a + 12) [] := ⟨h, trivial⟩
  have h1 := hstart.push (BitVec.ofNat 32 next)
  have h2 := h1.push (BitVec.ofNat 32 cur)
  have h3 := h2.push back
  have hset : ∀ (d : Core) (w : BitVec 32) (o : ℕ), (d.push w).esp.toNat = o → lo ≤ o → o + 4 ≤ hi →
      DiffersIn lo hi d.mem (d.push w).mem := by
    rintro d w _ rfl h1 h2
    exact DiffersIn.setWord h1 h2
  exact ((hset _ _ _ h1.1 (by omega) (by omega)).trans (hset _ _ _ h2.1 (by omega) (by omega))).trans
    (hset _ _ _ h3.1 (by omega) (by omega))

theorem booted_init : Init booted := ⟨⟨by decide, by decide⟩, fun _ ↦ rfl⟩

theorem isPage_newPage : IsPage newPage := ⟨by decide, by decide⟩

theorem booted_kstack : le32 booted.core.mem newPage = newPage + 4096 := by
  have hcall : DiffersIn mainPage (mainPage + 4096) emptyStack.mem booted.core.mem :=
    callSwitch_differsIn (a := 0xc009eff4) rfl (by decide) (by decide)
  rw [(hcall.agree (o := newPage) (n := 4) (.inr (by decide))).le32 le_rfl le_rfl]
  exact le32_setWord (by decide)

theorem booted_creates : Creates kernelThreadAt booted newPage 0xc0005000 7 created :=
  ⟨isPage_newPage, ⟨by decide, rfl⟩, booted_kstack, rfl⟩

theorem created_switches : Switches created newPage entered := by
  refine ⟨⟨0xc009efe4, 0xc0001234, ⟨rfl, ?_⟩, by decide, by decide⟩, ?_, rfl⟩
  · have hstack : booted.core.OnStack 0xc009eff4 _ := callSwitch_onStack rfl
    exact hstack.2.agree ((differsIn_threadCreate booted_kstack isPage_newPage).agree (.inl (by decide)))
  · simp only [created, Function.update_self, Option.isSome_some]

theorem entered_inv : Inv entered :=
  ((booted_init.inv.create booted_creates).switched created_switches).1

theorem entered_calls : Step kernelThreadAt entered calling := by
  have hmem : DiffersIn entered.cur (entered.cur + 4096) entered.core.mem calling.core.mem :=
    callSwitch_differsIn (c := { entered.core with esp := BitVec.ofNat 32 (newPage + 4000) })
      (a := newPage + 3988) (by decide) (by decide) (by decide)
  exact .code calling.core (entered_inv.spares hmem)

theorem calling_switches : Switches calling mainPage returned := by
  refine ⟨⟨newPage + 3972, 0xc0005678, callSwitch_onStack (by decide), by decide, by decide⟩, ?_, rfl⟩
  have hne : mainPage ≠ newPage := by decide
  simp only [calling, entered, Function.update_of_ne hne, Function.update_self, Option.isSome_some]

theorem switchTo_returns_main : Resumed mainPage created.core returned.core :=
  switchTo_returns booted_init (.single (.create booted_creates)) created_switches
    (.single ⟨entered_calls, by decide⟩) calling_switches

theorem threadCreate_starts_new : entered.core.eip = kernelThreadAt ∧
    entered.core.esp.toNat = newPage + 3684 ∧
      WordsAt entered.core.mem (newPage + 3688) [0xc0005000, 7] :=
  threadCreate_starts booted_init .refl booted_creates .refl created_switches

end GlowOS.Switch
