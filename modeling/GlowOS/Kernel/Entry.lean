import Mathlib
import GlowOS.Lib.Stack

/-!
# Entering and leaving the kernel

The processor's part of a system call and the assembly around it: what `int` and `iretd` do with the
stack, `syscall_handler` and `intr_exit` of `kernel/kernel.S`, and `switch_to` of `thread/switch.S`.
Each instruction acts on the registers and on memory as the kernel sees it.

A word of the stack is 32 bits wide. A selector is pushed with zeros above it, and a pop takes its
lower half. The selectors of a user program have the descriptors of its own privilege level, so
`iretd` keeps the data selectors that were popped before.
-/

namespace GlowOS

open Bytes

/-- The registers. -/
structure Regs where
  edi : BitVec 32
  esi : BitVec 32
  ebp : BitVec 32
  esp : BitVec 32
  ebx : BitVec 32
  edx : BitVec 32
  ecx : BitVec 32
  eax : BitVec 32
  eip : BitVec 32
  eflags : BitVec 32
  cs : BitVec 16
  ss : BitVec 16
  ds : BitVec 16
  es : BitVec 16
  fs : BitVec 16
  gs : BitVec 16

/-- The registers and memory. -/
structure Core extends Regs where
  mem : Image

/-- `SELECTOR_K_CODE`. -/
def selectorKCode : BitVec 16 := 8

/-- `SELECTOR_K_STACK`. -/
def selectorKStack : BitVec 16 := 16

/-- The privilege level in a selector. -/
def rpl (s : BitVec 16) : BitVec 16 := s &&& 3

namespace Core

/-! ## Instructions -/

/-- The word at an address. -/
def word (c : Core) (a : BitVec 32) : BitVec 32 := BitVec.ofNat 32 (le32 c.mem a.toNat)

/-- `mov [a], w`. -/
def store (a w : BitVec 32) (c : Core) : Core := { c with mem := setWord c.mem a.toNat w.toNat }

/-- `push`. -/
def push (w : BitVec 32) (c : Core) : Core :=
  { c with esp := c.esp - 4, mem := setWord c.mem (c.esp - 4).toNat w.toNat }

/-- `push` of a selector. -/
def pushSel (s : BitVec 16) (c : Core) : Core := c.push (s.setWidth 32)

/-- `add esp, n`. -/
def addEsp (n : BitVec 32) (c : Core) : Core := { c with esp := c.esp + n }

/-- `pushad`. -/
def pushad (c : Core) : Core :=
  c |>.push c.eax |>.push c.ecx |>.push c.edx |>.push c.ebx |>.push c.esp |>.push c.ebp
    |>.push c.esi |>.push c.edi

/-- `popad`: the saved stack pointer is skipped. -/
def popad (c : Core) : Core :=
  { c with
    edi := c.word c.esp
    esi := c.word (c.esp + 4)
    ebp := c.word (c.esp + 8)
    ebx := c.word (c.esp + 16)
    edx := c.word (c.esp + 20)
    ecx := c.word (c.esp + 24)
    eax := c.word (c.esp + 28)
    esp := c.esp + 32 }

/-- `pop gs`. -/
def popGs (c : Core) : Core := { c with gs := (c.word c.esp).setWidth 16, esp := c.esp + 4 }

/-- `pop fs`. -/
def popFs (c : Core) : Core := { c with fs := (c.word c.esp).setWidth 16, esp := c.esp + 4 }

/-- `pop es`. -/
def popEs (c : Core) : Core := { c with es := (c.word c.esp).setWidth 16, esp := c.esp + 4 }

/-- `pop ds`. -/
def popDs (c : Core) : Core := { c with ds := (c.word c.esp).setWidth 16, esp := c.esp + 4 }

/-- `ret`. -/
def ret (c : Core) : Core := { c with eip := c.word c.esp, esp := c.esp + 4 }

/-- `call`, with the address behind the instruction. -/
def call (target back : BitVec 32) (c : Core) : Core := { c.push back with eip := target }

/-- What `int` pushes and loads, through an interrupt gate that leads to `entry`; when it executes,
`eip` is behind it. From user mode the stack is switched to the one of the TSS first. The gate clears
the flags IF, TF, NT and RF. -/
def int (esp0 entry : BitVec 32) (c : Core) : Core :=
  let c₁ : Core :=
    if rpl c.cs = 3 then
      { c with esp := esp0, ss := selectorKStack } |>.pushSel c.ss |>.push c.esp
    else c
  { c₁ |>.push c.eflags |>.pushSel c.cs |>.push c.eip with
    eip := entry, cs := selectorKCode, eflags := c.eflags &&& ~~~0x14300 }

/-- `iretd`. The stack is popped as well if the level changes. -/
def iretd (c : Core) : Core :=
  let c₁ : Core :=
    { c with
      eip := c.word c.esp
      cs := (c.word (c.esp + 4)).setWidth 16
      eflags := c.word (c.esp + 8)
      esp := c.esp + 12 }
  if rpl c₁.cs ≠ rpl c.cs then
    { c₁ with esp := c.word (c.esp + 12), ss := (c.word (c.esp + 16)).setWidth 16 }
  else c₁

/-! ## Routines -/

/-- `syscall_handler` up to the first instruction of the function it calls. -/
def syscallHandler (table : BitVec 32 → BitVec 32) (back : BitVec 32) (c : Core) : Core :=
  c |>.push 0 |>.pushSel c.ds |>.pushSel c.es |>.pushSel c.fs |>.pushSel c.gs |>.pushad
    |>.push 0x80 |>.push c.edx |>.push c.ecx |>.push c.ebx |>.call (table c.eax) back

/-- `intr_exit`. -/
def intrExit (c : Core) : Core :=
  c |>.addEsp 4 |>.popad |>.popGs |>.popFs |>.popEs |>.popDs |>.addEsp 4 |>.iretd

/-- `syscall_handler` after the function it calls has returned. -/
def syscallReturn (c : Core) : Core :=
  let c₁ := c.addEsp 12
  c₁.store (c₁.esp + 8 * 4) c₁.eax |>.intrExit

/-- The first half of `switch_to`, which saves the thread that is left. -/
def leave (c : Core) : Core :=
  let c₁ := c |>.push c.esi |>.push c.edi |>.push c.ebx |>.push c.ebp
  let c₂ := { c₁ with eax := c₁.word (c₁.esp + 20) }
  c₂.store c₂.eax c₂.esp

/-- The second half, which takes the stack of the next thread. -/
def enter (c : Core) : Core :=
  let c₁ := { c with eax := c.word (c.esp + 24) }
  let c₂ := { c₁ with esp := c₁.word c₁.eax }
  { c₂ with
    ebp := c₂.word c₂.esp
    ebx := c₂.word (c₂.esp + 4)
    edi := c₂.word (c₂.esp + 8)
    esi := c₂.word (c₂.esp + 12)
    esp := c₂.esp + 16 } |>.ret

/-- `switch_to`. -/
def switchTo (c : Core) : Core := c.leave.enter

/-! ## The stack -/

/-- The stack pointer is at `a`, and `ws` stand there. -/
def OnStack (c : Core) (a : ℕ) (ws : List (BitVec 32)) : Prop :=
  c.esp.toNat = a ∧ WordsAt c.mem a ws

variable {c : Core} {a n : ℕ} {w : BitVec 32} {ws : List (BitVec 32)}

theorem OnStack.push (h : c.OnStack (a + 4) ws) (w : BitVec 32) : (c.push w).OnStack a (w :: ws) := by
  have hesp : (c.esp - 4).toNat = a := by
    have h1 := h.1
    have hlt := c.esp.isLt
    rw [BitVec.toNat_sub_of_le (by rw [BitVec.le_def, h1]; exact Nat.le_add_left ..), h1]
    rfl
  refine ⟨hesp, ?_⟩
  change WordsAt (setWord c.mem (c.esp - 4).toNat w.toNat) a (w :: ws)
  rw [hesp]
  exact h.2.push w

theorem OnStack.pushSel (h : c.OnStack (a + 4) ws) (s : BitVec 16) :
    (c.pushSel s).OnStack a (s.setWidth 32 :: ws) := h.push _

theorem OnStack.call (h : c.OnStack (a + 4) ws) (target back : BitVec 32) :
    (c.call target back).OnStack a (back :: ws) := h.push back

@[simp] theorem push_toRegs (w : BitVec 32) (c : Core) :
    (c.push w).toRegs = { c.toRegs with esp := c.esp - 4 } := rfl

@[simp] theorem pushSel_toRegs (s : BitVec 16) (c : Core) :
    (c.pushSel s).toRegs = { c.toRegs with esp := c.esp - 4 } := rfl

/-- The address `n` above the stack pointer. -/
theorem OnStack.toNat_add (h : c.OnStack a ws) (hlt : a + n < 2 ^ 32) :
    (c.esp + BitVec.ofNat 32 n).toNat = a + n := by
  rw [BitVec.toNat_add, h.1, BitVec.toNat_ofNat, Nat.mod_eq_of_lt (by omega : n < 2 ^ 32),
    Nat.mod_eq_of_lt hlt]

/-- A word of the stack. -/
theorem OnStack.word (h : c.OnStack a ws) {i : ℕ} (hi : ws[i]? = some w)
    (hlt : a + 4 * i < 2 ^ 32) : c.word (c.esp + BitVec.ofNat 32 (4 * i)) = w := by
  rw [Core.word, h.toNat_add hlt, h.2.get hi, BitVec.ofNat_toNat, BitVec.setWidth_eq]

/-! ## The frame of an interrupt -/

/-- `struct intr_struct`, from its lowest word up. -/
def intrFrame (vecNo espDummy errCode : BitVec 32) (r : Regs) : List (BitVec 32) :=
  [vecNo, r.edi, r.esi, r.ebp, espDummy, r.ebx, r.edx, r.ecx, r.eax,
    r.gs.setWidth 32, r.fs.setWidth 32, r.es.setWidth 32, r.ds.setWidth 32,
    errCode, r.eip, r.cs.setWidth 32, r.eflags, r.esp, r.ss.setWidth 32]

theorem OnStack.pushad (h : c.OnStack (a + 32) ws) : ∃ d, c.pushad.OnStack a
    (c.edi :: c.esi :: c.ebp :: d :: c.ebx :: c.edx :: c.ecx :: c.eax :: ws) :=
  ⟨c.esp, (((((((h.push c.eax).push c.ecx).push c.edx).push c.ebx).push c.esp).push c.ebp).push
    c.esi).push c.edi⟩

/-- What `int` pushes in user mode. -/
theorem int_frame {esp0 : BitVec 32} {u : Core} (entry : BitVec 32) (huser : rpl u.cs = 3)
    (htop : esp0.toNat = a + 20) : (u.int esp0 entry).OnStack a
      [u.eip, u.cs.setWidth 32, u.eflags, u.esp, u.ss.setWidth 32] := by
  have hstart : ({ u with esp := esp0, ss := selectorKStack } : Core).OnStack (a + 20) [] :=
    ⟨htop, trivial⟩
  rw [int, if_pos huser]
  exact ((((hstart.push (u.ss.setWidth 32)).push u.esp).push u.eflags).push
    (u.cs.setWidth 32)).push u.eip

/-- What `syscall_handler` pushes. -/
theorem syscallHandler_onStack (table : BitVec 32 → BitVec 32) (back : BitVec 32)
    (h : c.OnStack (a + 72) ws) : ∃ d, (c.syscallHandler table back).OnStack a
      (back :: c.ebx :: c.ecx :: c.edx :: 0x80 :: c.edi :: c.esi :: c.ebp :: d :: c.ebx :: c.edx ::
        c.ecx :: c.eax :: c.gs.setWidth 32 :: c.fs.setWidth 32 :: c.es.setWidth 32 ::
          c.ds.setWidth 32 :: 0 :: ws) := by
  obtain ⟨d, hall⟩ := (((((h.push 0).pushSel c.ds).pushSel c.es).pushSel c.fs).pushSel c.gs).pushad
  simp only [pushSel_toRegs, push_toRegs] at hall
  exact ⟨d, ((((hall.push 0x80).push c.edx).push c.ecx).push c.ebx).call (table c.eax) back⟩

/-- A system call from user mode leaves the frame at the top of the kernel stack, and below it the
arguments and the return address. -/
theorem syscallHandler_frame (table : BitVec 32 → BitVec 32) (entry back : BitVec 32)
    {esp0 : BitVec 32} {u : Core} (huser : rpl u.cs = 3) (htop : esp0.toNat = a + 92) :
    ∃ d, ((u.int esp0 entry).syscallHandler table back).OnStack a
      (back :: u.ebx :: u.ecx :: u.edx :: intrFrame 0x80 d 0 u.toRegs) := by
  obtain ⟨d, h⟩ := syscallHandler_onStack table back (int_frame (a := a + 72) entry huser htop)
  have hint : ((u.int esp0 entry).toRegs) = { u.toRegs with
      esp := (u.int esp0 entry).esp, ss := selectorKStack, eip := entry, cs := selectorKCode,
      eflags := u.eflags &&& ~~~0x14300 } := by
    rw [int, if_pos huser]
    rfl
  rw [hint] at h
  exact ⟨d, h⟩

/-- `intr_exit` takes the registers from the frame. -/
theorem intrExit_frame {v d e : BitVec 32} {r : Regs} (h : c.OnStack a (intrFrame v d e r))
    (hlt : a + 76 ≤ 2 ^ 32) (hkernel : rpl c.cs = 0) (huser : rpl r.cs = 3) :
    c.intrExit.toRegs = r := by
  have hw : ∀ i w, (intrFrame v d e r)[i]? = some w →
      BitVec.ofNat 32 (le32 c.mem (c.esp + BitVec.ofNat 32 (4 * i)).toNat) = w := by
    intro i w hi
    have hi' := (List.getElem?_eq_some_iff.mp hi).1
    have hlen : (intrFrame v d e r).length = 19 := rfl
    exact h.word hi (by omega)
  have h1 := hw 1 _ rfl
  have h2 := hw 2 _ rfl
  have h3 := hw 3 _ rfl
  have h5 := hw 5 _ rfl
  have h6 := hw 6 _ rfl
  have h7 := hw 7 _ rfl
  have h8 := hw 8 _ rfl
  have h9 := hw 9 _ rfl
  have h10 := hw 10 _ rfl
  have h11 := hw 11 _ rfl
  have h12 := hw 12 _ rfl
  have h14 := hw 14 _ rfl
  have h15 := hw 15 _ rfl
  have h16 := hw 16 _ rfl
  have h17 := hw 17 _ rfl
  have h18 := hw 18 _ rfl
  have hsel : ∀ s : BitVec 16, (s.setWidth 32).setWidth 16 = s := by simp
  simp only [Nat.reduceMul] at h1 h2 h3 h5 h6 h7 h8 h9 h10 h11 h12 h14 h15 h16 h17 h18
  simp only [intrExit, addEsp, popad, popGs, popFs, popEs, popDs, iretd, Core.word,
    BitVec.add_assoc, BitVec.reduceAdd, BitVec.ofNat_eq_ofNat, h1, h2, h3, h5, h6, h7, h8, h9, h10, h11, h12, h14, h15,
    h16, h17, h18, hsel, huser, hkernel]
  rw [if_pos (by decide)]

/-! ## Switching -/

theorem push_agree (hesp : c.esp.toNat = a + 4) (w : BitVec 32) {o : ℕ}
    (ho : o + n ≤ a ∨ a + 4 ≤ o) : Agree c.mem (c.push w).mem o n := by
  have hesp' := (OnStack.push (show c.OnStack (a + 4) [] from ⟨hesp, trivial⟩) w).1
  change Agree c.mem (setWord c.mem (c.push w).esp.toNat w.toNat) o n
  rw [hesp']
  exact agree_splice ho

/-- The first half saves the stack pointer in the thread, and touches nothing but that word and its stack. -/
theorem leave_spec {back cur next : BitVec 32} (h : c.OnStack (a + 16) [back, cur, next])
    (hcur : cur.toNat + 4 ≤ a) (hlt : a + 28 ≤ 2 ^ 32) :
    c.leave.OnStack a [c.ebp, c.ebx, c.edi, c.esi, back, cur, next] ∧ c.leave.cs = c.cs ∧
      ∀ o n, (o + n ≤ a ∨ a + 16 ≤ o) → (o + n ≤ cur.toNat ∨ cur.toNat + 4 ≤ o) →
        Agree c.mem c.leave.mem o n := by
  have h1 := h.push c.esi
  have h2 := h1.push c.edi
  have h3 := h2.push c.ebx
  have h4 := h3.push c.ebp
  have hword := h4.word (i := 5) rfl (by omega)
  have hmem : c.leave.mem = setWord ((((c.push c.esi).push c.edi).push c.ebx).push c.ebp).mem
      cur.toNat ((((c.push c.esi).push c.edi).push c.ebx).push c.ebp).esp.toNat := by
    rw [← hword]
    rfl
  refine ⟨⟨h4.1, ?_⟩, rfl, fun o n hst hth ↦ ?_⟩
  · rw [hmem]
    exact h4.2.agree (agree_splice (by omega))
  · rw [hmem]
    have e1 := push_agree h.1 c.esi (o := o) (n := n) (by omega)
    have e2 := push_agree h1.1 c.edi (o := o) (n := n) (by omega)
    have e3 := push_agree h2.1 c.ebx (o := o) (n := n) (by omega)
    have e4 := push_agree h3.1 c.ebp (o := o) (n := n) (by omega)
    exact (((e1.trans e2).trans e3).trans e4).trans (agree_splice (by omega))

/-- `switch_to` continues the next thread where its saved stack pointer says. -/
theorem switchTo_spec {back cur next ret : BitVec 32} {k : ℕ} {e₁ e₂ e₃ e₄ : BitVec 32}
    (h : c.OnStack (a + 16) [back, cur, next]) (hcur : cur.toNat + 4 ≤ a)
    (hlt : a + 28 ≤ 2 ^ 32) (hk : k + 20 ≤ 2 ^ 32)
    (hsaved : le32 c.mem next.toNat = k)
    (hstack : WordsAt c.mem k (e₁ :: e₂ :: e₃ :: e₄ :: ret :: ws))
    (hnext : (next.toNat + 4 ≤ a ∨ a + 16 ≤ next.toNat) ∧
      (next.toNat + 4 ≤ cur.toNat ∨ cur.toNat + 4 ≤ next.toNat))
    (hsep : (k + 4 * (ws.length + 5) ≤ a ∨ a + 16 ≤ k) ∧
      (k + 4 * (ws.length + 5) ≤ cur.toNat ∨ cur.toNat + 4 ≤ k)) :
    c.switchTo.eip = ret ∧ c.switchTo.cs = c.cs ∧
      WordsAt c.switchTo.mem k (e₁ :: e₂ :: e₃ :: e₄ :: ret :: ws) ∧
      c.switchTo.esp = BitVec.ofNat 32 k + 20 := by
  obtain ⟨h1, hcs, hagree⟩ := leave_spec h hcur hlt
  have hword : c.leave.word (c.leave.esp + 24) = next := h1.word (i := 6) rfl (by omega)
  have hwords := hstack.agree (hagree k (4 * (ws.length + 5)) hsep.1 hsep.2)
  have hesp : c.leave.word next = BitVec.ofNat 32 k := by
    rw [Core.word, (hagree next.toNat 4 hnext.1 hnext.2).le32 (le_refl _) (le_refl _), hsaved]
  have hstack' : ({ c.leave with esp := BitVec.ofNat 32 k } : Core).OnStack k
      (e₁ :: e₂ :: e₃ :: e₄ :: ret :: ws) := by
    refine ⟨?_, hwords⟩
    rw [BitVec.toNat_ofNat, Nat.mod_eq_of_lt (by omega)]
  have hret := hstack'.word (i := 4) rfl (by omega)
  have hesp' : c.leave.word (c.leave.word (c.leave.esp + 24)) = BitVec.ofNat 32 k := by
    rw [hword, hesp]
  refine ⟨?_, hcs, hwords, ?_⟩
  · change c.leave.word (c.leave.word (c.leave.word (c.leave.esp + 24)) + 16) = ret
    rw [hesp']
    exact hret
  · change c.leave.word (c.leave.word (c.leave.esp + 24)) + 16 + 4 = BitVec.ofNat 32 k + 20
    rw [hesp', BitVec.add_assoc]
    rfl

end Core

end GlowOS
