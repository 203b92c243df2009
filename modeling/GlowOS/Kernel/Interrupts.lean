import Mathlib
import GlowOS.Kernel.Entry

/-!
# Interrupts

The entry routines that the macro `VECTOR` makes, between the gate of an interrupt and `intr_exit`. An
interrupt may come at any instruction, in user mode as well as in the kernel, where the stack is not
switched and the frame is two words shorter. For some exceptions the processor pushes an error code;
for the others the routine pushes a zero in its place.

The handler is C code: it returns with the stack pointer where it was called, and writes nothing to the
frame of the interrupt. Other threads may run before it returns.
-/

namespace GlowOS

open Bytes

namespace Core

/-! ## The entry -/

/-- The vectors with `ERROR_CODE`. -/
def errorCodes : List ℕ := [0x08, 0x0a, 0x0b, 0x0c, 0x0d, 0x0e, 0x11, 0x1e]

/-- What the processor does at an interrupt: the error code comes last. -/
def deliver (esp0 entry : BitVec 32) (code : Option (BitVec 32)) (c : Core) : Core :=
  match code with
  | none => c.int esp0 entry
  | some e => (c.int esp0 entry).push e

/-- `mov al, n`. -/
def movAl (n : BitVec 32) (c : Core) : Core := { c with eax := c.eax &&& ~~~0xff ||| n }

/-- `intr%1entry` behind the error code, up to the first instruction of the handler. What it sends to the
interrupt controllers is left out. -/
def saveContext (v : ℕ) (handler back : BitVec 32) (c : Core) : Core :=
  c |>.pushSel c.ds |>.pushSel c.es |>.pushSel c.fs |>.pushSel c.gs |>.pushad |>.movAl 0x20
    |>.push (BitVec.ofNat 32 v) |>.call handler back

/-- `intr%1entry`. -/
def intrEntry (v : ℕ) (handler back : BitVec 32) (c : Core) : Core :=
  (if v ∈ errorCodes then c else c.push 0).saveContext v handler back

/-- How much of the stack an interrupt takes up to the handler. -/
def frameBytes (c : Core) : ℕ := if rpl c.cs = 3 then 80 else 72

/-- Where the stack of the handler starts. -/
def stackTop (esp0 : BitVec 32) (c : Core) : ℕ := if rpl c.cs = 3 then esp0.toNat else c.esp.toNat

/-! ## What is pushed -/

/-- The words `ws` stand on the stack from `a` on, and the memory is as `m` but for the bytes from
`lo` to `hi`. -/
structure Saves (m : Image) (lo hi : ℕ) (c : Core) (a : ℕ) (ws : List (BitVec 32)) : Prop where
  onStack : c.OnStack a ws
  mem : DiffersIn lo hi m c.mem

section Saving

variable {m : Image} {lo hi a v : ℕ} {c u : Core} {ws : List (BitVec 32)} {code : Option (BitVec 32)}
  {esp0 entry handler back : BitVec 32}

theorem Saves.push (h : Saves m lo hi c (a + 4) ws) (hlo : lo ≤ a) (hhi : a + 4 ≤ hi)
    (w : BitVec 32) : Saves m lo hi (c.push w) a (w :: ws) := by
  have hpush := h.onStack.push w
  refine ⟨hpush, h.mem.trans ?_⟩
  change DiffersIn lo hi c.mem (setWord c.mem (c.push w).esp.toNat w.toNat)
  rw [hpush.1]
  exact .setWord hlo hhi

theorem Saves.pushSel (h : Saves m lo hi c (a + 4) ws) (hlo : lo ≤ a) (hhi : a + 4 ≤ hi)
    (s : BitVec 16) : Saves m lo hi (c.pushSel s) a (s.setWidth 32 :: ws) := h.push hlo hhi _

theorem Saves.movAl (h : Saves m lo hi c a ws) (n : BitVec 32) : Saves m lo hi (c.movAl n) a ws :=
  ⟨h.onStack, h.mem⟩

theorem Saves.jump (h : Saves m lo hi c a ws) (target : BitVec 32) :
    Saves m lo hi { c with eip := target } a ws := ⟨h.onStack, h.mem⟩

theorem Saves.pushad (h : Saves m lo hi c (a + 32) ws) (hlo : lo ≤ a) (hhi : a + 32 ≤ hi) :
    ∃ d, Saves m lo hi c.pushad a
      (c.edi :: c.esi :: c.ebp :: d :: c.ebx :: c.edx :: c.ecx :: c.eax :: ws) := by
  have h1 := h.push (by omega) (by omega) c.eax
  have h2 := h1.push (by omega) (by omega) c.ecx
  have h3 := h2.push (by omega) (by omega) c.edx
  have h4 := h3.push (by omega) (by omega) c.ebx
  have h5 := h4.push (by omega) (by omega) c.esp
  have h6 := h5.push (by omega) (by omega) c.ebp
  have h7 := h6.push (by omega) (by omega) c.esi
  exact ⟨_, h7.push hlo (by omega) c.edi⟩

/-- The routine behind the error code. -/
theorem Saves.saveContext (v : ℕ) (handler back : BitVec 32) (h : Saves m lo hi c (a + 56) ws)
    (hlo : lo ≤ a) (hhi : a + 56 ≤ hi) : ∃ d, Saves m lo hi (c.saveContext v handler back) a
      (back :: BitVec.ofNat 32 v :: c.edi :: c.esi :: c.ebp :: d :: c.ebx :: c.edx :: c.ecx ::
        c.eax :: c.gs.setWidth 32 :: c.fs.setWidth 32 :: c.es.setWidth 32 :: c.ds.setWidth 32 ::
          ws) := by
  have h4 := (((h.pushSel (by omega) (by omega) c.ds).pushSel (by omega) (by omega) c.es).pushSel
    (by omega) (by omega) c.fs).pushSel (by omega) (by omega) c.gs
  obtain ⟨d, h5⟩ := h4.pushad (a := a + 8) (by omega) (by omega)
  simp only [pushSel_toRegs, push_toRegs] at h5
  have h7 := ((h5.movAl 0x20).push (by omega) (by omega) (BitVec.ofNat 32 v)).push hlo (by omega) back
  exact ⟨d, h7.jump handler⟩

/-- The registers at the first instruction of the routine. -/
theorem int_toRegs (u : Core) (esp0 entry : BitVec 32) : (u.int esp0 entry).toRegs =
    { u.toRegs with
      esp := (u.int esp0 entry).esp
      ss := (u.int esp0 entry).ss
      eip := entry
      cs := selectorKCode
      eflags := u.eflags &&& ~~~0x14300 } := by
  rw [int]
  split <;> rfl

/-- With a zero or with an error code, there is one word more on the stack. -/
theorem exists_push_eq (u : Core) (esp0 entry : BitVec 32)
    (hcode : code.isSome = true ↔ v ∈ errorCodes) :
    ∃ e, (if v ∈ errorCodes then u.deliver esp0 entry code
      else (u.deliver esp0 entry code).push 0) = (u.int esp0 entry).push e := by
  cases code with
  | none => exact ⟨0, if_neg fun hv ↦ Bool.false_ne_true (hcode.mpr hv)⟩
  | some e => exact ⟨e, if_pos (hcode.mp rfl)⟩

theorem saves_int_user (entry : BitVec 32) (huser : rpl u.cs = 3) (htop : esp0.toNat = a + 20)
    (hlo : lo ≤ a) (hhi : a + 20 ≤ hi) : Saves u.mem lo hi (u.int esp0 entry) a
      [u.eip, u.cs.setWidth 32, u.eflags, u.esp, u.ss.setWidth 32] := by
  have hstart : Saves u.mem lo hi { u with esp := esp0, ss := selectorKStack } (a + 20) [] :=
    ⟨⟨htop, trivial⟩, .refl lo hi u.mem⟩
  have h1 := (hstart.pushSel (by omega) (by omega) u.ss).push (by omega) (by omega) u.esp
  have h2 := ((h1.push (by omega) (by omega) u.eflags).pushSel (by omega) (by omega) u.cs).push
    hlo (by omega) u.eip
  rw [int, if_pos huser]
  exact ⟨h2.onStack, h2.mem⟩

theorem saves_int_kernel (esp0 entry : BitVec 32) (hkernel : rpl u.cs = 0)
    (htop : u.esp.toNat = a + 12) (hlo : lo ≤ a) (hhi : a + 12 ≤ hi) :
    Saves u.mem lo hi (u.int esp0 entry) a [u.eip, u.cs.setWidth 32, u.eflags] := by
  have hstart : Saves u.mem lo hi u (a + 12) [] := ⟨⟨htop, trivial⟩, .refl lo hi u.mem⟩
  have h2 := ((hstart.push (by omega) (by omega) u.eflags).pushSel (by omega) (by omega) u.cs).push
    hlo (by omega) u.eip
  rw [int, if_neg (by rw [hkernel]; decide)]
  exact ⟨h2.onStack, h2.mem⟩

/-- The frame of an interrupt in user mode. -/
theorem intrEntry_user (esp0 entry handler back : BitVec 32)
    (hcode : code.isSome = true ↔ v ∈ errorCodes) (huser : rpl u.cs = 3)
    (htop : esp0.toNat = a + 80) : ∃ d e, Saves u.mem a (a + 80)
      ((u.deliver esp0 entry code).intrEntry v handler back) a
      (back :: intrFrame (BitVec.ofNat 32 v) d e u.toRegs) := by
  obtain ⟨e, he⟩ := exists_push_eq u esp0 entry hcode
  have hint := saves_int_user (a := a + 60) entry huser htop (by omega : a ≤ a + 60)
    (by omega : a + 60 + 20 ≤ a + 80)
  obtain ⟨d, h⟩ := (hint.push (by omega) (by omega) e).saveContext v handler back le_rfl (by omega)
  simp only [push_toRegs] at h
  rw [int_toRegs] at h
  refine ⟨d, e, ?_⟩
  rw [intrEntry, he]
  exact h

/-- The frame of an interrupt in the kernel has no stack in it. -/
theorem intrEntry_kernel (esp0 entry handler back : BitVec 32)
    (hcode : code.isSome = true ↔ v ∈ errorCodes) (hkernel : rpl u.cs = 0)
    (htop : u.esp.toNat = a + 72) : ∃ d e, Saves u.mem a (a + 72)
      ((u.deliver esp0 entry code).intrEntry v handler back) a
      (back :: (intrFrame (BitVec.ofNat 32 v) d e u.toRegs).take 17) := by
  obtain ⟨e, he⟩ := exists_push_eq u esp0 entry hcode
  have hint := saves_int_kernel (a := a + 60) esp0 entry hkernel htop (by omega : a ≤ a + 60)
    (by omega : a + 60 + 12 ≤ a + 72)
  obtain ⟨d, h⟩ := (hint.push (by omega) (by omega) e).saveContext v handler back le_rfl (by omega)
  simp only [push_toRegs] at h
  rw [int_toRegs] at h
  refine ⟨d, e, ?_⟩
  rw [intrEntry, he]
  exact h

end Saving

/-! ## The return -/

theorem intrExit_mem (c : Core) : c.intrExit.mem = c.mem := by
  rw [intrExit, iretd]
  split <;> rfl

/-- `intr_exit` on the frame of an interrupt in the kernel. -/
theorem intrExit_kernelFrame {c : Core} {a : ℕ} {v d e : BitVec 32} {r : Regs}
    (h : c.OnStack a ((intrFrame v d e r).take 17)) (hlt : a + 68 ≤ 2 ^ 32) (hkernel : rpl c.cs = 0)
    (hlevel : rpl r.cs = 0) (hesp : c.esp + 68#32 = r.esp) (hss : c.ss = r.ss) :
    c.intrExit.toRegs = r := by
  have hw : ∀ i w, ((intrFrame v d e r).take 17)[i]? = some w →
      BitVec.ofNat 32 (le32 c.mem (c.esp + BitVec.ofNat 32 (4 * i)).toNat) = w := by
    intro i w hi
    have hi' := (List.getElem?_eq_some_iff.mp hi).1
    have hlen : ((intrFrame v d e r).take 17).length = 17 := rfl
    exact h.word hi (by omega)
  have h1 := hw 1 _ rfl
  have h2 := hw 2 _ rfl
  have h3 := hw 3 _ rfl
  have h5 := hw 5 _ rfl
  have h6 := hw 6 _ rfl
  have h7 := hw 7 _ rfl
  have h8 := hw 8 _ rfl
  have h9 := hw 9 _ rfl
  have h10 := hw 10 _ rfl
  have h11 := hw 11 _ rfl
  have h12 := hw 12 _ rfl
  have h14 := hw 14 _ rfl
  have h15 := hw 15 _ rfl
  have h16 := hw 16 _ rfl
  have hsel : ∀ s : BitVec 16, (s.setWidth 32).setWidth 16 = s := by simp
  simp only [Nat.reduceMul] at h1 h2 h3 h5 h6 h7 h8 h9 h10 h11 h12 h14 h15 h16
  simp only [intrExit, addEsp, popad, popGs, popFs, popEs, popDs, iretd, Core.word,
    BitVec.add_assoc, BitVec.reduceAdd, BitVec.ofNat_eq_ofNat, h1, h2, h3, h5, h6, h7, h8, h9, h10,
    h11, h12, h14, h15, h16, hsel, hlevel, hkernel, hesp, hss, ne_eq, not_true_eq_false, if_false]

/-! ## Runs with interrupts -/

/-- Kernel code on the stack below `top`, with interrupts between its instructions. `inst` is what the
code does by itself. A handler has returned when the stack pointer is back at the frame. -/
inductive Runs (inst : ℕ → Core → Core → Prop) : ℕ → Core → Core → Prop
  | refl (top : ℕ) (c : Core) : Runs inst top c c
  | step {top : ℕ} {c d d' : Core} : Runs inst top c d → inst top d d' → Runs inst top c d'
  | interrupt {top v : ℕ} {c d h : Core} {code : Option (BitVec 32)}
      {esp0 entry handler back : BitVec 32} : Runs inst top c d →
      (code.isSome = true ↔ v ∈ errorCodes) → 72 ≤ d.esp.toNat →
      Runs inst (d.esp.toNat - 68) ((d.deliver esp0 entry code).intrEntry v handler back) h →
      h.esp.toNat = d.esp.toNat - 68 → Runs inst top c h.intrExit

/-- Code that keeps what stands on the stack from `top` up to `lim`, and pops nothing of it. -/
structure Keeps (lim top : ℕ) (c d : Core) : Prop where
  esp : d.esp.toNat ≤ top
  mem : Agree c.mem d.mem top (lim - top)
  cs : d.cs = c.cs
  ss : d.ss = c.ss

section Transparency

variable {inst : ℕ → Core → Core → Prop} {lim top a v : ℕ} {c d h u : Core}
  {code : Option (BitVec 32)} {esp0 entry handler back : BitVec 32}

theorem Keeps.trans (h₁ : Keeps lim top c d) (h₂ : Keeps lim top d h) : Keeps lim top c h :=
  ⟨h₂.esp, h₁.mem.trans h₂.mem, h₂.cs.trans h₁.cs, h₂.ss.trans h₁.ss⟩

theorem saveContext_segments (v : ℕ) (handler back : BitVec 32) (c : Core) :
    (c.saveContext v handler back).cs = c.cs ∧ (c.saveContext v handler back).ss = c.ss := by
  have hcs : ∀ (w : BitVec 32) (c : Core), (c.push w).cs = c.cs := fun _ _ ↦ rfl
  have hss : ∀ (w : BitVec 32) (c : Core), (c.push w).ss = c.ss := fun _ _ ↦ rfl
  constructor
  · simp only [saveContext, pushad, pushSel, movAl, call, hcs]
  · simp only [saveContext, pushad, pushSel, movAl, call, hss]

theorem deliver_segments : (u.deliver esp0 entry code).cs = selectorKCode ∧
    (u.deliver esp0 entry code).ss = (u.int esp0 entry).ss := by
  have hcs : (u.int esp0 entry).cs = selectorKCode := congrArg Regs.cs (int_toRegs u esp0 entry)
  cases code with
  | none => exact ⟨hcs, rfl⟩
  | some e => exact ⟨hcs, rfl⟩

/-- The handler starts in the kernel. -/
theorem intrEntry_segments :
    ((u.deliver esp0 entry code).intrEntry v handler back).cs = selectorKCode ∧
      ((u.deliver esp0 entry code).intrEntry v handler back).ss = (u.int esp0 entry).ss := by
  rw [intrEntry]
  split
  · rw [(saveContext_segments ..).1, (saveContext_segments ..).2]
    exact deliver_segments
  · rw [(saveContext_segments ..).1, (saveContext_segments ..).2]
    exact deliver_segments

/-- What the entry saved is still there when the handler has returned, and the stack above it too. -/
theorem Saves.kept {m : Image} {hi : ℕ} {ws : List (BitVec 32)} (hsaved : Saves m a hi c a (back :: ws))
    (hkeep : Keeps lim (a + 4) c h) (hws : a + 4 + 4 * ws.length ≤ hi) (hhi : hi ≤ lim) :
    WordsAt h.mem (a + 4) ws ∧ Agree m h.mem hi (lim - hi) := by
  have habove : Agree m c.mem hi (lim - hi) := hsaved.mem.agree (.inr le_rfl)
  exact ⟨hsaved.onStack.2.2.agree (hkeep.mem.sub le_rfl (by omega)),
    habove.trans (hkeep.mem.sub (by omega) (by omega))⟩

/-- An interrupt in the kernel, when its handler keeps the frame. -/
theorem interrupt_kernel (hcode : code.isSome = true ↔ v ∈ errorCodes) (hkernel : rpl u.cs = 0)
    (hroom : 72 ≤ u.esp.toNat) (hlim : u.esp.toNat ≤ lim)
    (hkeep : Keeps lim (u.esp.toNat - 68)
      ((u.deliver esp0 entry code).intrEntry v handler back) h)
    (hret : h.esp.toNat = u.esp.toNat - 68) :
    h.intrExit.toRegs = u.toRegs ∧ Agree u.mem h.intrExit.mem u.esp.toNat (lim - u.esp.toNat) := by
  obtain ⟨d, e, hentry⟩ := intrEntry_kernel (a := u.esp.toNat - 72) esp0 entry handler back hcode
    hkernel (by omega)
  have hlt := u.esp.isLt
  have hfour : u.esp.toNat - 68 = u.esp.toNat - 72 + 4 := by omega
  rw [hfour] at hkeep
  have hlen : ((intrFrame (BitVec.ofNat 32 v) d e u.toRegs).take 17).length = 17 := rfl
  obtain ⟨hframe, hmem⟩ := hentry.kept hkeep (by omega) (by omega)
  rw [← hfour] at hframe
  rw [Nat.sub_add_cancel hroom] at hmem
  have hcs : rpl h.cs = 0 := by
    rw [hkeep.cs, intrEntry_segments.1]
    decide
  have hss : h.ss = u.ss := by
    rw [hkeep.ss, intrEntry_segments.2, int, if_neg (by rw [hkernel]; decide)]
    rfl
  have hesp : h.esp + 68#32 = u.esp := by
    apply BitVec.eq_of_toNat_eq
    rw [BitVec.toNat_add, hret]
    change (u.esp.toNat - 68 + 68) % 2 ^ 32 = u.esp.toNat
    omega
  refine ⟨intrExit_kernelFrame ⟨hret, hframe⟩ (by omega) hcs hkernel hesp hss, ?_⟩
  rw [intrExit_mem]
  exact hmem

/-- Kernel code keeps what stands above it however often it is interrupted, and however deep. -/
theorem Runs.keeps
    (hinst : ∀ top c d, inst top c d → c.esp.toNat ≤ top → top ≤ lim → Keeps lim top c d)
    (hrun : Runs inst top c d) (hesp : c.esp.toNat ≤ top) (hlim : top ≤ lim)
    (hkernel : rpl c.cs = 0) : Keeps lim top c d := by
  induction hrun with
  | refl top c => exact ⟨hesp, fun _ _ ↦ rfl, rfl, rfl⟩
  | step _ hstep ih =>
    have hd := ih hesp hlim hkernel
    exact hd.trans (hinst _ _ _ hstep hd.esp hlim)
  | @interrupt top v c d h code esp0 entry handler back _ hcode hroom _ hret ih ihnested =>
    have hd := ih hesp hlim hkernel
    have hdesp := hd.esp
    have hlevel : rpl d.cs = 0 := hd.cs ▸ hkernel
    obtain ⟨_, _, hentry⟩ := intrEntry_kernel (a := d.esp.toNat - 72) esp0 entry handler back hcode
      hlevel (by omega)
    have hentryEsp := hentry.onStack.1
    have hnested := ihnested (by omega) (by omega) (by rw [intrEntry_segments.1]; decide)
    obtain ⟨hregs, hmem⟩ := interrupt_kernel hcode hlevel hroom (by omega) hnested hret
    refine hd.trans ⟨?_, hmem.sub hdesp (by omega), ?_, ?_⟩
    · rw [hregs]
      exact hdesp
    · exact congrArg Regs.cs hregs
    · exact congrArg Regs.ss hregs

/-- An interrupt in user mode. -/
theorem interrupt_user (hcode : code.isSome = true ↔ v ∈ errorCodes) (huser : rpl u.cs = 3)
    (hroom : 80 ≤ esp0.toNat) (hlim : esp0.toNat ≤ lim)
    (hkeep : Keeps lim (esp0.toNat - 76)
      ((u.deliver esp0 entry code).intrEntry v handler back) h)
    (hret : h.esp.toNat = esp0.toNat - 76) :
    h.intrExit.toRegs = u.toRegs ∧ Agree u.mem h.intrExit.mem esp0.toNat (lim - esp0.toNat) := by
  obtain ⟨d, e, hentry⟩ := intrEntry_user (a := esp0.toNat - 80) esp0 entry handler back hcode huser
    (by omega)
  have hlt := esp0.isLt
  have hfour : esp0.toNat - 76 = esp0.toNat - 80 + 4 := by omega
  rw [hfour] at hkeep
  have hlen : (intrFrame (BitVec.ofNat 32 v) d e u.toRegs).length = 19 := rfl
  obtain ⟨hframe, hmem⟩ := hentry.kept hkeep (by omega) (by omega)
  rw [← hfour] at hframe
  rw [Nat.sub_add_cancel hroom] at hmem
  have hcs : rpl h.cs = 0 := by
    rw [hkeep.cs, intrEntry_segments.1]
    decide
  refine ⟨intrExit_frame ⟨hret, hframe⟩ (by omega) hcs huser, ?_⟩
  rw [intrExit_mem]
  exact hmem

/-- Whatever an interrupt interrupts, user code or the kernel, goes on with its registers and its
stack, even if the handler is interrupted as well. -/
theorem interrupt_transparent
    (hinst : ∀ top c d, inst top c d → c.esp.toNat ≤ top → top ≤ lim → Keeps lim top c d)
    (hcode : code.isSome = true ↔ v ∈ errorCodes) (hlevel : rpl u.cs = 3 ∨ rpl u.cs = 0)
    (hroom : u.frameBytes ≤ u.stackTop esp0) (hlim : u.stackTop esp0 ≤ lim)
    (hrun : Runs inst (u.stackTop esp0 - u.frameBytes + 4)
      ((u.deliver esp0 entry code).intrEntry v handler back) h)
    (hret : h.esp.toNat = u.stackTop esp0 - u.frameBytes + 4) :
    h.intrExit.toRegs = u.toRegs ∧
      Agree u.mem h.intrExit.mem (u.stackTop esp0) (lim - u.stackTop esp0) := by
  have hcs : rpl ((u.deliver esp0 entry code).intrEntry v handler back).cs = 0 := by
    rw [intrEntry_segments.1]
    decide
  rcases hlevel with huser | hkernel
  · have htop : u.stackTop esp0 = esp0.toNat := if_pos huser
    have hbytes : u.frameBytes = 80 := if_pos huser
    rw [htop] at hroom hlim hrun hret ⊢
    rw [hbytes] at hroom hrun hret
    obtain ⟨_, _, hentry⟩ := intrEntry_user (a := esp0.toNat - 80) esp0 entry handler back hcode huser
      (by omega)
    have hesp := hentry.onStack.1
    rw [show esp0.toNat - 80 + 4 = esp0.toNat - 76 by omega] at hrun hret
    exact interrupt_user hcode huser hroom hlim (hrun.keeps hinst (by omega) (by omega) hcs) hret
  · have hne : rpl u.cs ≠ 3 := by
      rw [hkernel]
      decide
    have htop : u.stackTop esp0 = u.esp.toNat := if_neg hne
    have hbytes : u.frameBytes = 72 := if_neg hne
    rw [htop] at hroom hlim hrun hret ⊢
    rw [hbytes] at hroom hrun hret
    obtain ⟨_, _, hentry⟩ := intrEntry_kernel (a := u.esp.toNat - 72) esp0 entry handler back hcode
      hkernel (by omega)
    have hesp := hentry.onStack.1
    rw [show u.esp.toNat - 72 + 4 = u.esp.toNat - 68 by omega] at hrun hret
    exact interrupt_kernel hcode hkernel hroom hlim (hrun.keeps hinst (by omega) (by omega) hcs) hret

/-- The kernel, interrupted by the clock. -/
def clocked : Core where
  edi := 1
  esi := 2
  ebp := 0xc009efc0
  esp := 0xc009ef00
  ebx := 3
  edx := 4
  ecx := 5
  eax := 6
  eip := 0xc0001500
  eflags := 0x202
  cs := selectorKCode
  ss := selectorKStack
  ds := selectorKStack
  es := selectorKStack
  fs := selectorKStack
  gs := 0x18
  mem := fun _ ↦ 0

/-- A handler that returns at once, as a step of its own. -/
def retStep (top : ℕ) (c d : Core) : Prop := c.esp.toNat + 4 ≤ top ∧ d = c.ret

theorem retStep_keeps (lim top : ℕ) (c d : Core) (hstep : retStep top c d) (_ : c.esp.toNat ≤ top)
    (_ : top ≤ lim) : Keeps lim top c d := by
  obtain ⟨htop, rfl⟩ := hstep
  refine ⟨?_, fun _ _ ↦ rfl, rfl, rfl⟩
  change (c.esp + 4).toNat ≤ top
  rw [BitVec.toNat_add]
  exact (Nat.mod_le _ _).trans htop

theorem interrupt_transparent_clocked :
    ((clocked.deliver 0 0xc0001600 none).intrEntry 0x20 0xc0001700 0xc0001610).ret.intrExit.toRegs =
      clocked.toRegs :=
  (interrupt_transparent (retStep_keeps 0xc009f000) (by decide) (.inr (by decide)) (by decide)
    (by decide) (.step (.refl _ _) ⟨by decide, rfl⟩) (by decide)).1

end Transparency

end Core

end GlowOS
