import Mathlib
import GlowOS.Kernel.Debug
import GlowOS.Kernel.Entry
import GlowOS.Lib.Scan

/-!
# Forking

`sys_fork` copies the page of the running process, which holds its `task_struct` and its kernel
stack with the frame of the system call on top. `build_child_stack` then puts a `thread_stack` below
the copied frame, so that `switch_to` will return into `intr_exit`. So the registers that the child
starts with are those in the parent's frame, with 0 for the result.

What else the kernel does during the call is left open: `SysFork` only says which bytes of the two
pages it leaves alone.
-/

namespace GlowOS

open Bytes Scan Core

/-! ## The process control block -/

/-- Write two bytes. -/
def setHalf (f : Image) (a : ℕ) (w : BitVec 16) : Image :=
  splice f a 2 fun i ↦ UInt8.ofNat (w.toNat / 2 ^ (8 * i))

/-- Read two bytes. -/
def half (f : Image) (a : ℕ) : BitVec 16 :=
  BitVec.ofNat 16 ((f a).toNat + 256 * (f (a + 1)).toNat)

/-- The field `pid` of a thread. -/
def pidOf (f : Image) (thread : ℕ) : BitVec 16 := half f (thread + 4)

/-- `list_init`. -/
def listInit (f : Image) (list : ℕ) : Image :=
  let f₁ := setWord f list 0
  let f₂ := setWord f₁ (list + 4) (list + 8)
  let f₃ := setWord f₂ (list + 8) list
  setWord f₃ (list + 12) 0

/-- One round of `block_desc_init`. -/
def initDesc (descArray : ℕ) (f : Image) (descIdx : ℕ) : Image :=
  let desc := descArray + 24 * descIdx
  let blockSize := 16 * 2 ^ descIdx
  let f₁ := setWord f desc blockSize
  let f₂ := setWord f₁ (desc + 4) ((4096 - 12) / blockSize)
  listInit f₂ (desc + 8)

/-- `block_desc_init`. -/
def blockDescInit (f : Image) (descArray : ℕ) : Image :=
  (List.range 7).foldl (initDesc descArray) f

/-- `strlen`, as far as the assertion on the name needs it. -/
def nameLen (f : Image) (name : ℕ) : Option ℕ := firstFrom (fun i ↦ f (name + i) == 0) 11 0

/-- `copy_pcb_vaddrbitmap_stack0`, as far as the page of the child is concerned. The pages at
`vaddrBtmp` are elsewhere. -/
def copyPcbVaddrbitmapStack0 (f : Image) (child parent : ℕ) (pid : BitVec 16)
    (vaddrBtmp : BitVec 32) : Except Fault Image :=
  let f := splice f child 4096 fun i ↦ f (parent + i)
  let f := setHalf f (child + 4) pid
  let f := setWord f (child + 32) 0
  let f := setWord f (child + 8) 1
  let f := splice f (child + 29) 1 fun _ ↦ f (child + 12)
  let f := setHalf f (child + 272) (pidOf f parent)
  let f := setWord (setWord f (child + 72) 0) (child + 68) 0
  let f := setWord (setWord f (child + 80) 0) (child + 76) 0
  let f := blockDescInit f (child + 100)
  let f := setWord f (child + 92) vaddrBtmp.toNat
  match nameLen f (child + 13) with
  | none => .error Fault.assert
  | some n => .ok (splice f (child + 13 + n) 6 fun i ↦ ([95, 102, 111, 114, 107, 0] : List UInt8)[i]!)

/-- `build_child_stack`. -/
def buildChildStack (f : Image) (child : ℕ) (intrExit : BitVec 32) : Image :=
  let intr0Stack := child + 4096 - 76
  let f := setWord f (intr0Stack + 8 * 4) 0
  let f := setWord f (intr0Stack - 1 * 4) intrExit.toNat
  let f := setWord f (intr0Stack - 5 * 4) 0
  let f := setWord f (intr0Stack - 4 * 4) 0
  let f := setWord f (intr0Stack - 3 * 4) 0
  let f := setWord f (intr0Stack - 2 * 4) 0
  setWord f child (intr0Stack - 5 * 4)

/-! ### What the copy leaves alone -/

section Copy

variable {f g : Image} {child parent list lo hi : ℕ} {pid : BitVec 16} {btmp : BitVec 32}

theorem listInit_differsIn (h₁ : lo ≤ list) (h₂ : list + 16 ≤ hi) :
    DiffersIn lo hi f (listInit f list) :=
  (((DiffersIn.setWord h₁ (by omega)).trans (DiffersIn.setWord (by omega) (by omega))).trans
    (DiffersIn.setWord (by omega) (by omega))).trans (DiffersIn.setWord (by omega) (by omega))

theorem blockDescInit_differsIn (h₁ : lo ≤ list) (h₂ : list + 168 ≤ hi) :
    DiffersIn lo hi f (blockDescInit f list) := by
  have hrun : ∀ n ≤ 7, DiffersIn lo hi f ((List.range n).foldl (initDesc list) f) := by
    intro n hn
    induction n with
    | zero => exact DiffersIn.refl lo hi f
    | succ n ih =>
      rw [List.range_succ, List.foldl_append]
      refine (ih (by omega)).trans ?_
      exact ((DiffersIn.setWord (by omega) (by omega)).trans
        (DiffersIn.setWord (by omega) (by omega))).trans
          (listInit_differsIn (by omega) (by omega))
  exact hrun 7 (le_refl 7)

theorem setHalf_differsIn {a : ℕ} (h₁ : lo ≤ a) (h₂ : a + 2 ≤ hi) {w : BitVec 16} :
    DiffersIn lo hi f (setHalf f a w) := DiffersIn.splice h₁ h₂

/-- After the page was copied, only the fields of the `task_struct` are assigned. -/
theorem copyPcb_differsIn (h : copyPcbVaddrbitmapStack0 f child parent pid btmp = .ok g) :
    DiffersIn child (child + 280) (splice f child 4096 fun i ↦ f (parent + i)) g := by
  rw [copyPcbVaddrbitmapStack0] at h
  split at h
  · cases h
  · rename_i n hn
    obtain ⟨-, hlt, -⟩ := firstFrom_eq_some.mp hn
    obtain rfl := Except.ok.inj h
    refine DiffersIn.trans ?_ (DiffersIn.splice (by omega) (by omega))
    refine DiffersIn.trans ?_ (DiffersIn.setWord (by omega) (by omega))
    refine DiffersIn.trans ?_ (blockDescInit_differsIn (by omega) (by omega))
    refine DiffersIn.trans ?_ (DiffersIn.setWord (by omega) (by omega))
    refine DiffersIn.trans ?_ (DiffersIn.setWord (by omega) (by omega))
    refine DiffersIn.trans ?_ (DiffersIn.setWord (by omega) (by omega))
    refine DiffersIn.trans ?_ (DiffersIn.setWord (by omega) (by omega))
    refine DiffersIn.trans ?_ (setHalf_differsIn (by omega) (by omega))
    refine DiffersIn.trans ?_ (DiffersIn.splice (by omega) (by omega))
    refine DiffersIn.trans ?_ (DiffersIn.setWord (by omega) (by omega))
    refine DiffersIn.trans ?_ (DiffersIn.setWord (by omega) (by omega))
    exact setHalf_differsIn (by omega) (by omega)

/-- The words of the parent's stack stand at the same place of the child's page. -/
theorem copyPcb_words (h : copyPcbVaddrbitmapStack0 f child parent pid btmp = .ok g) {o : ℕ}
    {ws : List (BitVec 32)} (hws : WordsAt f (parent + o) ws) (ho : 280 ≤ o)
    (hlen : o + 4 * ws.length ≤ 4096) : WordsAt g (child + o) ws := by
  refine hws.congr fun i hi ↦ ?_
  rw [copyPcb_differsIn h _ (.inr (by omega)), splice_of_mem (by omega) (by omega)]
  exact congrArg f (by omega)

theorem buildChildStack_eq (exit : BitVec 32) : buildChildStack f child exit =
    setWord (setWord (setWord (setWord (setWord (setWord (setWord f (child + 4052) 0)
      (child + 4016) exit.toNat) (child + 4000) 0) (child + 4004) 0) (child + 4008) 0)
        (child + 4012) 0) child (child + 4000) := by
  have h1 : child + 4096 - 76 = child + 4020 := by omega
  rw [buildChildStack, h1]
  rfl

theorem le32_setWord_of_disjoint {a b w : ℕ} (h : b + 4 ≤ a ∨ a + 4 ≤ b) :
    le32 (setWord f a w) b = le32 f b := le32_splice_of_disjoint h

/-- `build_child_stack` puts a `thread_stack` below the frame and clears its `eax`. -/
theorem buildChildStack_words (exit : BitVec 32) {v d e : BitVec 32} {r : Regs} (hlt : child + 4096 ≤ 2 ^ 32)
    (h : WordsAt f (child + 4020) (intrFrame v d e r)) :
    WordsAt (buildChildStack f child exit) (child + 4000)
      (0 :: 0 :: 0 :: 0 :: exit :: intrFrame v d e { r with eax := 0 }) ∧
    le32 (buildChildStack f child exit) child = child + 4000 := by
  have hframe := h.set (i := 8) (show 8 < 19 by decide) 0
  have hexit := WordsAt.push (a := child + 4016) hframe exit
  -- the words written after `exit` stand below it
  have hbelow : DiffersIn child (child + 4016)
      (setWord (setWord f (child + 4052) 0) (child + 4016) exit.toNat)
      (buildChildStack f child exit) := by
    rw [buildChildStack_eq]
    refine DiffersIn.trans ?_ (DiffersIn.setWord (by omega) (by omega))
    refine DiffersIn.trans ?_ (DiffersIn.setWord (by omega) (by omega))
    refine DiffersIn.trans ?_ (DiffersIn.setWord (by omega) (by omega))
    refine DiffersIn.trans ?_ (DiffersIn.setWord (by omega) (by omega))
    exact DiffersIn.setWord (by omega) (by omega)
  refine ⟨⟨?_, ?_, ?_, ?_, hexit.agree (hbelow.agree (.inr (by omega)))⟩, ?_⟩
  all_goals rw [buildChildStack_eq]
  · rw [le32_setWord_of_disjoint (by omega), le32_setWord_of_disjoint (by omega),
      le32_setWord_of_disjoint (by omega), le32_setWord_of_disjoint (by omega)]
    exact le32_setWord (by decide)
  · rw [le32_setWord_of_disjoint (by omega), le32_setWord_of_disjoint (by omega),
      le32_setWord_of_disjoint (by omega)]
    exact le32_setWord (by decide)
  · rw [le32_setWord_of_disjoint (by omega), le32_setWord_of_disjoint (by omega)]
    exact le32_setWord (by decide)
  · rw [le32_setWord_of_disjoint (by omega)]
    exact le32_setWord (by decide)
  · exact le32_setWord (by omega)

theorem buildChildStack_differsIn (exit : BitVec 32) :
    DiffersIn child (child + 4096) f (buildChildStack f child exit) := by
  rw [buildChildStack_eq]
  refine DiffersIn.trans ?_ (DiffersIn.setWord (by omega) (by omega))
  refine DiffersIn.trans ?_ (DiffersIn.setWord (by omega) (by omega))
  refine DiffersIn.trans ?_ (DiffersIn.setWord (by omega) (by omega))
  refine DiffersIn.trans ?_ (DiffersIn.setWord (by omega) (by omega))
  refine DiffersIn.trans ?_ (DiffersIn.setWord (by omega) (by omega))
  refine DiffersIn.trans ?_ (DiffersIn.setWord (by omega) (by omega))
  exact DiffersIn.setWord (by omega) (by omega)

end Copy

/-! ## The call -/

/-- The kernel leaves alone what stands on the stack of a page from `esp` on. -/
def KeepsStack (esp page : ℕ) (f g : Image) : Prop := Agree f g esp (page + 4096 - esp)

/-- `sys_fork` from its first instruction in `c` to its return in `c'`, when it succeeds. It puts its
own frames below the stack pointer. Around the steps named here other memory may change, also by
threads that run while the call waits for a lock: the page of the child is in no list before the
end, and then only its two tags are assigned. -/
structure SysFork (parent child : ℕ) (sysFork intrExit : BitVec 32) (c c' : Core) : Prop where
  entry : c.eip = sysFork
  esp : c'.esp = c.esp + 4
  cs : c'.cs = c.cs
  eax : c'.eax = (pidOf c'.mem child).signExtend 32
  mem : ∃ f₁ f₂ f₃ pid vaddrBtmp, ∃ pgdir : BitVec 32,
    KeepsStack c.esp.toNat parent c.mem f₁ ∧
    copyPcbVaddrbitmapStack0 f₁ child parent pid vaddrBtmp = .ok f₂ ∧
    KeepsStack c.esp.toNat parent f₂ f₃ ∧ Agree f₂ f₃ child 4096 ∧
    let f₄ := buildChildStack (setWord f₃ (child + 84) pgdir.toNat) child intrExit
    KeepsStack c.esp.toNat parent f₄ c'.mem ∧ Agree f₄ c'.mem child 68 ∧
      Agree f₄ c'.mem (child + 84) (4096 - 84)

/-- `schedule`, running in the thread `cur`, has called `switch_to` for the child. -/
structure Dispatch (cur child : ℕ) (d : Core) : Prop where
  page : cur % 4096 = 0
  fits : cur + 4096 ≤ 2 ^ 32
  ne : cur ≠ child
  level : rpl d.cs = 0
  args : ∃ a back, d.OnStack (a + 16) [back, BitVec.ofNat 32 cur, BitVec.ofNat 32 child] ∧
    cur + 4 ≤ a ∧ a + 28 ≤ cur + 4096

section Call

variable {parent child : ℕ} {u c d : Core} {esp0 entry back sysFork exit : BitVec 32}
  {table : BitVec 32 → BitVec 32}

/-- What a successful `sys_fork` leaves on the two stacks. -/
theorem sysFork_stacks (hp : parent % 4096 = 0) (hc : child % 4096 = 0) (hne : parent ≠ child)
    (hpl : parent + 4096 < 2 ^ 32) (hcl : child + 4096 ≤ 2 ^ 32) (huser : rpl u.cs = 3)
    (htop : esp0.toNat = parent + 4096)
    (h : SysFork parent child sysFork exit ((u.int esp0 entry).syscallHandler table back) c) :
    ∃ v, c.OnStack (parent + 4008) (u.ebx :: u.ecx :: u.edx :: intrFrame 0x80 v 0 u.toRegs) ∧
      WordsAt c.mem (child + 4000)
        (0 :: 0 :: 0 :: 0 :: exit :: intrFrame 0x80 v 0 { u.toRegs with eax := 0 }) ∧
      le32 c.mem child = child + 4000 := by
  obtain ⟨v, hesp, hws⟩ := syscallHandler_frame (a := parent + 4004) table entry back huser htop
  obtain ⟨f₁, f₂, f₃, pid, btmp, pgdir, h1, h2, h3, h4, h5, h6, h7⟩ := h.mem
  rw [KeepsStack, hesp] at h1 h3 h5
  have hlen : 4 * (back :: u.ebx :: u.ecx :: u.edx :: intrFrame 0x80 v 0 u.toRegs).length =
      parent + 4096 - (parent + 4004) := by
    rw [show parent + 4096 - (parent + 4004) = 92 by omega]
    rfl
  rw [← hlen] at h1 h3 h5
  have w1 := hws.agree h1
  -- the copy, and the fields assigned after it, are in the page of the child
  have hcopy : Agree f₁ f₂ (parent + 4004)
      (4 * (back :: u.ebx :: u.ecx :: u.edx :: intrFrame 0x80 v 0 u.toRegs).length) := by
    refine (agree_splice (o := child) (n := 4096) ?_).trans
      ((copyPcb_differsIn h2).agree ?_) <;> rw [hlen] <;> omega
  have w3 := (w1.agree hcopy).agree h3
  have hbuild : DiffersIn child (child + 4096) f₃
      (buildChildStack (setWord f₃ (child + 84) pgdir.toNat) child exit) :=
    (DiffersIn.setWord (by omega) (by omega)).trans (buildChildStack_differsIn exit)
  have w4 := (w3.agree (hbuild.agree (by rw [hlen]; omega))).agree h5
  have v1 : WordsAt f₁ (parent + 4020) (intrFrame 0x80 v 0 u.toRegs) := w1.drop 4
  have v2 := copyPcb_words h2 v1 (by decide) (show 4020 + 4 * 19 ≤ 4096 by decide)
  have v3 := v2.agree (h4.sub (by omega) (by change _ + 76 ≤ _; omega))
  have hpgdir : DiffersIn child (child + 88) f₃ (setWord f₃ (child + 84) pgdir.toNat) :=
    DiffersIn.setWord (by omega) (by omega)
  obtain ⟨v4, hk⟩ := buildChildStack_words exit hcl (v3.agree (hpgdir.agree (.inr (by omega))))
  refine ⟨v, ⟨?_, w4.2⟩, v4.agree (h7.sub (by omega) (by change _ + 96 ≤ _; omega)), ?_⟩
  · rw [h.esp, BitVec.toNat_add, hesp]
    exact Nat.mod_eq_of_lt (show parent + 4004 + 4 < 2 ^ 32 by omega)
  · rw [h6.le32 (le_refl _) (by omega), hk]

/-- In the handler, and in what it calls, the processor is at the level of the kernel. -/
theorem sysFork_level (huser : rpl u.cs = 3)
    (h : SysFork parent child sysFork exit ((u.int esp0 entry).syscallHandler table back) c) :
    rpl c.cs = 0 := by
  have hcs : ((u.int esp0 entry).syscallHandler table back).cs = selectorKCode := by
    rw [int, if_pos huser]
    rfl
  rw [h.cs, hcs]
  decide

/-- The result goes into the frame, from which `intr_exit` takes the registers. -/
theorem syscallReturn_frame {a : ℕ} {w₁ w₂ w₃ v d e : BitVec 32} {r : Regs}
    (h : c.OnStack a (w₁ :: w₂ :: w₃ :: intrFrame v d e r)) (hlt : a + 88 ≤ 2 ^ 32)
    (hkernel : rpl c.cs = 0) (huser : rpl r.cs = 3) :
    c.syscallReturn.toRegs = { r with eax := c.eax } := by
  have hesp : (c.addEsp 12).OnStack (a + 12) (intrFrame v d e r) :=
    ⟨h.toNat_add (n := 12) (by omega), h.2.drop 3⟩
  have haddr : ((c.addEsp 12).esp + 8 * 4).toNat = a + 12 + 4 * 8 :=
    hesp.toNat_add (n := 32) (by omega)
  have hstore : ((c.addEsp 12).store ((c.addEsp 12).esp + 8 * 4) c.eax).OnStack (a + 12)
      (intrFrame v d e { r with eax := c.eax }) := by
    refine ⟨hesp.1, ?_⟩
    change WordsAt (setWord (c.addEsp 12).mem ((c.addEsp 12).esp + 8 * 4).toNat c.eax.toNat) _ _
    rw [haddr]
    exact hesp.2.set (show 8 < 19 by decide) c.eax
  exact intrExit_frame hstore (by omega) hkernel huser

/-- **Both return to user mode behind the call**, the parent with the number of the child and the
child with 0, and otherwise with the registers of the call. -/
theorem fork_resumes (hp : parent % 4096 = 0) (hc : child % 4096 = 0) (hne : parent ≠ child)
    (hpl : parent + 4096 < 2 ^ 32) (hcl : child + 4096 ≤ 2 ^ 32) (huser : rpl u.cs = 3)
    (htop : esp0.toNat = parent + 4096)
    (h : SysFork parent child sysFork exit ((u.int esp0 entry).syscallHandler table back) c) :
    c.syscallReturn.toRegs = { u.toRegs with eax := (pidOf c.mem child).signExtend 32 } ∧
    ∀ cur d, Dispatch cur child d → Agree c.mem d.mem child 4 →
      Agree c.mem d.mem (child + 4000) 96 →
      d.switchTo.eip = exit ∧ d.switchTo.intrExit.toRegs = { u.toRegs with eax := 0 } := by
  obtain ⟨v, hparent, hchild, hkstack⟩ := sysFork_stacks hp hc hne hpl hcl huser htop h
  constructor
  · have hret := syscallReturn_frame hparent (by omega) (sysFork_level huser h) huser
    rw [hret, h.eax]
  · intro cur d hd hk hstack
    obtain ⟨a, b, hargs, ha, hb⟩ := hd.args
    have hpage := hd.page
    have hfits := hd.fits
    have hdiff := hd.ne
    have hcur : (BitVec.ofNat 32 cur).toNat = cur := Nat.mod_eq_of_lt (by omega)
    have hchild' : (BitVec.ofNat 32 child).toNat = child := Nat.mod_eq_of_lt (by omega)
    have hsaved : le32 d.mem (BitVec.ofNat 32 child).toNat = child + 4000 := by
      rw [hchild', hk.le32 (le_refl _) (le_refl _), hkstack]
    have hlen : (intrFrame 0x80 v 0 { u.toRegs with eax := 0 }).length = 19 := rfl
    obtain ⟨heip, hcs, hwords, hesp⟩ := switchTo_spec hargs (by omega) (by omega) (by omega) hsaved
      (hchild.agree hstack) (by rw [hchild', hcur]; omega) (by rw [hcur, hlen]; omega)
    have hframe : d.switchTo.OnStack (child + 4020)
        (intrFrame 0x80 v 0 { u.toRegs with eax := 0 }) := by
      refine ⟨?_, hwords.drop 5⟩
      have h20 : (20 : BitVec 32).toNat = 20 := rfl
      rw [hesp, BitVec.toNat_add, BitVec.toNat_ofNat, h20]
      omega
    exact ⟨heip, intrExit_frame hframe (by omega) (hcs ▸ hd.level) huser⟩

/-! ### A call of a process whose registers are zero -/

/-- User mode, with `SYS_FORK` in `eax`. -/
def Core.caller : Core where
  edi := 0
  esi := 0
  ebp := 0
  esp := 0xbffff000
  ebx := 0
  edx := 0
  ecx := 0
  eax := 4
  eip := 0x8048000
  eflags := 0x202
  cs := 0x2b
  ss := 0x33
  ds := 0x33
  es := 0x33
  fs := 0x33
  gs := 0
  mem := fun _ ↦ 0

theorem fork_resumes_caller : ∃ c : Core, c.syscallReturn.toRegs =
    { Core.caller.toRegs with eax := (pidOf c.mem 0xc0111000).signExtend 32 } := by
  let c₀ := (Core.caller.int 0xc0111000 0).syscallHandler (fun _ ↦ 1) 2
  have hcopy : (copyPcbVaddrbitmapStack0 c₀.mem 0xc0111000 0xc0110000 5 0).toOption.isSome = true :=
    by decide +kernel
  cases hg : copyPcbVaddrbitmapStack0 c₀.mem 0xc0111000 0xc0110000 5 0 with
  | error e =>
    rw [hg] at hcopy
    cases hcopy
  | ok g =>
    have hfork : SysFork 0xc0110000 0xc0111000 1 3 c₀
        { c₀ with
          esp := c₀.esp + 4
          eax := (pidOf (buildChildStack (setWord g (0xc0111000 + 84) 0) 0xc0111000 3)
            0xc0111000).signExtend 32
          mem := buildChildStack (setWord g (0xc0111000 + 84) 0) 0xc0111000 3 } :=
      ⟨rfl, rfl, rfl, rfl, c₀.mem, g, g, 5, 0, 0, fun _ _ ↦ rfl, hg, fun _ _ ↦ rfl,
        fun _ _ ↦ rfl, fun _ _ ↦ rfl, fun _ _ ↦ rfl, fun _ _ ↦ rfl⟩
    exact ⟨_, (fork_resumes (by decide) (by decide) (by decide) (by decide) (by decide)
      (by decide) rfl hfork).1⟩

end Call

end GlowOS
