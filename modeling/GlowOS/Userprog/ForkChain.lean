import Mathlib
import GlowOS.Userprog.Fork

/-!
# Chains of forks

The processes that descend from `init`, each made by `sys_fork` in a process that was there before.
Memory is that of the kernel, with a page for each process. Between two forks it may change, but the
name of a process stays, its page directory is there, and its descriptors are such as the file
system hands them out. There is memory enough: the pages a fork asks for are given to it.

The assertion in `copy_pcb_vaddrbitmap_stack0` looks at the length of a name before the suffix is
appended. The name is that of the parent, so it grows by five bytes in each generation. The names of
the first three generations are `init`, `init_fork` and `init_fork_fork`, and the last one is too
long for a fork.
-/

namespace GlowOS

open Bytes Scan Core Relation

/-! ## Processes and forks -/

/-- The processes: kernel memory, the pages of all threads and of those that are ready, and the
generation of each process. -/
structure Family where
  mem : Image
  all : List ℕ
  ready : List ℕ
  gen : ℕ → ℕ

/-- What a call of `sys_fork` is given: the page of the child, a number for it, its virtual bitmap
and its page directory; and the address of `intr_exit`. -/
structure ForkResources where
  child : ℕ
  pid : BitVec 16
  vaddrBtmp : BitVec 32
  pgdir : BitVec 32
  intrExit : BitVec 32

/-- The assertion in `updata_inode_open_cnts`, with a descriptor that is a signed word. -/
def FdOk (w : ℕ) : Prop := w < 32 ∨ 2 ^ 31 ≤ w

instance (w : ℕ) : Decidable (FdOk w) := inferInstanceAs (Decidable (_ ∨ _))

/-- The loop of `updata_inode_open_cnts`; the counts are elsewhere. -/
def Family.updataInodeOpenCnts (f : Image) (thread : ℕ) : Except Fault PUnit :=
  if ∀ localFd ∈ List.range' 3 5, FdOk (le32 f (thread + 36 + 4 * localFd)) then .ok ()
  else .error Fault.assert

/-- `sys_fork` of the process `parent`, as far as the pages of the processes and the two lists of
threads are concerned. -/
def Family.sysFork (s : Family) (parent : ℕ) (r : ForkResources) : Except Fault Family := do
  if le32 s.mem (parent + 84) = 0 then throw Fault.assert
  let f ← copyPcbVaddrbitmapStack0 s.mem r.child parent r.pid r.vaddrBtmp
  let f := setWord f (r.child + 84) r.pgdir.toNat
  let f := buildChildStack f r.child r.intrExit
  Family.updataInodeOpenCnts f r.child
  if r.child ∈ s.ready then throw Fault.assert
  if r.child ∈ s.all then throw Fault.assert
  pure
    { mem := f
      all := s.all ++ [r.child]
      ready := s.ready ++ [r.child]
      gen := Function.update s.gen r.child (s.gen parent + 1) }

/-- The allocations succeeded: the child has a page that no thread has, and a page directory. -/
structure ForkResources.Given (r : ForkResources) (s : Family) : Prop where
  aligned : r.child % 4096 = 0
  new : r.child ∉ s.all
  notReady : r.child ∉ s.ready
  pgdir : r.pgdir ≠ 0

/-- What `sys_fork` finds in the page of its parent, whatever the processes have done. -/
structure PcbOk (f : Image) (thread : ℕ) : Prop where
  pgdir : le32 f (thread + 84) ≠ 0
  fds : ∀ localFd ∈ List.range' 3 5, FdOk (le32 f (thread + 36 + 4 * localFd))

/-- A fork, or anything else that the processes and the kernel do. -/
inductive FamilyStep : Family → Family → Prop
  | fork {s s' : Family} {parent : ℕ} {r : ForkResources} (hparent : parent ∈ s.all)
      (hr : r.Given s) (h : Family.sysFork s parent r = .ok s') : FamilyStep s s'
  | other {s s' : Family} (hall : s'.all = s.all) (hgen : s'.gen = s.gen)
      (hname : ∀ p ∈ s.all, Agree s.mem s'.mem (p + 13) 16) (hok : ∀ p ∈ s.all, PcbOk s'.mem p) :
      FamilyStep s s'

/-- A byte of the name of the `d`-th generation, which is followed by a NUL. -/
def nameByte (d i : ℕ) : UInt8 :=
  if i < 4 then ([105, 110, 105, 116] : List UInt8)[i]!
  else if i < 4 + 5 * d then ([95, 102, 111, 114, 107] : List UInt8)[(i - 4) % 5]!
  else 0

/-- The name of a thread is that of the `d`-th generation. -/
def HasName (f : Image) (thread d : ℕ) : Prop := ∀ i ≤ 4 + 5 * d, f (thread + 13 + i) = nameByte d i

/-- Only `init` is there. -/
structure Family.Init (s : Family) (init : ℕ) : Prop where
  all : s.all = [init]
  aligned : init % 4096 = 0
  gen : s.gen init = 0
  name : HasName s.mem init 0
  ok : PcbOk s.mem init

/-- The name of a thread ends inside its field. -/
def NameTerminated (f : Image) (thread : ℕ) : Prop := ∃ i < 16, f (thread + 13 + i) = 0

/-- A fork succeeds, whatever it is given. -/
def ForkSucceeds (s : Family) (parent : ℕ) : Prop :=
  ∀ r : ForkResources, r.Given s → ∃ s', Family.sysFork s parent r = .ok s'

/-! ## Names -/

theorem nameByte_ne_zero {d i : ℕ} (h : i < 4 + 5 * d) : nameByte d i ≠ 0 := by
  rw [nameByte, if_pos h]
  split
  · next hi => interval_cases i <;> decide
  · have hlt : (i - 4) % 5 < 5 := Nat.mod_lt _ (by decide)
    interval_cases (i - 4) % 5 <;> decide

theorem nameByte_end (d : ℕ) : nameByte d (4 + 5 * d) = 0 := by
  rw [nameByte, if_neg (by omega), if_neg (lt_irrefl _)]

theorem nameByte_succ_of_lt {d i : ℕ} (h : i < 4 + 5 * d) : nameByte (d + 1) i = nameByte d i := by
  rw [nameByte, nameByte, if_pos h, if_pos (show i < 4 + 5 * (d + 1) by omega)]

/-- The suffix that a generation adds, with the NUL behind it. -/
theorem nameByte_suffix {d i : ℕ} (h : i < 6) : nameByte (d + 1) (4 + 5 * d + i) =
    ([95, 102, 111, 114, 107, 0] : List UInt8)[i]! := by
  by_cases hi : i = 5
  · rw [hi, nameByte, if_neg (by omega), if_neg (by omega)]
    rfl
  · have hmod : (4 + 5 * d + i - 4) % 5 = i := by omega
    rw [nameByte, if_neg (by omega), if_pos (by omega), hmod]
    have hlt : i < 5 := by omega
    interval_cases i <;> rfl

section Copy

variable {f g : Image} {child parent thread d : ℕ} {pid : BitVec 16} {btmp : BitVec 32}

/-- `strlen` of a name, if it is short. -/
theorem HasName.nameLen_eq (h : HasName f thread d) (hd : d < 2) :
    nameLen f (thread + 13) = some (4 + 5 * d) := by
  refine firstFrom_eq_some.mpr ⟨Nat.zero_le _, by omega, ?_, fun j _ hj ↦ ?_⟩
  · rw [h _ le_rfl, nameByte_end]
    rfl
  · rw [h j hj.le]
    exact beq_eq_false_iff_ne.mpr (nameByte_ne_zero hj)

/-- A name that is not short. -/
theorem HasName.nameLen_none (h : HasName f thread d) (hd : 2 ≤ d) :
    nameLen f (thread + 13) = none := by
  refine firstFrom_eq_none.mpr fun j _ hj ↦ ?_
  rw [h j (by omega)]
  exact beq_eq_false_iff_ne.mpr (nameByte_ne_zero (by omega))

/-- The fields of the parent that the copy leaves as they are: the name, the descriptors and the
page directory. -/
theorem copyPcb_fields (f : Image) (child parent : ℕ) (pid : BitVec 16) (btmp : BitVec 32) :
    ∃ h : Image, (copyPcbVaddrbitmapStack0 f child parent pid btmp =
        match nameLen h (child + 13) with
        | none => .error Fault.assert
        | some n => .ok (splice h (child + 13 + n) 6 fun i ↦
          ([95, 102, 111, 114, 107, 0] : List UInt8)[i]!)) ∧
      (∀ a, a < child ∨ child + 4096 ≤ a → h a = f a) ∧
      ∀ o, 13 ≤ o ∧ o < 29 ∨ 36 ≤ o ∧ o < 68 → h (child + o) = f (parent + o) := by
  refine ⟨_, rfl, fun a ha ↦ ?_, fun o ho ↦ ?_⟩
  · refine (splice_of_disjoint (by omega)).trans ?_
    refine (blockDescInit_differsIn le_rfl le_rfl a (by omega)).trans ?_
    iterate 8 refine (splice_of_disjoint (by omega)).trans ?_
    exact (splice_of_disjoint (by omega)).trans (splice_of_disjoint (by omega))
  · refine (splice_of_disjoint (by omega)).trans ?_
    refine (blockDescInit_differsIn le_rfl le_rfl (child + o) (by omega)).trans ?_
    iterate 9 refine (splice_of_disjoint (by omega)).trans ?_
    refine (splice_of_mem (by omega) (by omega)).trans ?_
    exact congrArg f (by omega)

/-- `build_child_stack` writes the first word of the page and the stack. -/
theorem buildChildStack_fields (f : Image) (child : ℕ) (exit : BitVec 32) {o : ℕ} (hlo : 4 ≤ o)
    (hhi : o < 4000) : buildChildStack f child exit (child + o) = f (child + o) := by
  rw [buildChildStack_eq]
  iterate 6 refine (splice_of_disjoint (by omega)).trans ?_
  exact splice_of_disjoint (by omega)

/-- The name grows by the suffix. -/
theorem copyPcb_name (hname : HasName f parent d) (hd : d < 2) :
    ∃ g, copyPcbVaddrbitmapStack0 f child parent pid btmp = .ok g ∧
      (∀ a, a < child ∨ child + 4096 ≤ a → g a = f a) ∧ HasName g child (d + 1) ∧
      ∀ o, 36 ≤ o → o < 68 → g (child + o) = f (parent + o) := by
  obtain ⟨h, heq, hout, hfields⟩ := copyPcb_fields f child parent pid btmp
  have hkept : HasName h child d := by
    intro i hi
    rw [Nat.add_assoc, hfields (13 + i) (by omega), ← Nat.add_assoc]
    exact hname i hi
  rw [hkept.nameLen_eq hd] at heq
  refine ⟨_, heq, fun a ha ↦ ?_, fun i hi ↦ ?_, fun o hlo hhi ↦ ?_⟩
  · rw [splice_of_disjoint (by omega)]
    exact hout a ha
  · by_cases hlt : i < 4 + 5 * d
    · rw [splice_of_disjoint (by omega), hkept i hlt.le, nameByte_succ_of_lt hlt]
    · have hsuffix := nameByte_suffix (d := d) (i := i - (4 + 5 * d)) (by omega)
      rw [Nat.add_sub_cancel' (by omega)] at hsuffix
      rw [splice_of_mem (by omega) (by omega), hsuffix]
      congr 1
      omega
  · rw [splice_of_disjoint (by omega)]
    exact hfields o (by omega)

theorem copyPcb_fails (hname : HasName f parent 2) :
    copyPcbVaddrbitmapStack0 f child parent pid btmp = .error Fault.assert := by
  obtain ⟨h, heq, -, hfields⟩ := copyPcb_fields f child parent pid btmp
  have hkept : HasName h child 2 := by
    intro i hi
    rw [Nat.add_assoc, hfields (13 + i) (by omega), ← Nat.add_assoc]
    exact hname i hi
  rw [heq, hkept.nameLen_none le_rfl]

end Copy

/-! ## One fork -/

section Fork

variable {s s' : Family} {parent d : ℕ} {r : ForkResources}

/-- What a fork leaves. -/
structure Forked (s s' : Family) (parent : ℕ) (r : ForkResources) : Prop where
  all : s'.all = s.all ++ [r.child]
  gen : s'.gen = Function.update s.gen r.child (s.gen parent + 1)
  mem : ∀ a, a < r.child ∨ r.child + 4096 ≤ a → s'.mem a = s.mem a

theorem Family.sysFork_ok (hname : HasName s.mem parent d) (hd : d < 2) (hok : PcbOk s.mem parent)
    (hr : r.Given s) : ∃ s', Family.sysFork s parent r = .ok s' ∧ Forked s s' parent r ∧
      HasName s'.mem r.child (d + 1) ∧ PcbOk s'.mem r.child := by
  obtain ⟨g, hcopy, hout, hnew, hfields⟩ :=
    @copyPcb_name s.mem r.child parent d r.pid r.vaddrBtmp hname hd
  set f := buildChildStack (setWord g (r.child + 84) r.pgdir.toNat) r.child r.intrExit with hf
  have hkeep : ∀ o, 4 ≤ o → o < 84 → f (r.child + o) = g (r.child + o) := by
    intro o hlo hhi
    rw [hf, buildChildStack_fields _ _ _ hlo (by omega), setWord, splice_of_disjoint (by omega)]
  have hfds : ∀ localFd ∈ List.range' 3 5, FdOk (le32 f (r.child + 36 + 4 * localFd)) := by
    intro fd hfd
    have hlt : 3 ≤ fd ∧ fd < 8 := by simpa using List.mem_range'_1.mp hfd
    have hword : le32 f (r.child + 36 + 4 * fd) = le32 s.mem (parent + 36 + 4 * fd) := by
      refine le32_congr fun i hi ↦ ?_
      have hbyte := (hkeep (36 + 4 * fd + i) (by omega) (by omega)).trans
        (hfields (36 + 4 * fd + i) (by omega) (by omega))
      simpa only [Nat.add_assoc] using hbyte
    rw [hword]
    exact hok.fds fd hfd
  have hpgdir : le32 f (r.child + 84) ≠ 0 := by
    have hword : le32 f (r.child + 84) =
        le32 (setWord g (r.child + 84) r.pgdir.toNat) (r.child + 84) := by
      refine le32_congr fun i hi ↦ ?_
      rw [Nat.add_assoc]
      exact buildChildStack_fields _ _ _ (by omega) (by omega)
    rw [hword, le32_setWord r.pgdir.isLt]
    exact fun h ↦ hr.pgdir (BitVec.eq_of_toNat_eq h)
  refine ⟨⟨f, s.all ++ [r.child], s.ready ++ [r.child],
    Function.update s.gen r.child (s.gen parent + 1)⟩, ?_, ⟨rfl, rfl, fun a ha ↦ ?_⟩,
    fun i hi ↦ ?_, hpgdir, hfds⟩
  · have hcounts : Family.updataInodeOpenCnts f r.child = .ok () := if_pos hfds
    simp only [Family.sysFork, hok.pgdir, if_false, hcopy, hr.notReady, hr.new]
    change (Family.updataInodeOpenCnts f r.child >>= fun _ ↦ pure _) = _
    rw [hcounts]
    rfl
  · have hstack := @buildChildStack_differsIn (setWord g (r.child + 84) r.pgdir.toNat) r.child
      r.intrExit a (by omega)
    dsimp only
    rw [hf, hstack, setWord, splice_of_disjoint (by omega)]
    exact hout a ha
  · have hbyte := hkeep (13 + i) (by omega) (by omega)
    rw [← Nat.add_assoc] at hbyte
    exact hbyte.trans (hnew i hi)

/-- A process of the third generation cannot fork. -/
theorem Family.sysFork_fails (hname : HasName s.mem parent 2) :
    ¬∃ s', Family.sysFork s parent r = .ok s' := by
  rintro ⟨s', h⟩
  rw [Family.sysFork, copyPcb_fails hname] at h
  split at h
  · cases h
  · cases h

end Fork

/-! ## Runs -/

/-- Every process has the name of its generation, and there are three of these at most. -/
structure Family.Named (s : Family) : Prop where
  aligned : ∀ p ∈ s.all, p % 4096 = 0
  name : ∀ p ∈ s.all, s.gen p ≤ 2 ∧ HasName s.mem p (s.gen p)
  ok : ∀ p ∈ s.all, PcbOk s.mem p

section Runs

variable {s s' : Family} {init p : ℕ}

theorem Family.Init.named (h : s.Init init) : s.Named := by
  have hmem : ∀ p ∈ s.all, p = init := by
    intro p hp
    rwa [h.all, List.mem_singleton] at hp
  refine ⟨fun p hp ↦ ?_, fun p hp ↦ ?_, fun p hp ↦ ?_⟩
  · rw [hmem p hp]
    exact h.aligned
  · rw [hmem p hp, h.gen]
    exact ⟨Nat.zero_le _, h.name⟩
  · rw [hmem p hp]
    exact h.ok

theorem PcbOk.congr {f g : Image} (h : PcbOk f p) (hfg : ∀ o < 4096, g (p + o) = f (p + o)) :
    PcbOk g p := by
  have hword : ∀ o, o + 4 ≤ 4096 → le32 g (p + o) = le32 f (p + o) := by
    intro o ho
    refine le32_congr fun i hi ↦ ?_
    rw [Nat.add_assoc]
    exact hfg (o + i) (by omega)
  refine ⟨by rw [hword 84 (by decide)]; exact h.pgdir, fun fd hfd ↦ ?_⟩
  have hlt : 3 ≤ fd ∧ fd < 8 := by simpa using List.mem_range'_1.mp hfd
  rw [Nat.add_assoc, hword _ (by omega), ← Nat.add_assoc]
  exact h.fds fd hfd

/-- A process can fork exactly if it is not of the third generation. -/
theorem Family.Named.succeeds_iff (h : s.Named) (hp : p ∈ s.all) :
    ForkSucceeds s p ↔ s.gen p < 2 := by
  obtain ⟨hle, hname⟩ := h.name p hp
  constructor
  · intro hfork
    by_contra hge
    rw [show s.gen p = 2 by omega] at hname
    -- some page is still free
    obtain ⟨n, hn⟩ : ∃ n, ∀ q ∈ s.all ++ s.ready, q < n :=
      ⟨(s.all ++ s.ready).sum + 1, fun q hq ↦ Nat.lt_succ_of_le (List.le_sum_of_mem hq)⟩
    have hfresh : ∀ q ∈ s.all ++ s.ready, 4096 * n ≠ q := fun q hq ↦ by
      have hlt := hn q hq
      omega
    exact Family.sysFork_fails hname (hfork ⟨4096 * n, 0, 0, 1, 0⟩
      { aligned := by dsimp only; omega
        new := fun hmem ↦ hfresh _ (List.mem_append_left _ hmem) rfl
        notReady := fun hmem ↦ hfresh _ (List.mem_append_right _ hmem) rfl
        pgdir := show (1 : BitVec 32) ≠ 0 by decide })
  · intro hlt r hr
    obtain ⟨s', hret, -⟩ := Family.sysFork_ok hname hlt (h.ok p hp) hr
    exact ⟨s', hret⟩

theorem Family.Named.step (h : s.Named) (hs : FamilyStep s s') : s'.Named := by
  cases hs with
  | @fork parent r hparent hr hret =>
    obtain ⟨hle, hname⟩ := h.name parent hparent
    have hlt : s.gen parent < 2 := by
      by_contra hge
      rw [show s.gen parent = 2 by omega] at hname
      exact Family.sysFork_fails hname ⟨s', hret⟩
    obtain ⟨t, hret', hforked, hchild, hok⟩ := Family.sysFork_ok hname hlt (h.ok parent hparent) hr
    obtain rfl := Except.ok.inj (hret.symm.trans hret')
    have hcases : ∀ p ∈ s'.all, p ∈ s.all ∨ p = r.child := by
      intro p hp
      rwa [hforked.all, List.mem_append, List.mem_singleton] at hp
    -- the page of another process is not that of the child
    have hother : ∀ p ∈ s.all, p ≠ r.child ∧ ∀ o < 4096, s'.mem (p + o) = s.mem (p + o) := by
      intro p hp
      have hne : p ≠ r.child := fun heq ↦ hr.new (heq ▸ hp)
      have hp4 := h.aligned p hp
      have hc4 := hr.aligned
      exact ⟨hne, fun o ho ↦ hforked.mem _ (by omega)⟩
    refine ⟨fun p hp ↦ ?_, fun p hp ↦ ?_, fun p hp ↦ ?_⟩
    · rcases hcases p hp with hp | rfl
      · exact h.aligned p hp
      · exact hr.aligned
    · rcases hcases p hp with hp | rfl
      · obtain ⟨hne, hbytes⟩ := hother p hp
        obtain ⟨hple, hpname⟩ := h.name p hp
        rw [hforked.gen, Function.update_of_ne hne]
        refine ⟨hple, fun i hi ↦ ?_⟩
        rw [Nat.add_assoc, hbytes (13 + i) (by omega), ← Nat.add_assoc]
        exact hpname i hi
      · rw [hforked.gen, Function.update_self]
        exact ⟨hlt, hchild⟩
    · rcases hcases p hp with hp | rfl
      · exact (h.ok p hp).congr (hother p hp).2
      · exact hok
  | other hall hgen hname hok =>
    refine ⟨fun p hp ↦ ?_, fun p hp ↦ ?_, fun p hp ↦ ?_⟩ <;> rw [hall] at hp
    · exact h.aligned p hp
    · obtain ⟨hple, hpname⟩ := h.name p hp
      rw [hgen]
      exact ⟨hple, fun i hi ↦ (hname p hp i (by omega)).trans (hpname i hi)⟩
    · exact hok p hp

theorem Family.Named.run (h : s.Named) (hs : ReflTransGen FamilyStep s s') : s'.Named := by
  induction hs with
  | refl => exact h
  | tail _ hstep ih => exact ih.step hstep

theorem Family.Named.terminated (h : s.Named) (hp : p ∈ s.all) : NameTerminated s.mem p := by
  obtain ⟨hle, hname⟩ := h.name p hp
  exact ⟨4 + 5 * s.gen p, by omega, by rw [hname _ le_rfl, nameByte_end]⟩

end Runs

/-! ## The first process -/

/-- Memory with the page of `init` at `0xc0101000`. -/
def initFamily : Family where
  mem := fun a ↦ if a = 0xc0101054 then 1 else if 0xc010100d ≤ a ∧ a < 0xc0101011 then
    nameByte 0 (a - 0xc010100d) else 0
  all := [0xc0101000]
  ready := []
  gen := fun _ ↦ 0

theorem initFamily_init : initFamily.Init 0xc0101000 where
  all := rfl
  aligned := by decide
  gen := rfl
  name := by
    intro i hi
    have hlt : i < 5 := by omega
    interval_cases i <;> decide
  ok :=
    { pgdir := by decide
      fds := by decide }

/-- The resources of a fork whose child has its page at `child`. -/
def resourcesAt (child : ℕ) : ForkResources := ⟨child, 2, 0xc0200000, 0xc0300000, 0xc0001234⟩

/-- The shell, a child of `init`, runs a command in a process of its own, and that one cannot
fork. -/
theorem third_generation :
    ∃ s p, ReflTransGen FamilyStep initFamily s ∧ p ∈ s.all ∧ s.gen p = 2 := by
  have hinit : 0xc0101000 ∈ initFamily.all := List.mem_singleton_self _
  have hgiven : (resourcesAt 0xc0102000).Given initFamily :=
    ⟨by decide, by decide, by decide, by decide⟩
  obtain ⟨s₁, h₁, hf₁, hn₁, hok₁⟩ :=
    Family.sysFork_ok initFamily_init.name (by decide) initFamily_init.ok hgiven
  have hshell : 0xc0102000 ∈ s₁.all := by
    rw [hf₁.all]
    exact List.mem_append_right _ (List.mem_singleton_self _)
  have hstep₁ : ReflTransGen FamilyStep initFamily s₁ := .single (.fork hinit hgiven h₁)
  -- the shell forks once more, with nothing else in between than that the lists are as before
  have hready : ReflTransGen FamilyStep initFamily { s₁ with ready := [] } := by
    have hnamed := initFamily_init.named.run hstep₁
    exact .tail hstep₁ (.other rfl rfl (fun p _ ↦ .refl _ _ _) hnamed.ok)
  have hgiven₂ : (resourcesAt 0xc0103000).Given { s₁ with ready := [] } := by
    refine ⟨by decide, ?_, List.not_mem_nil, by decide⟩
    dsimp only
    rw [hf₁.all]
    decide
  obtain ⟨s₂, h₂, hf₂, -, -⟩ :=
    @Family.sysFork_ok { s₁ with ready := [] } _ _ _ hn₁ (by decide) hok₁ hgiven₂
  refine ⟨s₂, 0xc0103000, .tail hready (.fork hshell hgiven₂ h₂), ?_, ?_⟩
  · rw [hf₂.all]
    exact List.mem_append_right _ (List.mem_singleton_self _)
  · rw [hf₂.gen]
    change Function.update s₁.gen 0xc0103000 (s₁.gen 0xc0102000 + 1) 0xc0103000 = 2
    rw [Function.update_self, hf₁.gen]
    rfl

end GlowOS
