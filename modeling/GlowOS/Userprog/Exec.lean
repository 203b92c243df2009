import Mathlib
import GlowOS.Fs.Syscalls

/-!
# Executing a program

`sys_execv` replaces the program of the calling process by that of a file. `load` reads the ELF
header and the program headers, and copies each loadable segment over the memory of the process
before it reads the next header. There is no way back from a header that cannot be read, from a page
that cannot be had, or from an entry point that looks like the -1 of a failure.

A file is its size and its bytes here. Its position and the number of reads so far are a state of
their own, the cursor: what `sys_read` delivers depends on nothing else, so `plan` can tell from the
file alone which segments are copied, in which order. `Covers` lays them over the memory.
-/

namespace GlowOS.Exec

open Bytes Program

/-! ## Data -/

/-- A regular file that is open. -/
structure Content where
  size : ℕ
  byte : Image

/-- The position in the file, and how many times `file_read` has asked for its buffers. -/
structure Cursor where
  pos : ℕ
  reads : ℕ

/-- What a call of `sys_execv` meets. -/
structure Setting where
  /-- The file of that name, and the entry of `file_table` it is opened in. -/
  file : Option (Content × ℤ)
  /-- Whether `sys_malloc` has the buffers of `file_read` to give. -/
  buffers : ℕ → Bool

/-- The fields of `struct Elf32_Phdr` that are read. -/
structure ProgHeader where
  pType : ℕ
  pOffset : ℕ
  pVaddr : ℕ
  pFilesz : ℕ

/-- The fields of `struct intr_struct` that `sys_execv` sets. -/
structure TrapFrame where
  ebx : ℕ
  ecx : ℕ
  eip : ℕ
  esp : ℕ
  deriving DecidableEq

/-- The calling process. -/
structure Process where
  cursor : Cursor
  /-- The user memory, and the pages of it that are mapped. -/
  mem : Image
  mapped : ℕ → Bool
  /-- `userprog_vaddr.vaddr_bitmap`. -/
  bits : ℕ → Bool
  /-- The free frames of the user pool with what is in them. -/
  frames : List Image
  /-- The page tables that are there, and the free frames of the kernel pool. -/
  table : ℕ → Bool
  tableFrames : ℕ
  fdTable : ℕ → ℤ
  frame : TrapFrame

/-- Programs over the cursor. -/
abbrev FileM := StateT Cursor (Except Fault)

/-- Programs over the process. -/
abbrev ExecM := StateT Process (Except Fault)

/-! ## The file -/

/-- `sys_lseek` from the start of the file; the source does not look at its result. -/
def sysLseek (f : Content) (offset : ℕ) (c : Cursor) : Cursor :=
  let newPos := int32 offset
  if newPos < 0 ∨ int32 (int32 f.size - 1) < newPos then c else { c with pos := newPos.toNat }

/-- `sys_read`: the number of bytes and the bytes, `none` for the source's -1. -/
def sysRead (E : Setting) (f : Content) (count : ℕ) : FileM (Option (ℕ × Image)) := do
  let c ← get
  let reach := (c.pos + count) % 2 ^ 32
  let size := if f.size < reach then (f.size + 2 ^ 32 - c.pos) % 2 ^ 32 else count
  if f.size < reach ∧ size = 0 then pure none
  else
    modify fun c ↦ { c with reads := c.reads + 1 }
    if E.buffers c.reads = true then
      check Fault.assert (c.pos / 512 < 139 ∧ reach / 512 < 139)
      check Fault.bounds (c.pos + size ≤ f.size)
      modify fun c ↦ { c with pos := c.pos + size }
      pure (some (size, fun i ↦ f.byte (c.pos + i)))
    else pure none

/-- A program of the file. -/
def onFile {α : Type} (p : FileM α) : ExecM α := do
  let s ← get
  match p s.cursor with
  | .ok (r, c) => do
    modify fun s ↦ { s with cursor := c }
    pure r
  | .error e => throw e

/-- A half word. -/
def half (f : Image) (o : ℕ) : ℕ := (f o).toNat + 2 ^ 8 * (f (o + 1)).toNat

/-- The test of the ELF header: identification, `e_type`, `e_machine`, `e_version`, `e_phnum` and
`e_phentsize`. -/
def elfOk (h : Image) : Bool :=
  (List.range 7).map h = [0x7f, 0x45, 0x4c, 0x46, 1, 1, 1] && half h 16 = 2 && half h 18 = 3 &&
    le32 h 20 = 1 && half h 44 ≤ 1024 && half h 42 = 32

/-- A program header. -/
def progHeader (h : Image) : ProgHeader := ⟨le32 h 0, le32 h 4, le32 h 8, le32 h 16⟩

/-! ## Loading -/

/-- `get_a_page` for a page of the process: whether it succeeded. The bit is set in any case. A page
table without a frame would be put at address 0, which is not followed up here. -/
def getAPage (va : ℕ) : ExecM Bool := do
  let bitIdx := (va + 2 ^ 32 - userVaddrStart) % 2 ^ 32 / 4096
  check Fault.assert (0 < bitIdx)
  check Fault.bounds (bitIdx < (0xc0000000 - userVaddrStart) / 4096)
  modify fun s ↦ { s with bits := Function.update s.bits bitIdx true }
  let s ← get
  match s.frames with
  | [] => pure false
  | content :: frames => do
    check Fault.bounds (s.table (va / 2 ^ 22) = true ∨ 0 < s.tableFrames)
    modify fun s ↦
      { s with
        frames := frames
        mem := splice s.mem (va / 4096 * 4096) 4096 content
        mapped := Function.update s.mapped (va / 4096) true
        tableFrames := if s.table (va / 2 ^ 22) = true then s.tableFrames else s.tableFrames - 1
        table := Function.update s.table (va / 2 ^ 22) true }
    pure true

/-- The loop of `segment_load` over the pages, with the number of pages left. -/
def loadPages : ℕ → ℕ → ExecM Bool
  | 0, _ => pure true
  | left + 1, vaddrPage => do
    let s ← get
    if s.mapped (vaddrPage / 4096) = true then loadPages left ((vaddrPage + 4096) % 2 ^ 32)
    else if ← getAPage vaddrPage then loadPages left ((vaddrPage + 4096) % 2 ^ 32)
    else pure false

/-- The number of pages of a segment. -/
def ProgHeader.occupyPages (p : ProgHeader) : ℕ :=
  let sizeInFirstPage := 4096 - p.pVaddr % 4096
  if sizeInFirstPage < p.pFilesz then (p.pFilesz - sizeInFirstPage + 4096 - 1) % 2 ^ 32 / 4096 + 1
  else 1

/-- The part of `segment_load` behind the loop: the file is read to the address of the segment. -/
def segmentRead (E : Setting) (f : Content) (p : ProgHeader) : ExecM Bool := do
  modify fun s ↦ { s with cursor := sysLseek f p.pOffset s.cursor }
  match ← onFile (sysRead E f p.pFilesz) with
  | none => pure true
  | some (n, data) => do
    check Fault.bounds (p.pVaddr + n ≤ 0xc0000000)
    modify fun s ↦ { s with mem := splice s.mem p.pVaddr n data }
    pure true

/-- `segment_load`. -/
def segmentLoad (E : Setting) (f : Content) (p : ProgHeader) : ExecM Bool := do
  if ← loadPages p.occupyPages (p.pVaddr / 4096 * 4096) then segmentRead E f p else pure false

/-- The loop of `load` over the program headers. -/
def loadHeaders (E : Setting) (f : Content) : ℕ → ℕ → ExecM Bool
  | 0, _ => pure true
  | left + 1, progHeaderOffset => do
    modify fun s ↦ { s with cursor := sysLseek f progHeaderOffset s.cursor }
    match ← onFile (sysRead E f 32) with
    | none => pure false
    | some (n, header) =>
      if n ≠ 32 then pure false
      else if (progHeader header).pType = 1 then
        if ← segmentLoad E f (progHeader header) then
          loadHeaders E f left ((progHeaderOffset + 32) % 2 ^ 32)
        else pure false
      else loadHeaders E f left ((progHeaderOffset + 32) % 2 ^ 32)

/-- The part of `load` behind `sys_open`: the entry point, `none` for the source's -1. -/
def loadFile (E : Setting) (f : Content) : ExecM (Option ℕ) := do
  match ← onFile (sysRead E f 52) with
  | none => pure none
  | some (n, header) =>
    if n ≠ 52 ∨ elfOk header = false then pure none
    else if ← loadHeaders E f (half header 44) (le32 header 28) then
      pure (if le32 header 24 = 0xffffffff then none else some (le32 header 24))
    else pure none

/-- The descriptor that `pcb_fd_install` finds. -/
def Process.freeFd (s : Process) : Option ℕ := Scan.firstFrom (fun fd ↦ s.fdTable fd == -1) 5 3

/-- `load`. -/
def load (E : Setting) : ExecM (Option ℕ) := do
  let s ← get
  match E.file, s.freeFd with
  | some (f, globalFd), some fd => do
    modify fun s ↦
      { s with
        cursor := { s.cursor with pos := 0 }
        fdTable := Function.update s.fdTable fd globalFd }
    let ret ← loadFile E f
    modify fun s ↦ { s with fdTable := Function.update s.fdTable fd (-1) }
    pure ret
  | _, _ => pure none

/-- The loop of `sys_execv` over the arguments. -/
def countArgs (argv : ℕ) : ℕ → ℕ → ExecM ℕ
  | 0, _ => throw Fault.hang
  | fuel + 1, argc => do
    let s ← get
    if le32 s.mem (argv + 4 * argc) = 0 then pure argc else countArgs argv fuel (argc + 1)

/-- `sys_execv`: `false` for the source's -1, `true` if the new program is started. -/
def sysExecv (E : Setting) (fuel argv : ℕ) : ExecM Bool := do
  let argc ← countArgs argv fuel 0
  match ← load E with
  | none => pure false
  | some entryPoint => do
    modify fun s ↦ { s with frame := ⟨argv, argc, entryPoint, 0xc0000000⟩ }
    pure true

/-! ## What a file puts into the memory -/

/-- A loadable segment, with what is read for it. -/
abbrev Segment := ProgHeader × Option (ℕ × Image)

/-- The loadable segments of `left` program headers from `off` on, up to a header that cannot be
read. -/
inductive Plan (E : Setting) (f : Content) : ℕ → ℕ → Cursor → List Segment → Prop
  | done {off : ℕ} {c : Cursor} : Plan E f 0 off c []
  | unread {left off : ℕ} {c : Cursor} :
      (∀ header c₁, ¬Returns (sysRead E f 32) (sysLseek f off c) (some (32, header)) c₁) →
      Plan E f (left + 1) off c []
  | skip {left off : ℕ} {c c₁ : Cursor} {header : Image} {gs : List Segment} :
      Returns (sysRead E f 32) (sysLseek f off c) (some (32, header)) c₁ →
      (progHeader header).pType ≠ 1 → Plan E f left ((off + 32) % 2 ^ 32) c₁ gs →
      Plan E f (left + 1) off c gs
  | segment {left off : ℕ} {c c₁ c₂ : Cursor} {header : Image} {r : Option (ℕ × Image)}
      {gs : List Segment} :
      Returns (sysRead E f 32) (sysLseek f off c) (some (32, header)) c₁ →
      (progHeader header).pType = 1 →
      Returns (sysRead E f (progHeader header).pFilesz)
        (sysLseek f (progHeader header).pOffset c₁) r c₂ →
      Plan E f left ((off + 32) % 2 ^ 32) c₂ gs →
      Plan E f (left + 1) off c ((progHeader header, r) :: gs)
  | broken {left off : ℕ} {c c₁ : Cursor} {header : Image} :
      Returns (sysRead E f 32) (sysLseek f off c) (some (32, header)) c₁ →
      (progHeader header).pType = 1 →
      (∀ r c₂, ¬Returns (sysRead E f (progHeader header).pFilesz)
        (sysLseek f (progHeader header).pOffset c₁) r c₂) →
      Plan E f (left + 1) off c [(progHeader header, none)]

/-- The loadable segments of the file that is executed: none if it cannot be opened, or if its ELF
header is not accepted. -/
inductive Setting.Planned (E : Setting) (s : Process) : List Segment → Prop
  | unopened : E.file = none ∨ s.freeFd = none → Planned E s []
  | rejected {f : Content} {g : ℤ} {fd : ℕ} : E.file = some (f, g) → s.freeFd = some fd →
      (∀ header c, Returns (sysRead E f 52) { s.cursor with pos := 0 } (some (52, header)) c →
        elfOk header = false) → Planned E s []
  | accepted {f : Content} {g : ℤ} {fd : ℕ} {header : Image} {c : Cursor} {gs : List Segment} :
      E.file = some (f, g) → s.freeFd = some fd →
      Returns (sysRead E f 52) { s.cursor with pos := 0 } (some (52, header)) c →
      elfOk header = true → Plan E f (half header 44) (le32 header 28) c gs → Planned E s gs

/-- The first of `left` pages that is not mapped. -/
def unmappedFrom (mapped : ℕ → Bool) : ℕ → ℕ → Option ℕ
  | 0, _ => none
  | left + 1, va =>
    if mapped (va / 4096) = true then unmappedFrom mapped left ((va + 4096) % 2 ^ 32) else some va

/-- The first page of a segment that is not mapped. -/
def ProgHeader.unmapped (p : ProgHeader) (mapped : ℕ → Bool) : Option ℕ :=
  unmappedFrom mapped p.occupyPages (p.pVaddr / 4096 * 4096)

/-- The number of the bit of a page. -/
def bitOf (va : ℕ) : ℕ := (va + 2 ^ 32 - userVaddrStart) % 2 ^ 32 / 4096

/-- Two memories agree on the pages that are mapped. -/
def SameOn (mapped : ℕ → Bool) (m m' : Image) : Prop := ∀ a, mapped (a / 4096) = true → m a = m' a

/-- The bytes of a segment, laid over the memory. -/
def overlay (m : Image) (g : Segment) : Image :=
  match g.2 with
  | none => m
  | some (n, data) => splice m g.1.pVaddr n data

/-- Laid over the memory `m` one after the other, the segments lead to `m₀`, on pages that are all
mapped. A page that is not ends this, if there is no frame for it and its bit is set already. -/
def Covers (mapped bits : ℕ → Bool) (frames : List Image) (m₀ : Image) :
    List Segment → Image → Prop
  | [], m => SameOn mapped m m₀
  | g :: gs, m =>
    match g.1.unmapped mapped with
    | none => Covers mapped bits frames m₀ gs (overlay m g)
    | some va => frames = [] ∧ bits (bitOf va) = true ∧ SameOn mapped m m₀

/-- For a process that goes on running, nothing has changed. -/
structure Process.Same (s s' : Process) : Prop where
  mapped : s'.mapped = s.mapped
  bits : s'.bits = s.bits
  mem : SameOn s.mapped s'.mem s.mem
  fdTable : s'.fdTable = s.fdTable
  frame : s'.frame = s.frame

/-! ## What a call leaves alone -/

section Frames

variable {E : Setting} {f : Content} {s s' : Process} {c : Cursor}

/-- Pages that are mapped stay so, and so do bits that are set. -/
structure Process.Grows (s s' : Process) : Prop where
  mapped : ∀ p, s.mapped p = true → s'.mapped p = true
  bits : ∀ i, s.bits i = true → s'.bits i = true
  fdTable : s'.fdTable = s.fdTable
  frame : s'.frame = s.frame

instance : Std.Refl Process.Grows := ⟨fun _ ↦ ⟨fun _ h ↦ h, fun _ h ↦ h, rfl, rfl⟩⟩

instance : IsTrans Process Process.Grows := ⟨fun _ _ _ h h' ↦
  ⟨fun p hp ↦ h'.mapped p (h.mapped p hp), fun i hi ↦ h'.bits i (h.bits i hi),
    h'.fdTable.trans h.fdTable, h'.frame.trans h.frame⟩⟩

theorem returns_onFile {α : Type} {p : FileM α} {r : α} :
    Returns (onFile p) s r s' ↔ ∃ c, Returns p s.cursor r c ∧ s' = { s with cursor := c } := by
  rw [onFile, returns_get_bind]
  constructor
  · intro h
    cases hp : p s.cursor with
    | error e =>
      rw [hp] at h
      exact absurd h returns_throw
    | ok x =>
      rw [hp] at h
      rw [returns_modify_bind] at h
      obtain ⟨rfl, rfl⟩ := returns_pure.mp h
      exact ⟨x.2, hp, rfl⟩
  · rintro ⟨c, hp, rfl⟩
    rw [show p s.cursor = .ok (r, c) from hp]
    exact returns_modify_bind.mpr (returns_pure.mpr ⟨rfl, rfl⟩)

theorem within_onFile {α : Type} (p : FileM α) : Within Process.Grows (onFile p) := by
  intro s r s' h
  obtain ⟨c, -, rfl⟩ := returns_onFile.mp h
  exact ⟨fun _ h ↦ h, fun _ h ↦ h, rfl, rfl⟩

theorem grows_bits (s : Process) (i : ℕ) :
    s.Grows { s with bits := Function.update s.bits i true } := by
  refine ⟨fun _ h ↦ h, fun j hj ↦ ?_, rfl, rfl⟩
  dsimp only
  by_cases hji : j = i
  · rw [hji, Function.update_self]
  · rw [Function.update_of_ne hji]
    exact hj

/-- What `get_a_page` does, with a frame to be had and without. -/
theorem returns_getAPage {va : ℕ} {b : Bool} (h : Returns (getAPage va) s b s') :
    s.Grows s' ∧ (s.frames = [] ∧ b = false ∧
        s' = { s with bits := Function.update s.bits (bitOf va) true } ∨
      s.frames ≠ [] ∧ s'.mapped (va / 4096) = true) := by
  rw [getAPage, returns_check_bind, returns_check_bind, returns_modify_bind, returns_get_bind] at h
  obtain ⟨-, -, h⟩ := h
  have hbits := grows_bits s (bitOf va)
  split at h
  · next hf =>
    obtain ⟨rfl, rfl⟩ := returns_pure.mp h
    exact ⟨hbits, .inl ⟨hf, rfl, rfl⟩⟩
  · next content frames hf =>
    rw [returns_check_bind, returns_modify_bind] at h
    obtain ⟨-, h⟩ := h
    obtain ⟨-, rfl⟩ := returns_pure.mp h
    have hne : s.frames ≠ [] := fun hnil ↦ List.cons_ne_nil _ _ (hf.symm.trans hnil)
    refine ⟨⟨fun p hp ↦ ?_, hbits.bits, rfl, rfl⟩, .inr ⟨hne, Function.update_self ..⟩⟩
    dsimp only
    by_cases hpa : p = va / 4096
    · rw [hpa, Function.update_self]
    · rw [Function.update_of_ne hpa]
      exact hp

theorem within_loadPages (left va : ℕ) : Within Process.Grows (loadPages left va) := by
  induction left generalizing va with
  | zero => exact Within.pure _
  | succ left ih =>
    refine Within.bind Within.get fun s ↦ Within.ite (ih _) ?_
    exact Within.bind (fun s b s' h ↦ (returns_getAPage h).1) fun _ ↦ Within.ite (ih _)
      (Within.pure _)

theorem within_segmentRead (E : Setting) (f : Content) (p : ProgHeader) :
    Within Process.Grows (segmentRead E f p) := by
  refine Within.bind (Within.modify fun s ↦ ⟨fun _ h ↦ h, fun _ h ↦ h, rfl, rfl⟩) fun _ ↦ ?_
  refine Within.bind (within_onFile _) fun r ↦ ?_
  cases r with
  | none => exact Within.pure _
  | some x =>
    refine Within.bind (Within.check _ _) fun _ ↦ ?_
    exact Within.bind (Within.modify fun s ↦ ⟨fun _ h ↦ h, fun _ h ↦ h, rfl, rfl⟩) fun _ ↦
      Within.pure _

theorem within_segmentLoad (E : Setting) (f : Content) (p : ProgHeader) :
    Within Process.Grows (segmentLoad E f p) :=
  Within.bind (within_loadPages _ _) fun _ ↦ Within.ite (within_segmentRead E f p) (Within.pure _)

theorem within_loadHeaders (E : Setting) (f : Content) (left off : ℕ) :
    Within Process.Grows (loadHeaders E f left off) := by
  induction left generalizing off with
  | zero => exact Within.pure _
  | succ left ih =>
    refine Within.bind (Within.modify fun s ↦ ⟨fun _ h ↦ h, fun _ h ↦ h, rfl, rfl⟩) fun _ ↦ ?_
    refine Within.bind (within_onFile _) fun r ↦ ?_
    cases r with
    | none => exact Within.pure _
    | some x =>
      refine Within.ite (Within.pure _) (Within.ite ?_ (ih _))
      exact Within.bind (within_segmentLoad E f _) fun _ ↦ Within.ite (ih _) (Within.pure _)

theorem within_loadFile (E : Setting) (f : Content) : Within Process.Grows (loadFile E f) := by
  refine Within.bind (within_onFile _) fun r ↦ ?_
  cases r with
  | none => exact Within.pure _
  | some x =>
    refine Within.ite (Within.pure _) ?_
    exact Within.bind (within_loadHeaders E f _ _) fun _ ↦ Within.ite (Within.pure _)
      (Within.pure _)

theorem countArgs_state {argv fuel argc n : ℕ} (h : Returns (countArgs argv fuel argc) s n s') :
    s' = s := by
  induction fuel generalizing argc with
  | zero => exact absurd h returns_throw
  | succ fuel ih =>
    rw [countArgs, returns_get_bind] at h
    rcases returns_ite.mp h with ⟨-, h⟩ | ⟨-, h⟩
    · exact (returns_pure.mp h).2
    · exact ih h

end Frames

/-! ## Pages that are missing -/

section Loading

variable {E : Setting} {f : Content} {s s' : Process} {left va q off : ℕ} {b : Bool} {m₀ : Image}

theorem loadPages_of_mapped (h : unmappedFrom s.mapped left va = none)
    (hret : Returns (loadPages left va) s b s') : b = true ∧ s' = s := by
  induction left generalizing va with
  | zero => exact returns_pure.mp hret
  | succ left ih =>
    rw [loadPages, returns_get_bind] at hret
    by_cases hmap : s.mapped (va / 4096) = true
    · rw [unmappedFrom, if_pos hmap] at h
      rw [if_pos hmap] at hret
      exact ih h hret
    · rw [unmappedFrom, if_neg hmap] at h
      cases h

/-- Without a frame the loop ends at the first page that is missing, with a frame this page is
mapped then. -/
theorem loadPages_of_unmapped (h : unmappedFrom s.mapped left va = some q)
    (hret : Returns (loadPages left va) s b s') : s.mapped (q / 4096) = false ∧
      (s.frames = [] ∧ b = false ∧ s' = { s with bits := Function.update s.bits (bitOf q) true } ∨
        s.frames ≠ [] ∧ s'.mapped (q / 4096) = true) := by
  induction left generalizing va with
  | zero => cases h
  | succ left ih =>
    rw [loadPages, returns_get_bind] at hret
    by_cases hmap : s.mapped (va / 4096) = true
    · rw [unmappedFrom, if_pos hmap] at h
      rw [if_pos hmap] at hret
      exact ih h hret
    · rw [unmappedFrom, if_neg hmap] at h
      obtain rfl := Option.some.inj h
      rw [if_neg hmap] at hret
      refine ⟨Bool.eq_false_iff.mpr hmap, ?_⟩
      obtain ⟨got, t, hpage, hrest⟩ := returns_bind.mp hret
      obtain ⟨-, ⟨hnil, rfl, rfl⟩ | ⟨hne, hmapped⟩⟩ := returns_getAPage hpage
      · obtain ⟨rfl, rfl⟩ := returns_pure.mp hrest
        exact .inl ⟨hnil, rfl, rfl⟩
      · refine .inr ⟨hne, ?_⟩
        rcases returns_ite.mp hrest with ⟨-, hrest⟩ | ⟨-, hrest⟩
        · exact (within_loadPages _ _ _ _ _ hrest).mapped _ hmapped
        · obtain ⟨-, rfl⟩ := returns_pure.mp hrest
          exact hmapped

/-- Nothing has changed but the memory, and that is `m₀`. -/
def Process.LeftAs (s s' : Process) (m₀ : Image) : Prop :=
  s'.mapped = s.mapped ∧ s'.bits = s.bits ∧ SameOn s.mapped s'.mem m₀

theorem leftAs_self {c : Cursor} :
    s.LeftAs { s with cursor := c } m₀ ↔ SameOn s.mapped s.mem m₀ :=
  ⟨fun h ↦ h.2.2, fun h ↦ ⟨rfl, rfl, h⟩⟩

/-- A page was missing: this is seen, unless there is no frame for it and its bit was set. -/
theorem leftAs_of_unmapped {t : Process} (h : unmappedFrom s.mapped left va = some q)
    (hret : Returns (loadPages left va) s b t) (hgrows : t.Grows s')
    (hstop : b = false → s' = t) :
    s.LeftAs s' m₀ ↔ s.frames = [] ∧ s.bits (bitOf q) = true ∧ SameOn s.mapped s.mem m₀ := by
  obtain ⟨hfalse, ⟨hnil, rfl, rfl⟩ | ⟨hne, hmapped⟩⟩ := loadPages_of_unmapped h hret
  · obtain rfl := hstop rfl
    have hbits : Function.update s.bits (bitOf q) true = s.bits ↔ s.bits (bitOf q) = true := by
      rw [Function.update_eq_self_iff]
      exact eq_comm
    constructor
    · rintro ⟨-, hsame, hmem⟩
      exact ⟨hnil, hbits.mp hsame, hmem⟩
    · rintro ⟨-, hset, hmem⟩
      exact ⟨rfl, hbits.mpr hset, hmem⟩
  · constructor
    · rintro ⟨hsame, -⟩
      have htrue := hgrows.mapped _ hmapped
      rw [hsame, hfalse] at htrue
      cases htrue
    · exact fun h ↦ absurd h.1 hne

/-- A page of a segment is missing. -/
theorem leftAs_of_segment {p : ProgHeader} {c : Cursor} {t₁ t₂ : Process} {b₁ b₂ : Bool}
    (hun : p.unmapped s.mapped = some q)
    (hpages : Returns (loadPages p.occupyPages (p.pVaddr / 4096 * 4096)) { s with cursor := c }
      b₂ t₂)
    (hread : Returns (if b₂ = true then segmentRead E f p else pure false) t₂ b₁ t₁)
    (hret : Returns (if b₁ = true then loadHeaders E f left off else pure false) t₁ b s') :
    s.LeftAs s' m₀ ↔ s.frames = [] ∧ s.bits (bitOf q) = true ∧ SameOn s.mapped s.mem m₀ := by
  have hrest : t₁.Grows s' ∧ (b₁ = false → s' = t₁) := by
    rcases returns_ite.mp hret with ⟨hb, hret⟩ | ⟨-, hret⟩
    · refine ⟨within_loadHeaders E f _ _ _ _ _ hret, fun hfalse ↦ ?_⟩
      cases hb.symm.trans hfalse
    · obtain ⟨-, rfl⟩ := returns_pure.mp hret
      exact ⟨Std.Refl.refl _, fun _ ↦ rfl⟩
  have hfirst : t₂.Grows t₁ ∧ (b₂ = false → b₁ = false ∧ t₁ = t₂) := by
    rcases returns_ite.mp hread with ⟨hb, hread⟩ | ⟨-, hread⟩
    · refine ⟨within_segmentRead E f _ _ _ _ hread, fun hfalse ↦ ?_⟩
      cases hb.symm.trans hfalse
    · obtain ⟨rfl, rfl⟩ := returns_pure.mp hread
      exact ⟨Std.Refl.refl _, fun _ ↦ ⟨rfl, rfl⟩⟩
  refine leftAs_of_unmapped (s := { s with cursor := c }) hun hpages
    (IsTrans.trans _ _ _ hfirst.1 hrest.1) fun hfalse ↦ ?_
  obtain ⟨hb₁, ht₁⟩ := hfirst.2 hfalse
  exact (hrest.2 hb₁).trans ht₁

/-- The program headers that are left put into the memory what they say. -/
theorem leftAs_loadHeaders {c : Cursor} {gs : List Segment} (hp : Plan E f left off c gs)
    (hc : s.cursor = c) (hret : Returns (loadHeaders E f left off) s b s') :
    s.LeftAs s' m₀ ↔ Covers s.mapped s.bits s.frames m₀ gs s.mem := by
  induction hp generalizing s b with
  | done =>
    obtain ⟨-, rfl⟩ := returns_pure.mp hret
    exact leftAs_self (c := s'.cursor)
  | unread hno =>
    subst hc
    rw [loadHeaders, returns_modify_bind] at hret
    obtain ⟨r, t, h1, hret⟩ := returns_bind.mp hret
    obtain ⟨c', hread, rfl⟩ := returns_onFile.mp h1
    dsimp only at hread
    cases r with
    | none =>
      obtain ⟨-, rfl⟩ := returns_pure.mp hret
      exact leftAs_self
    | some x =>
      obtain ⟨n, header⟩ := x
      rcases returns_ite.mp hret with ⟨-, hret⟩ | ⟨hn, -⟩
      · obtain ⟨-, rfl⟩ := returns_pure.mp hret
        exact leftAs_self
      · rw [not_not.mp hn] at hread
        exact absurd hread (hno _ _)
  | skip hr htype _ ih =>
    subst hc
    rw [loadHeaders, returns_modify_bind] at hret
    obtain ⟨r, t, h1, hret⟩ := returns_bind.mp hret
    obtain ⟨c', hread, rfl⟩ := returns_onFile.mp h1
    dsimp only at hread
    obtain ⟨rfl, rfl⟩ := hread.unique hr
    rcases returns_ite.mp hret with ⟨hn, -⟩ | ⟨-, hret⟩
    · exact absurd rfl hn
    · rcases returns_ite.mp hret with ⟨hload, -⟩ | ⟨-, hret⟩
      · exact absurd hload htype
      · exact ih (s := { s with cursor := c' }) rfl hret
  | segment hr htype hseg _ ih =>
    subst hc
    rw [loadHeaders, returns_modify_bind] at hret
    obtain ⟨r, t, h1, hret⟩ := returns_bind.mp hret
    obtain ⟨c', hread, rfl⟩ := returns_onFile.mp h1
    dsimp only at hread
    obtain ⟨rfl, rfl⟩ := hread.unique hr
    rcases returns_ite.mp hret with ⟨hn, -⟩ | ⟨-, hret⟩
    · exact absurd rfl hn
    · rcases returns_ite.mp hret with ⟨-, hret⟩ | ⟨hload, -⟩
      · obtain ⟨b₁, t₁, h2, hret⟩ := returns_bind.mp hret
        obtain ⟨b₂, t₂, h3, h4⟩ := returns_bind.mp h2
        rw [Covers]
        cases hun : (progHeader _).unmapped s.mapped with
        | none =>
          -- all pages are there, so the bytes are laid over the memory
          obtain ⟨rfl, rfl⟩ := loadPages_of_mapped (s := { s with cursor := c' }) hun h3
          rw [if_pos rfl, segmentRead, returns_modify_bind] at h4
          obtain ⟨r', t₃, h5, h6⟩ := returns_bind.mp h4
          obtain ⟨c'', hread', rfl⟩ := returns_onFile.mp h5
          dsimp only at hread'
          obtain ⟨rfl, rfl⟩ := hread'.unique hseg
          cases r' with
          | none =>
            obtain ⟨rfl, rfl⟩ := returns_pure.mp h6
            rw [if_pos rfl] at hret
            exact ih (s := { s with cursor := c'' }) rfl hret
          | some y =>
            dsimp only at h6
            rw [returns_check_bind, returns_modify_bind] at h6
            obtain ⟨rfl, rfl⟩ := returns_pure.mp h6.2
            rw [if_pos rfl] at hret
            exact ih (s := { s with cursor := c'', mem := splice s.mem _ y.1 y.2 }) rfl hret
        | some q => exact leftAs_of_segment hun h3 h4 hret
      · exact absurd htype hload
  | broken hr htype hno =>
    subst hc
    rw [loadHeaders, returns_modify_bind] at hret
    obtain ⟨r, t, h1, hret⟩ := returns_bind.mp hret
    obtain ⟨c', hread, rfl⟩ := returns_onFile.mp h1
    dsimp only at hread
    obtain ⟨rfl, rfl⟩ := hread.unique hr
    rcases returns_ite.mp hret with ⟨hn, -⟩ | ⟨-, hret⟩
    · exact absurd rfl hn
    · rcases returns_ite.mp hret with ⟨-, hret⟩ | ⟨hload, -⟩
      · obtain ⟨b₁, t₁, h2, hret⟩ := returns_bind.mp hret
        obtain ⟨b₂, t₂, h3, h4⟩ := returns_bind.mp h2
        rw [Covers]
        cases hun : (progHeader _).unmapped s.mapped with
        | none =>
          -- the read behind the pages has no result
          obtain ⟨rfl, rfl⟩ := loadPages_of_mapped (s := { s with cursor := c' }) hun h3
          rw [if_pos rfl, segmentRead, returns_modify_bind] at h4
          obtain ⟨r', t₃, h5, -⟩ := returns_bind.mp h4
          obtain ⟨c'', hread', -⟩ := returns_onFile.mp h5
          dsimp only at hread'
          exact absurd hread' (hno _ _)
        | some q => exact leftAs_of_segment hun h3 h4 hret
      · exact absurd htype hload

/-- Any file describes its loadable segments. -/
theorem exists_plan (E : Setting) (f : Content) (left off : ℕ) (c : Cursor) :
    ∃ gs, Plan E f left off c gs := by
  induction left generalizing off c with
  | zero => exact ⟨[], .done⟩
  | succ left ih =>
    by_cases hr : ∃ header c₁,
        Returns (sysRead E f 32) (sysLseek f off c) (some (32, header)) c₁
    · obtain ⟨header, c₁, hr⟩ := hr
      by_cases htype : (progHeader header).pType = 1
      · by_cases hseg : ∃ r c₂, Returns (sysRead E f (progHeader header).pFilesz)
            (sysLseek f (progHeader header).pOffset c₁) r c₂
        · obtain ⟨r, c₂, hseg⟩ := hseg
          obtain ⟨gs, hgs⟩ := ih ((off + 32) % 2 ^ 32) c₂
          exact ⟨_, .segment hr htype hseg hgs⟩
        · exact ⟨_, .broken hr htype fun r c₂ h ↦ hseg ⟨r, c₂, h⟩⟩
      · obtain ⟨gs, hgs⟩ := ih ((off + 32) % 2 ^ 32) c₁
        exact ⟨gs, .skip hr htype hgs⟩
    · exact ⟨[], .unread fun header c₁ h ↦ hr ⟨header, c₁, h⟩⟩

theorem exists_planned (E : Setting) (s : Process) : ∃ gs, E.Planned s gs := by
  cases hfile : E.file with
  | none => exact ⟨[], .unopened (.inl hfile)⟩
  | some x =>
    cases hfd : s.freeFd with
    | none => exact ⟨[], .unopened (.inr hfd)⟩
    | some fd =>
      by_cases hok : ∃ header c,
          Returns (sysRead E x.1 52) { s.cursor with pos := 0 } (some (52, header)) c ∧
            elfOk header = true
      · obtain ⟨header, c, hread, hok⟩ := hok
        obtain ⟨gs, hgs⟩ := exists_plan E x.1 (half header 44) (le32 header 28) c
        exact ⟨gs, .accepted (g := x.2) hfile hfd hread hok hgs⟩
      · refine ⟨[], .rejected (g := x.2) hfile hfd fun header c hread ↦ ?_⟩
        exact Bool.eq_false_iff.mpr fun h ↦ hok ⟨header, c, hread, h⟩

/-- The ELF header is read, and then the segments. -/
theorem leftAs_loadFile {r : Option ℕ} {gs : List Segment} (hret : Returns (loadFile E f) s r s')
    (hrejected : (∀ header c, Returns (sysRead E f 52) s.cursor (some (52, header)) c →
      elfOk header = false) → gs = [])
    (haccepted : ∀ header c, Returns (sysRead E f 52) s.cursor (some (52, header)) c →
      elfOk header = true → Plan E f (half header 44) (le32 header 28) c gs) :
    s.LeftAs s' m₀ ↔ Covers s.mapped s.bits s.frames m₀ gs s.mem := by
  obtain ⟨x, t, h1, hret⟩ := returns_bind.mp hret
  obtain ⟨c, hread, rfl⟩ := returns_onFile.mp h1
  cases x with
  | none =>
    obtain ⟨-, rfl⟩ := returns_pure.mp hret
    rw [hrejected fun header c' h ↦ by cases (hread.unique h).1]
    exact leftAs_self
  | some x =>
    obtain ⟨n, header⟩ := x
    rcases returns_ite.mp hret with ⟨hbad, hrest⟩ | ⟨hok, hrest⟩
    · obtain ⟨-, rfl⟩ := returns_pure.mp hrest
      rw [hrejected fun header' c' h ↦ ?_]
      · exact leftAs_self
      · obtain ⟨heq, -⟩ := hread.unique h
        obtain ⟨rfl, rfl⟩ := Prod.mk.inj (Option.some.inj heq)
        exact hbad.resolve_left (not_not.mpr rfl)
    · rw [not_or, not_not] at hok
      obtain ⟨rfl, hok⟩ := hok
      have hplan := haccepted header c hread (Bool.not_eq_false _ ▸ hok)
      obtain ⟨b, t₁, h2, h3⟩ := returns_bind.mp hrest
      have hstate : s' = t₁ := by
        rcases returns_ite.mp h3 with ⟨-, h3⟩ | ⟨-, h3⟩ <;> exact (returns_pure.mp h3).2
      rw [hstate]
      exact leftAs_loadHeaders (s := { s with cursor := c }) hplan rfl h2

end Loading

/-! ## The whole call -/

section Execv

variable {E : Setting} {s s' : Process} {gs : List Segment}

theorem freeFd_eq {fd : ℕ} (h : s.freeFd = some fd) : s.fdTable fd = -1 := by
  obtain ⟨-, -, hfree, -⟩ := Scan.firstFrom_eq_some.mp h
  exact eq_of_beq hfree

theorem planned_rejected {f : Content} {g : ℤ} {fd : ℕ} (hfile : E.file = some (f, g))
    (hfd : s.freeFd = some fd) (hp : E.Planned s gs)
    (hno : ∀ header c, Returns (sysRead E f 52) { s.cursor with pos := 0 } (some (52, header)) c →
      elfOk header = false) : gs = [] := by
  cases hp with
  | unopened => rfl
  | rejected => rfl
  | accepted hfile' _ hread hok _ =>
    obtain ⟨rfl, -⟩ := Prod.mk.inj (Option.some.inj (hfile.symm.trans hfile'))
    cases hok.symm.trans (hno _ _ hread)

theorem planned_accepted {f : Content} {g : ℤ} {fd : ℕ} (hfile : E.file = some (f, g))
    (hfd : s.freeFd = some fd) (hp : E.Planned s gs) (header : Image) (c : Cursor)
    (hread : Returns (sysRead E f 52) { s.cursor with pos := 0 } (some (52, header)) c)
    (hok : elfOk header = true) : Plan E f (half header 44) (le32 header 28) c gs := by
  cases hp with
  | unopened h =>
    rcases h with h | h
    · cases hfile.symm.trans h
    · cases hfd.symm.trans h
  | rejected hfile' _ hno =>
    obtain ⟨rfl, -⟩ := Prod.mk.inj (Option.some.inj (hfile.symm.trans hfile'))
    cases hok.symm.trans (hno _ _ hread)
  | accepted hfile' _ hread' _ hplan =>
    obtain ⟨rfl, -⟩ := Prod.mk.inj (Option.some.inj (hfile.symm.trans hfile'))
    obtain ⟨heq, rfl⟩ := hread.unique hread'
    obtain ⟨-, rfl⟩ := Prod.mk.inj (Option.some.inj heq)
    exact hplan

/-- `load` leaves the descriptors and the trap frame as they are, and puts the segments into the
memory. -/
theorem same_load {r : Option ℕ} (hret : Returns (load E) s r s') (hp : E.Planned s gs) :
    s.Same s' ↔ Covers s.mapped s.bits s.frames s.mem gs s.mem := by
  rw [load, returns_get_bind] at hret
  have hsame : s' = s → gs = [] →
      (s.Same s' ↔ Covers s.mapped s.bits s.frames s.mem gs s.mem) := by
    rintro rfl rfl
    exact ⟨fun _ _ _ ↦ rfl, fun _ ↦ ⟨rfl, rfl, fun _ _ ↦ rfl, rfl, rfl⟩⟩
  cases hfile : E.file with
  | none =>
    rw [hfile] at hret
    refine hsame (returns_pure.mp hret).2 ?_
    cases hp with
    | unopened => rfl
    | rejected => rfl
    | accepted h => cases hfile.symm.trans h
  | some x =>
    cases hfd : s.freeFd with
    | none =>
      rw [hfile, hfd] at hret
      refine hsame (returns_pure.mp hret).2 ?_
      cases hp with
      | unopened => rfl
      | rejected => rfl
      | accepted _ h => cases hfd.symm.trans h
    | some fd =>
      rw [hfile, hfd] at hret
      obtain ⟨f, g⟩ := x
      dsimp only at hret
      rw [returns_modify_bind] at hret
      obtain ⟨ret, t, h1, hret⟩ := returns_bind.mp hret
      rw [returns_modify_bind] at hret
      obtain ⟨-, rfl⟩ := returns_pure.mp hret
      have hgrows := within_loadFile E f _ _ _ h1
      have hleft := @leftAs_loadFile E f _ t s.mem ret gs h1 (planned_rejected hfile hfd hp)
        (planned_accepted hfile hfd hp)
      have htable : Function.update t.fdTable fd (-1) = s.fdTable := by
        rw [hgrows.fdTable, Function.update_idem, Function.update_eq_self_iff, freeFd_eq hfd]
      rw [← hleft]
      exact ⟨fun h ↦ ⟨h.mapped, h.bits, h.mem⟩,
        fun h ↦ ⟨h.1, h.2.1, h.2.2, htable, hgrows.frame⟩⟩

end Execv

/-! ## A truncated file -/

/-- The ELF header and one program header, for a segment of one byte, and ten bytes of a second
program header. -/
def truncated : Content :=
  ⟨94, fun i ↦ (([(0, 0x7f), (1, 0x45), (2, 0x4c), (3, 0x46), (4, 1), (5, 1), (6, 1), (16, 2),
    (18, 3), (20, 1), (25, 0x90), (26, 4), (27, 8), (28, 52), (42, 32), (44, 2), (52, 1),
    (61, 0x90), (62, 4), (63, 8), (68, 1)] : List (ℕ × UInt8)).lookup i).getD 0⟩

def truncatedSetting : Setting := ⟨some (truncated, 7), fun _ ↦ true⟩

/-- A process with empty memory. -/
def caller : Process where
  cursor := ⟨0, 0⟩
  mem := fun _ ↦ 0
  mapped := fun _ ↦ true
  bits := fun _ ↦ true
  frames := []
  table := fun _ ↦ true
  tableFrames := 0
  fdTable := fun fd ↦ if fd < 3 then fd else -1
  frame := ⟨0, 0, 0, 0⟩

/-- `sys_execv`, and the byte at `0x8049000` behind it. -/
def execAndLook (E : Setting) : ExecM (Bool × UInt8) := do
  let b ← sysExecv E 1 0x804a000
  let s ← get
  pure (b, s.mem 0x8049000)

/-- The call fails and has overwritten a byte. -/
theorem exists_truncated : ∃ s', Returns (sysExecv truncatedSetting 1 0x804a000) caller false s' ∧
    ¬caller.Same s' := by
  obtain ⟨s', h⟩ : ∃ s', Returns (execAndLook truncatedSetting) caller (false, 0x7f) s' :=
    exists_returns (by decide +kernel)
  obtain ⟨b, t, h1, h⟩ := returns_bind.mp h
  rw [returns_get_bind, returns_pure] at h
  obtain ⟨heq, rfl⟩ := h
  obtain ⟨rfl, hbyte⟩ := Prod.mk.inj heq
  refine ⟨s', h1, fun hsame ↦ ?_⟩
  have hzero : s'.mem 0x8049000 = 0 := hsame.mem 0x8049000 rfl
  rw [hzero] at hbyte
  exact absurd hbyte (by decide)

end GlowOS.Exec
