import Mathlib
import GlowOS.Fs.Frames
import GlowOS.Fs.Mount
import GlowOS.Fs.Path

/-!
# File descriptors of several processes

`fork` copies the `fd_table` of the parent, so the child designates the same entries of the global
`file_table`; only the open count of the inodes goes up. `file_close` then clears the entry for
everybody. The descriptors of all processes keep designating what they were opened for exactly as
long as no process closes a descriptor whose entry another held descriptor designates too.
-/

namespace GlowOS

open Program

/-! ## Forking -/

/-- The loop of `updata_inode_open_cnts`. -/
def updataInodeOpenCnts (fdTable : ℕ → ℤ) : ℕ → ℕ → FsM PUnit
  | 0, _ => pure PUnit.unit
  | left + 1, localFd => do
    ASSERT (fdTable localFd < maxFileOpen)
    if fdTable localFd ≠ -1 then
      inBounds (0 ≤ fdTable localFd)
      let a ← fdInodeOf (fdTable localFd).toNat
      modifyInode a fun ino ↦ { ino with iOpenCnts := (ino.iOpenCnts + 1) % 2 ^ 32 }
    updataInodeOpenCnts fdTable left (localFd + 1)

/-- The part of `task_struct` that the file system uses, in the child. -/
@[simps -fullyApplied] def Fs.copyPcb (s : Fs) (child pgdir : ℕ) : Fs :=
  { s with tasks := Function.update s.tasks child { s.cur with pgdir := some pgdir } }

/-- What `sys_fork` does to the files, for the pid and the page directory of the child; there is no
page directory if one of the allocations fails. -/
def sysFork (child : ℕ) (pgdir : Option ℕ) : FsM (Option ℕ) := do
  match pgdir with
  | none => pure none
  | some pgdir => do
    let s ← get
    ASSERT (s.cur.pgdir ≠ none)
    modify fun s ↦ s.copyPcb child pgdir
    updataInodeOpenCnts s.cur.fdTable (maxFilesOpenPerProc - 3) 3
    pure (some child)

/-! ## Runs -/

/-- The file system, the descriptors each process holds, and the next pid. A held descriptor comes
with the `fd_inode` it was opened for. -/
structure FdState where
  fs : Fs
  held : ℕ → ℕ → Option (Option ℕ)
  nextPid : ℕ

/-- The `fd_inode` that a descriptor of a process designates. -/
def Fs.designated (s : Fs) (pid fd : ℕ) : Option ℕ :=
  (s.fileTable ((s.tasks pid).fdTable fd).toNat).fdInode

/-- The process `pid` runs. -/
def Fs.run (s : Fs) (pid : ℕ) : Fs := { s with running := pid }

/-- The calls. -/
inductive FdCall
  | sysOpen (pid : ℕ) (pathname : List UInt8) (flags : ℕ)
  | sysClose (pid : ℕ) (fd : ℤ)
  | sysFork (pid : ℕ) (pgdir : Option ℕ)

/-- One completed call. -/
inductive FdStep (E : Env) : FdState → FdCall → FdState → Prop
  | opened {σ : FdState} {s : Fs} {pid fd flags : ℕ} {pathname : List UInt8} (hpid : pid < σ.nextPid)
      (h : Returns (sysOpen E pathname flags) (σ.fs.run pid) (some fd) s) :
      FdStep E σ (.sysOpen pid pathname flags)
        ⟨s, Function.update σ.held pid
          (Function.update (σ.held pid) fd (some (s.designated pid fd))), σ.nextPid⟩
  | notOpened {σ : FdState} {s : Fs} {pid flags : ℕ} {pathname : List UInt8} (hpid : pid < σ.nextPid)
      (h : Returns (sysOpen E pathname flags) (σ.fs.run pid) none s) :
      FdStep E σ (.sysOpen pid pathname flags) ⟨s, σ.held, σ.nextPid⟩
  | closed {σ : FdState} {s : Fs} {pid : ℕ} {fd : ℤ} (hpid : pid < σ.nextPid)
      (h : Returns (sysClose E fd) (σ.fs.run pid) true s) :
      FdStep E σ (.sysClose pid fd)
        ⟨s, Function.update σ.held pid (Function.update (σ.held pid) fd.toNat none), σ.nextPid⟩
  | notClosed {σ : FdState} {s : Fs} {pid : ℕ} {fd : ℤ} (hpid : pid < σ.nextPid)
      (h : Returns (sysClose E fd) (σ.fs.run pid) false s) :
      FdStep E σ (.sysClose pid fd) ⟨s, σ.held, σ.nextPid⟩
  | forked {σ : FdState} {s : Fs} {pid child : ℕ} {pgdir : Option ℕ} (hpid : pid < σ.nextPid)
      (h : Returns (sysFork σ.nextPid pgdir) (σ.fs.run pid) (some child) s) :
      FdStep E σ (.sysFork pid pgdir)
        ⟨s, Function.update σ.held σ.nextPid (σ.held pid), σ.nextPid + 1⟩
  | notForked {σ : FdState} {s : Fs} {pid : ℕ} {pgdir : Option ℕ} (hpid : pid < σ.nextPid)
      (h : Returns (sysFork σ.nextPid pgdir) (σ.fs.run pid) none s) :
      FdStep E σ (.sysFork pid pgdir) ⟨s, σ.held, σ.nextPid⟩

/-- Every held descriptor designates an entry of `file_table` with the inode it was opened for. -/
def FdState.Designates (σ : FdState) : Prop :=
  ∀ pid fd r, σ.held pid fd = some r → 3 ≤ fd ∧ fd < maxFilesOpenPerProc ∧
    ∃ g a : ℕ, g < maxFileOpen ∧ (σ.fs.tasks pid).fdTable fd = g ∧ r = some a ∧
      (σ.fs.fileTable g).fdInode = some a

/-- The call is not a `sys_close` of a descriptor whose entry of `file_table` another held
descriptor designates. -/
def FdState.ClosesAlone (σ : FdState) : FdCall → Prop
  | .sysClose pid fd => 2 < fd → ∀ pid' fd', σ.held pid' fd' ≠ none →
      (σ.fs.tasks pid').fdTable fd' = (σ.fs.tasks pid).fdTable fd.toNat →
        pid' = pid ∧ fd' = fd.toNat
  | _ => True

/-! ## What the calls do to the tables -/

/-- The descriptors and the file table are the same. -/
structure SameFiles (s s' : Fs) : Prop where
  running : s'.running = s.running
  fds : ∀ pid, (s'.tasks pid).fdTable = (s.tasks pid).fdTable
  table : s'.fileTable = s.fileTable

theorem SameFiles.of_eq {s s' : Fs} (h₁ : s'.running = s.running) (h₂ : s'.tasks = s.tasks)
    (h₃ : s'.fileTable = s.fileTable) : SameFiles s s' := ⟨h₁, fun _ ↦ by rw [h₂], h₃⟩

theorem SameFiles.trans {s t s' : Fs} (h : SameFiles s t) (h' : SameFiles t s') : SameFiles s s' :=
  ⟨h'.running.trans h.running, fun pid ↦ (h'.fds pid).trans (h.fds pid), h'.table.trans h.table⟩

instance : Neutral SameFiles where
  refl _ := .of_eq rfl rfl rfl
  trans _ _ _ := SameFiles.trans
  tick _ := .of_eq rfl rfl rfl
  alloc _ _ _ := .of_eq rfl rfl rfl
  free _ _ _ := .of_eq rfl rfl rfl
  stale _ _ := .of_eq rfl rfl rfl
  store _ _ _ _ := .of_eq rfl rfl rfl
  setInode _ _ _ _ _ := .of_eq rfl rfl rfl
  replace _ _ _ := .of_eq rfl rfl rfl
  tags _ _ := .of_eq rfl rfl rfl
  setBitmap s ty i v := by cases ty <;> exact .of_eq rfl rfl rfl

/-- What a call that may open a file does: nothing that was in use changes, and a new descriptor
was free before and designates an inode. -/
structure OpenOutcome (s s' : Fs) (r : Option ℕ) : Prop where
  running : s'.running = s.running
  others : ∀ pid fd, pid ≠ s.running ∨ r ≠ some fd →
    (s'.tasks pid).fdTable fd = (s.tasks pid).fdTable fd
  used : ∀ g a, (s.fileTable g).fdInode = some a → (s'.fileTable g).fdInode = some a
  new : ∀ fd, r = some fd → 3 ≤ fd ∧ fd < maxFilesOpenPerProc ∧ s.cur.fdTable fd = -1 ∧
    ∃ g a : ℕ, g < maxFileOpen ∧ s'.cur.fdTable fd = g ∧ (s'.fileTable g).fdInode = some a

section Outcomes

variable {E : Env} {s t s' : Fs} {r : Option ℕ}

theorem SameFiles.outcome (h : SameFiles s s') : OpenOutcome s s' none :=
  ⟨h.running, fun pid fd _ ↦ congrFun (h.fds pid) fd, fun _ _ hg ↦ h.table ▸ hg, nofun⟩

theorem OpenOutcome.after (h' : OpenOutcome t s' r) (h : SameFiles s t) : OpenOutcome s s' r where
  running := h'.running.trans h.running
  others pid fd hne := by
    rw [← h.fds pid]
    exact h'.others pid fd (hne.imp_left fun hp ↦ h.running ▸ hp)
  used g a hg := h'.used g a (h.table ▸ hg)
  new fd hr := by
    obtain ⟨h1, h2, h3, h4⟩ := h'.new fd hr
    refine ⟨h1, h2, ?_, h4⟩
    rw [← h3, Fs.cur, Fs.cur, h.running, h.fds]

theorem OpenOutcome.before (h : OpenOutcome s t r) (h' : SameFiles t s') : OpenOutcome s s' r where
  running := h'.running.trans h.running
  others pid fd hne := (congrFun (h'.fds pid) fd).trans (h.others pid fd hne)
  used g a hg := h'.table ▸ h.used g a hg
  new fd hr := by
    obtain ⟨h1, h2, h3, g, a, h4, h5, h6⟩ := h.new fd hr
    refine ⟨h1, h2, h3, g, a, h4, ?_, h'.table ▸ h6⟩
    rw [← h5, Fs.cur, Fs.cur, h'.running, h'.fds]

theorem ne_of_free {f g a : ℕ} (hfree : (s.fileTable f).fdInode = none)
    (hg : (s.fileTable g).fdInode = some a) : g ≠ f := by
  rintro rfl
  rw [hfree] at hg
  cases hg

/-- A free entry of the file table is taken first. -/
theorem OpenOutcome.after_setFile {f : ℕ} {file : File} (hfree : (s.fileTable f).fdInode = none)
    (h : OpenOutcome (s.setFile f file) s' r) : OpenOutcome s s' r where
  running := h.running
  others := h.others
  used g a hg := by
    refine h.used g a ?_
    rwa [Fs.setFile_fileTable, Function.update_of_ne (ne_of_free hfree hg)]
  new := h.new

/-- A free entry of the file table is taken, and cleared in the end. -/
theorem SameFiles.undo {f : ℕ} {file file' : File} (hfree : (s.fileTable f).fdInode = none)
    (h : SameFiles (s.setFile f file) t) : OpenOutcome s (t.setFile f file') none where
  running := h.running
  others pid fd _ := congrFun (h.fds pid) fd
  used g a hg := by
    rw [Fs.setFile_fileTable, Function.update_of_ne (ne_of_free hfree hg), h.table,
      Fs.setFile_fileTable, Function.update_of_ne (ne_of_free hfree hg)]
    exact hg
  new := nofun

theorem returns_getFreeSlotInGlobal (h : Returns getFreeSlotInGlobal s r s') :
    s' = s ∧ ∀ f, r = some f → f < maxFileOpen ∧ (s.fileTable f).fdInode = none := by
  rw [getFreeSlotInGlobal, returns_get_bind, returns_pure] at h
  obtain ⟨hr, rfl⟩ := h
  refine ⟨rfl, fun f hf ↦ ?_⟩
  obtain ⟨-, hlt, hnone, -⟩ := Scan.firstFrom_eq_some.mp (hr.symm.trans hf)
  exact ⟨hlt, Option.isNone_iff_eq_none.mp hnone⟩

/-- A descriptor for the entry `f` of the file table. -/
theorem pcbFdInstall_outcome {f a : ℕ} (h : Returns (pcbFdInstall f) s r s') (hf : f < maxFileOpen)
    (hused : (s.fileTable f).fdInode = some a) : OpenOutcome s s' r := by
  rw [pcbFdInstall, returns_get_bind] at h
  cases hfree : Scan.firstFrom (fun fd ↦ s.cur.fdTable fd == -1) (maxFilesOpenPerProc - 3) 3 with
  | none =>
    rw [hfree] at h
    obtain ⟨rfl, rfl⟩ := returns_pure.mp h
    exact (SameFiles.of_eq rfl rfl rfl).outcome
  | some fd =>
    rw [hfree] at h
    obtain ⟨h3, h8, hval, -⟩ := Scan.firstFrom_eq_some.mp hfree
    rw [returns_modify_bind] at h
    obtain ⟨rfl, rfl⟩ := returns_pure.mp h
    refine ⟨rfl, fun pid fd' hne ↦ ?_, fun _ _ h ↦ h, fun fd' hfd ↦ ?_⟩
    · rw [Fs.setFd_tasks]
      by_cases hp : pid = s.running
      · subst hp
        have hne' : fd' ≠ fd := fun heq ↦ hne.elim (fun h ↦ h rfl) fun h ↦ h (by rw [heq])
        rw [Function.update_self]
        exact Function.update_of_ne hne' ..
      · rw [Function.update_of_ne hp]
    · obtain rfl := Option.some.inj hfd
      refine ⟨h3, by omega, by simpa using hval, f, a, hf, ?_, hused⟩
      simp only [Fs.cur, Fs.setFd_tasks, Fs.setFd_running, Function.update_self]

theorem fileOpen_outcome {n flags : ℕ} (h : Returns (fileOpen E n flags) s r s') :
    OpenOutcome s s' r := by
  obtain ⟨slot, t, h1, h⟩ := returns_bind.mp h
  obtain ⟨rfl, hslot⟩ := returns_getFreeSlotInGlobal h1
  cases slot with
  | none =>
    obtain ⟨rfl, rfl⟩ := returns_pure.mp h
    exact (SameFiles.of_eq rfl rfl rfl).outcome
  | some f =>
    obtain ⟨hf, hfree⟩ := hslot f rfl
    obtain ⟨a, t₁, h2, h⟩ := returns_bind.mp h
    have hk : SameFiles t t₁ := within_inodeOpen E n _ _ _ h2
    rw [returns_modify_bind] at h
    obtain ⟨ino, t₂, h3, h⟩ := returns_bind.mp h
    obtain ⟨-, -, rfl⟩ := returns_inodeAt.mp h3
    set t₂ := t₁.setFile f ⟨0, flags, some a⟩ with ht₂
    refine OpenOutcome.after (OpenOutcome.after_setFile (by rwa [hk.table]) (?_ : OpenOutcome t₂ s' r)) hk
    have hused : (t₂.fileTable f).fdInode = some a := by
      rw [ht₂, Fs.setFile_fileTable, Function.update_self]
    rcases returns_ite.mp h with ⟨-, h⟩ | ⟨-, h⟩
    · rcases returns_ite.mp h with ⟨-, h⟩ | ⟨-, h⟩
      · -- the file is open for writing already
        obtain ⟨rfl, rfl⟩ := returns_pure.mp h
        exact (SameFiles.of_eq rfl rfl rfl).outcome
      · obtain ⟨u, t₃, h4, h⟩ := returns_bind.mp h
        have hk' : SameFiles t₂ t₃ := within_replaceInode a _ _ _ _ h4
        exact (pcbFdInstall_outcome h hf (by rw [hk'.table, hused])).after hk'
    · exact pcbFdInstall_outcome h hf hused

/-- The steps of a rollback behind the file table. -/
theorem fileCreateRollback_tail {ioBuf n : ℕ} {newInode : Option ℕ}
    (h : Returns (fileCreateRollback E ioBuf n newInode none) s r s') :
    r = none ∧ SameFiles s s' := by
  have htail : ∀ t, Returns (do
      bitmapSet .inodeBitmap n false
      sysFree E ioBuf
      pure none : FsM (Option ℕ)) t r s' → r = none ∧ SameFiles t s' := by
    intro t h
    obtain ⟨u, t₁, h1, h⟩ := returns_bind.mp h
    obtain ⟨u', t₂, h2, h⟩ := returns_bind.mp h
    obtain ⟨rfl, rfl⟩ := returns_pure.mp h
    have hk : SameFiles t t₁ := within_bitmapSet _ _ _ _ _ _ h1
    have hk' : SameFiles t₁ s' := within_sysFree E _ _ _ _ h2
    exact ⟨rfl, hk.trans hk'⟩
  cases newInode with
  | none => exact htail s h
  | some a =>
    obtain ⟨u, t, h1, h⟩ := returns_bind.mp h
    have hk : SameFiles s t := within_sysFree E a _ _ _ h1
    obtain ⟨hr, hk'⟩ := htail t h
    exact ⟨hr, hk.trans hk'⟩

theorem fileCreateIn_outcome {parentDir : Dir} {filename : List UInt8} {flag ioBuf n a : ℕ}
    (h : Returns (fileCreateIn E parentDir filename flag ioBuf n a) s r s') :
    OpenOutcome s s' r := by
  obtain ⟨slot, t, h1, h⟩ := returns_bind.mp h
  obtain ⟨rfl, hslot⟩ := returns_getFreeSlotInGlobal h1
  cases slot with
  | none =>
    obtain ⟨rfl, hk⟩ := fileCreateRollback_tail h
    exact hk.outcome
  | some f =>
    obtain ⟨hf, hfree⟩ := hslot f rfl
    obtain ⟨u, t₁, h2, h⟩ := returns_bind.mp h
    have hk : SameFiles t t₁ := within_replaceInode a _ _ _ _ h2
    have hfree₁ : (t₁.fileTable f).fdInode = none := by rwa [hk.table]
    rw [returns_modify_bind] at h
    set t₂ := t₁.setFile f ⟨0, flag, some a⟩ with ht₂
    have hused : (t₂.fileTable f).fdInode = some a := by
      rw [ht₂, Fs.setFile_fileTable, Function.update_self]
    obtain ⟨e, t₃, h3, h⟩ := returns_bind.mp h
    obtain ⟨b, t₄, h4, h⟩ := returns_bind.mp h
    have hk₃ : SameFiles t₂ t₃ := within_createDirEntry _ _ _ _ _ _ h3
    have hk₄ : SameFiles t₂ t₄ := hk₃.trans (within_syncDirEntry E _ _ _ _ _ _ h4)
    refine OpenOutcome.after ?_ hk
    cases b with
    | true =>
      -- the entry was written, so the file is opened
      have hmid : Within SameFiles (do
          let parent ← inodeAt parentDir.inode
          inodeSync E parent 1024
          let ino ← inodeAt a
          inodeSync E ino 1024
          bitmapSync E n .inodeBitmap
          modify fun s ↦ s.pushOpen a
          modifyInode a fun ino ↦ { ino with iOpenCnts := 1 }
          sysFree E ioBuf : FsM PUnit) :=
        .bind (within_inodeAt _) fun _ ↦ .bind (within_inodeSync E _ _) fun _ ↦
          .bind (within_inodeAt _) fun _ ↦ .bind (within_inodeSync E _ _) fun _ ↦
            .bind (within_bitmapSync E _ _) fun _ ↦ .bind (within_pushOpen _) fun _ ↦
              .bind (within_replaceInode _ _) fun _ ↦ within_sysFree E _
      have hsplit : ∃ t₅, SameFiles t₄ t₅ ∧ Returns (pcbFdInstall f) t₅ r s' := by
        obtain ⟨p, w₁, g1, h⟩ := returns_bind.mp h
        obtain ⟨u₁, w₂, g2, h⟩ := returns_bind.mp h
        obtain ⟨i, w₃, g3, h⟩ := returns_bind.mp h
        obtain ⟨u₂, w₄, g4, h⟩ := returns_bind.mp h
        obtain ⟨u₃, w₅, g5, h⟩ := returns_bind.mp h
        obtain ⟨u₄, w₆, g6, h⟩ := returns_bind.mp h
        obtain ⟨u₅, w₇, g7, h⟩ := returns_bind.mp h
        obtain ⟨u₆, w₈, g8, h⟩ := returns_bind.mp h
        refine ⟨w₈, hmid t₄ u₆ w₈ ?_, h⟩
        exact returns_bind.mpr ⟨p, w₁, g1, returns_bind.mpr ⟨u₁, w₂, g2, returns_bind.mpr
          ⟨i, w₃, g3, returns_bind.mpr ⟨u₂, w₄, g4, returns_bind.mpr ⟨u₃, w₅, g5,
            returns_bind.mpr ⟨u₄, w₆, g6, returns_bind.mpr ⟨u₅, w₇, g7, g8⟩⟩⟩⟩⟩⟩⟩
      obtain ⟨t₅, hk₅, h⟩ := hsplit
      have hk' := hk₄.trans hk₅
      exact OpenOutcome.after_setFile hfree₁
        ((pcbFdInstall_outcome h hf (by rw [hk'.table, hused])).after hk')
    | false =>
      obtain ⟨u', t₅, h5, h⟩ := returns_bind.mp h
      rw [returns_modify] at h5
      subst h5
      have h : Returns (fileCreateRollback E ioBuf n (some a) none)
        (t₄.setFile f ⟨0, 0, none⟩) r s' := h
      obtain ⟨rfl, hk₅⟩ := fileCreateRollback_tail h
      exact (hk₄.undo hfree₁).before hk₅

theorem fileCreate_outcome {parentDir : Dir} {filename : List UInt8} {flag : ℕ}
    (h : Returns (fileCreate E parentDir filename flag) s r s') : OpenOutcome s s' r := by
  obtain ⟨ioBuf, t, h1, h⟩ := returns_bind.mp h
  have hk₁ : SameFiles s t := within_sysMalloc E _ _ _ _ _ h1
  cases ioBuf with
  | none =>
    obtain ⟨rfl, rfl⟩ := returns_pure.mp h
    exact hk₁.outcome
  | some ioBuf =>
    obtain ⟨n, t₁, h2, h⟩ := returns_bind.mp h
    have hk₂ := hk₁.trans (within_bitmapAlloc _ _ _ _ h2)
    cases n with
    | none =>
      obtain ⟨rfl, rfl⟩ := returns_pure.mp h
      exact hk₂.outcome
    | some n =>
      obtain ⟨a, t₂, h3, h⟩ := returns_bind.mp h
      have hk₃ := hk₂.trans (within_sysMalloc E _ _ _ _ _ h3)
      cases a with
      | none =>
        obtain ⟨rfl, hk⟩ := fileCreateRollback_tail h
        exact (hk₃.trans hk).outcome
      | some a =>
        obtain ⟨u, t₃, h4, h⟩ := returns_bind.mp h
        exact (fileCreateIn_outcome h).after (hk₃.trans (within_setInodeAt _ _ _ _ _ h4))

/-- `sys_open` gets past the checks behind the search, which finds `x` in the directory of `record`. -/
structure Fs.Finds (E : Env) (s : Fs) (pathname : List UInt8) (x : Option ℕ)
    (record : PathSearchRecord) (t : Fs) : Prop where
  noSlash : pathname.getLast? ≠ some slash
  search : Returns (searchFile E pathname) s (x, record) t
  noDir : record.fileType ≠ .directory
  depth : (components pathname).length = (components record.searchedPath).length

/-- Behind the checks, `sys_open` creates a file or opens one, or it gives up. -/
theorem sysOpenIn_of_finds {pathname : List UInt8} {flags depth : ℕ} {x : Option ℕ}
    {record : PathSearchRecord} (hdir : record.fileType ≠ .directory)
    (hdepth : depth = (components record.searchedPath).length)
    (h : Returns (sysOpenIn E pathname flags depth x record) s r s') :
    (flags &&& oCreat = 0 ↔ x = none) ∧ r = none ∧
        Returns (dirClose E record.parentDir) s PUnit.unit s' ∨
      (flags &&& oCreat ≠ 0 ∧ x = none ∧ ∃ t,
        Returns (fileCreate E record.parentDir (strrchrNext pathname) flags) s r t ∧
          Returns (dirClose E record.parentDir) t PUnit.unit s') ∨
        (flags &&& oCreat = 0 ∧ ∃ n, x = some n ∧ Returns (fileOpen E n flags) s r s') := by
  rcases returns_ite.mp h with ⟨hdir', -⟩ | ⟨-, h⟩
  · exact absurd hdir' hdir
  · obtain ⟨d, t, h1, htail⟩ := returns_bind.mp h
    obtain ⟨-, rfl, rfl⟩ := pathDepthCnt_sound h1
    rcases returns_ite.mp htail with ⟨hne, -⟩ | ⟨-, h⟩
    · exact absurd hdepth hne
    · cases x with
      | none =>
        rcases returns_ite.mp h with ⟨hflags, h⟩ | ⟨hflags, h⟩
        · obtain ⟨u, t₁, h2, h⟩ := returns_bind.mp h
          obtain ⟨rfl, rfl⟩ := returns_pure.mp h
          exact Or.inl ⟨iff_of_true hflags rfl, rfl, h2⟩
        · obtain ⟨fd, t₁, h2, h⟩ := returns_bind.mp h
          obtain ⟨u, t₂, h3, h⟩ := returns_bind.mp h
          obtain ⟨rfl, rfl⟩ := returns_pure.mp h
          exact Or.inr (Or.inl ⟨hflags, rfl, t₁, h2, h3⟩)
      | some n =>
        rcases returns_ite.mp h with ⟨hflags, h⟩ | ⟨hflags, h⟩
        · obtain ⟨u, t₁, h2, h⟩ := returns_bind.mp h
          obtain ⟨rfl, rfl⟩ := returns_pure.mp h
          exact Or.inl ⟨iff_of_false hflags (Option.some_ne_none n), rfl, h2⟩
        · exact Or.inr (Or.inr ⟨not_not.mp hflags, n, rfl, h⟩)

/-- **The ways `sys_open` goes**: nothing is done, the directory found is closed again, a file is
created, or a file is opened. -/
theorem sysOpen_cases {pathname : List UInt8} {flags : ℕ}
    (h : Returns (sysOpen E pathname flags) s r s') :
    r = none ∧ s' = s ∧ pathname.getLast? = some slash ∨
      (∃ x record t, Returns (searchFile E pathname) s (x, record) t ∧
        (s.Finds E pathname x record t → (flags &&& oCreat = 0 ↔ x = none)) ∧ r = none ∧
          Returns (dirClose E record.parentDir) t PUnit.unit s') ∨
      (∃ record t t', s.Finds E pathname none record t ∧ flags &&& oCreat ≠ 0 ∧
        Returns (fileCreate E record.parentDir (strrchrNext pathname) flags) t r t' ∧
          Returns (dirClose E record.parentDir) t' PUnit.unit s') ∨
      ∃ n record t, s.Finds E pathname (some n) record t ∧ flags &&& oCreat = 0 ∧
        Returns (fileOpen E n flags) t r s' := by
  obtain ⟨-, h⟩ := returns_check_bind.mp h
  rcases returns_ite.mp h with ⟨hlast, h⟩ | ⟨hlast, h⟩
  · obtain ⟨rfl, rfl⟩ := returns_pure.mp h
    exact Or.inl ⟨rfl, rfl, hlast⟩
  · obtain ⟨-, h⟩ := returns_check_bind.mp h
    obtain ⟨d, t₀, h1, hsearch⟩ := returns_bind.mp h
    obtain ⟨-, rfl, rfl⟩ := pathDepthCnt_sound h1
    obtain ⟨⟨x, record⟩, t, h2, h⟩ := returns_bind.mp hsearch
    dsimp only at h
    by_cases hfinds : record.fileType ≠ .directory ∧
        (components pathname).length = (components record.searchedPath).length
    · have hf : t₀.Finds E pathname x record t := ⟨hlast, h2, hfinds.1, hfinds.2⟩
      rcases sysOpenIn_of_finds hfinds.1 hfinds.2 h with h3 | ⟨h3, rfl, t', h4⟩ | ⟨h3, n, rfl, h4⟩
      · exact Or.inr (Or.inl ⟨x, record, t, h2, fun _ ↦ h3.1, h3.2⟩)
      · exact Or.inr (Or.inr (Or.inl ⟨record, t, t', hf, h3, h4⟩))
      · exact Or.inr (Or.inr (Or.inr ⟨n, record, t, hf, h3, h4⟩))
    · -- a directory, or the search ended before the last component
      have hclose : r = none ∧ Returns (dirClose E record.parentDir) t PUnit.unit s' := by
        rcases returns_ite.mp h with ⟨-, h⟩ | ⟨hdir, h⟩
        · obtain ⟨u, t₁, h3, h⟩ := returns_bind.mp h
          obtain ⟨rfl, rfl⟩ := returns_pure.mp h
          exact ⟨rfl, h3⟩
        · obtain ⟨d', t₁, h3, htail⟩ := returns_bind.mp h
          obtain ⟨-, rfl, rfl⟩ := pathDepthCnt_sound h3
          rcases returns_ite.mp htail with ⟨-, h⟩ | ⟨hdepth, -⟩
          · obtain ⟨u, t₂, h4, h⟩ := returns_bind.mp h
            obtain ⟨rfl, rfl⟩ := returns_pure.mp h
            exact ⟨rfl, h4⟩
          · exact absurd ⟨hdir, not_not.mp hdepth⟩ hfinds
      exact Or.inr (Or.inl ⟨x, record, t, h2, fun hf ↦ absurd ⟨hf.noDir, hf.depth⟩ hfinds, hclose⟩)

/-- **`sys_open`.** -/
theorem sysOpen_outcome {pathname : List UInt8} {flags : ℕ}
    (h : Returns (sysOpen E pathname flags) s r s') : OpenOutcome s s' r := by
  rcases sysOpen_cases h with ⟨rfl, rfl, -⟩ | ⟨x, record, t, h1, -, rfl, h2⟩ |
    ⟨record, t, t', hf, -, h1, h2⟩ | ⟨n, record, t, hf, -, h1⟩
  · exact (SameFiles.of_eq rfl rfl rfl).outcome
  · have hk : SameFiles s t := within_searchFile E _ _ _ _ h1
    exact (hk.trans (within_dirClose E _ _ _ _ h2)).outcome
  · have hk : SameFiles s t := within_searchFile E _ _ _ _ hf.search
    exact ((fileCreate_outcome h1).before (within_dirClose E _ _ _ _ h2)).after hk
  · exact (fileOpen_outcome h1).after (within_searchFile E _ _ _ _ hf.search)

/-- **`sys_close`** clears the entry that the descriptor designates. -/
theorem sysClose_outcome {fd : ℤ} {b : Bool} (h : Returns (sysClose E fd) s b s') :
    b = false ∧ s' = s ∨ b = true ∧ 2 < fd ∧ fd.toNat < maxFilesOpenPerProc ∧
      ∃ g : ℕ, s.cur.fdTable fd.toNat = g ∧ s'.running = s.running ∧
        (s'.fileTable g).fdInode = none ∧ (∀ g' ≠ g, s'.fileTable g' = s.fileTable g') ∧
        s'.cur.fdTable fd.toNat = -1 ∧
        ∀ pid fd', pid ≠ s.running ∨ fd' ≠ fd.toNat →
          (s'.tasks pid).fdTable fd' = (s.tasks pid).fdTable fd' := by
  rcases returns_ite.mp h with ⟨hfd, h⟩ | ⟨-, h⟩
  · obtain ⟨g, t, h1, h⟩ := returns_bind.mp h
    obtain ⟨hlt, h1⟩ := returns_check_bind.mp h1
    rw [returns_get_bind] at h1
    obtain ⟨⟨h0, -⟩, h1⟩ := returns_check_bind.mp h1
    obtain ⟨-, h1⟩ := returns_check_bind.mp h1
    obtain ⟨rfl, rfl⟩ := returns_pure.mp h1
    obtain ⟨u, t₁, h2, h⟩ := returns_bind.mp h
    rw [returns_modify_bind] at h
    obtain ⟨rfl, rfl⟩ := returns_pure.mp h
    set g := (t.cur.fdTable fd.toNat).toNat with hg
    -- the steps of `file_close`
    obtain ⟨a, t₂, h3, h2⟩ := returns_bind.mp h2
    have hk₂ : SameFiles t t₂ := by
      rw [fdInodeOf, returns_get_bind] at h3
      cases hi : (t.fileTable g).fdInode with
      | none =>
        rw [hi] at h3
        exact absurd h3 returns_throw
      | some a' =>
        rw [hi] at h3
        obtain ⟨-, rfl⟩ := returns_pure.mp h3
        exact .of_eq rfl rfl rfl
    obtain ⟨u₁, t₃, h4, h2⟩ := returns_bind.mp h2
    obtain ⟨u₂, t₄, h5, h2⟩ := returns_bind.mp h2
    rw [returns_modify] at h2
    subst h2
    have hk₃ := hk₂.trans (within_replaceInode _ _ _ _ _ h4)
    have hk₄ := hk₃.trans (within_inodeClose E _ _ _ _ h5)
    refine Or.inr ⟨rfl, hfd, hlt, g, ?_, hk₄.running, ?_, ?_, ?_, ?_⟩
    · exact (Int.toNat_of_nonneg h0).symm
    · simp only [Fs.setFd_fileTable, Fs.setFile_fileTable, Function.update_self]
    · intro g' hne
      simp only [Fs.setFd_fileTable, Fs.setFile_fileTable]
      rw [Function.update_of_ne hne, hk₄.table]
    · simp only [Fs.cur, Fs.setFd_tasks, Fs.setFd_running, Function.update_self]
    · intro pid fd' hne
      simp only [Fs.setFd_tasks, Fs.setFile_tasks, Fs.setFile_running, Fs.cur]
      by_cases hp : pid = t₄.running
      · have hne' : fd' ≠ fd.toNat := by
          refine hne.resolve_left fun h ↦ h ?_
          rw [hp, hk₄.running]
        rw [hp, Function.update_self]
        dsimp only
        rw [Function.update_of_ne hne', hk₄.fds]
      · rw [Function.update_of_ne hp, hk₄.fds]
  · obtain ⟨rfl, rfl⟩ := returns_pure.mp h
    exact Or.inl ⟨rfl, rfl⟩

theorem updataInodeOpenCnts_same {fdTable : ℕ → ℤ} {left fd : ℕ} {u : PUnit}
    (h : Returns (updataInodeOpenCnts fdTable left fd) s u s') : SameFiles s s' := by
  induction left generalizing s fd with
  | zero =>
    obtain ⟨-, rfl⟩ := returns_pure.mp h
    exact .of_eq rfl rfl rfl
  | succ left ih =>
    obtain ⟨-, h⟩ := returns_check_bind.mp h
    rcases returns_ite.mp h with ⟨-, h⟩ | ⟨-, h⟩
    · obtain ⟨-, h⟩ := returns_check_bind.mp h
      obtain ⟨a, t, h1, h⟩ := returns_bind.mp h
      obtain ⟨u', t₁, h2, h⟩ := returns_bind.mp h
      have hk : SameFiles s t := by
        rw [fdInodeOf, returns_get_bind] at h1
        cases hi : (s.fileTable (fdTable fd).toNat).fdInode with
        | none =>
          rw [hi] at h1
          exact absurd h1 returns_throw
        | some a' =>
          rw [hi] at h1
          obtain ⟨-, rfl⟩ := returns_pure.mp h1
          exact .of_eq rfl rfl rfl
      exact (hk.trans (within_replaceInode _ _ _ _ _ h2)).trans (ih h)
    · exact ih h

/-- **`sys_fork`** copies the descriptors. -/
theorem sysFork_outcome {child : ℕ} {pgdir : Option ℕ} (h : Returns (sysFork child pgdir) s r s') :
    r = none ∧ s' = s ∨ r = some child ∧ s'.running = s.running ∧ s'.fileTable = s.fileTable ∧
      (s'.tasks child).fdTable = s.cur.fdTable ∧
      ∀ pid ≠ child, (s'.tasks pid).fdTable = (s.tasks pid).fdTable := by
  cases pgdir with
  | none =>
    obtain ⟨rfl, rfl⟩ := returns_pure.mp h
    exact Or.inl ⟨rfl, rfl⟩
  | some pgdir =>
    rw [sysFork, returns_get_bind, returns_check_bind] at h
    obtain ⟨-, h⟩ := h
    rw [returns_modify_bind] at h
    obtain ⟨u, t, h1, h⟩ := returns_bind.mp h
    obtain ⟨rfl, rfl⟩ := returns_pure.mp h
    have hk := updataInodeOpenCnts_same h1
    refine Or.inr ⟨rfl, hk.running, hk.table, ?_, fun pid hne ↦ ?_⟩
    · rw [hk.fds, Fs.copyPcb_tasks, Function.update_self]
    · rw [hk.fds, Fs.copyPcb_tasks, Function.update_of_ne hne]

end Outcomes

/-! ## Any run -/

section Runs

variable {E : Env} {σ σ' : FdState} {c : FdCall}

/-- The descriptors another process or another number are held for are designated as before. -/
theorem FdState.Designates.of_outcome {s : Fs} {pid : ℕ} {r : Option ℕ} (hd : σ.Designates)
    (h : OpenOutcome (σ.fs.run pid) s r) {pid' fd' : ℕ} {x : Option ℕ}
    (hheld : σ.held pid' fd' = some x) :
    3 ≤ fd' ∧ fd' < maxFilesOpenPerProc ∧ ∃ g a : ℕ, g < maxFileOpen ∧
      (s.tasks pid').fdTable fd' = g ∧ x = some a ∧ (s.fileTable g).fdInode = some a := by
  obtain ⟨h1, h2, g, a, h3, h4, h5, h6⟩ := hd pid' fd' x hheld
  refine ⟨h1, h2, g, a, h3, ?_, h5, h.used g a h6⟩
  rw [← h4]
  refine h.others pid' fd' (not_and_or.mp ?_)
  -- a new descriptor was free, but this one is held
  rintro ⟨hp, hfd⟩
  have hfree := (h.new fd' hfd).2.2.1
  rw [Fs.cur, ← hp] at hfree
  have : (σ.fs.tasks pid').fdTable fd' = -1 := hfree
  omega

/-- **One step.** -/
theorem FdStep.designates (h : FdStep E σ c σ') (hd : σ.Designates) (hc : σ.ClosesAlone c) :
    σ'.Designates := by
  cases h with
  | @opened s pid fd flags pathname hpid h =>
    have ho := sysOpen_outcome h
    intro pid' fd' x hheld
    by_cases hnew : pid' = pid ∧ fd' = fd
    · obtain ⟨rfl, rfl⟩ := hnew
      simp only [Function.update_self, Option.some.injEq] at hheld
      obtain ⟨h1, h2, -, g, a, h3, h4, h5⟩ := ho.new fd' rfl
      have hrun : s.running = pid' := ho.running
      rw [Fs.cur, hrun] at h4
      refine ⟨h1, h2, g, a, h3, h4, ?_, h5⟩
      rw [← hheld, Fs.designated, h4, Int.toNat_natCast, h5]
    · refine hd.of_outcome ho ?_
      rw [← hheld]
      by_cases hp : pid' = pid
      · subst hp
        dsimp only
        rw [Function.update_self, Function.update_of_ne fun heq ↦ hnew ⟨rfl, heq⟩]
      · dsimp only
        rw [Function.update_of_ne hp]
  | notOpened hpid h => exact fun pid' fd' x hheld ↦ hd.of_outcome (sysOpen_outcome h) hheld
  | @closed s pid fd hpid h =>
    rcases sysClose_outcome h with ⟨hb, -⟩ | ⟨-, hfd, hlt, g, hg, hrun, hnone, hsame, hminus, hfds⟩
    · cases hb
    · intro pid' fd' x hheld
      have hne : ¬(pid' = pid ∧ fd' = fd.toNat) := by
        rintro ⟨rfl, rfl⟩
        simp only [Function.update_self] at hheld
        cases hheld
      have hheld₀ : σ.held pid' fd' = some x := by
        rw [← hheld]
        by_cases hp : pid' = pid
        · subst hp
          dsimp only
          rw [Function.update_self, Function.update_of_ne fun heq ↦ hne ⟨rfl, heq⟩]
        · dsimp only
          rw [Function.update_of_ne hp]
      obtain ⟨h1, h2, g', a, h3, h4, h5, h6⟩ := hd pid' fd' x hheld₀
      have hgg : g' ≠ g := by
        rintro rfl
        refine hne (hc hfd pid' fd' (by rw [hheld₀]; exact Option.some_ne_none x) ?_)
        rw [h4]
        exact hg.symm
      refine ⟨h1, h2, g', a, h3, ?_, h5, ?_⟩
      · rw [← h4]
        exact hfds pid' fd' (not_and_or.mp hne)
      · rw [hsame g' hgg]
        exact h6
  | notClosed hpid h =>
    rcases sysClose_outcome h with ⟨-, rfl⟩ | ⟨hb, -⟩
    · exact hd
    · cases hb
  | @forked s pid child pgdir hpid h =>
    rcases sysFork_outcome h with ⟨hr, -⟩ | ⟨-, hrun, htable, hchild, hfds⟩
    · cases hr
    · intro pid' fd' x hheld
      dsimp only at hheld
      dsimp only
      rw [htable]
      by_cases hp : pid' = σ.nextPid
      · rw [hp, Function.update_self] at hheld
        rw [hp, hchild]
        exact hd pid fd' x hheld
      · rw [Function.update_of_ne hp] at hheld
        rw [hfds pid' hp]
        exact hd pid' fd' x hheld
  | notForked hpid h =>
    rcases sysFork_outcome h with ⟨-, rfl⟩ | ⟨hr, -⟩
    · exact hd
    · cases hr

/-- A close that takes the entry away from another held descriptor shows at once. -/
theorem FdStep.closesAlone (h : FdStep E σ c σ') (hd' : σ'.Designates) : σ.ClosesAlone c := by
  cases h with
  | @closed s pid fd hpid h =>
    rcases sysClose_outcome h with ⟨hb, -⟩ | ⟨-, hfd, hlt, g, hg, hrun, hnone, hsame, hminus, hfds⟩
    · cases hb
    · intro _ pid' fd' hheld heq
      by_contra hne
      obtain ⟨x, hx⟩ := Option.ne_none_iff_exists'.mp hheld
      -- it is still held, but its entry is cleared
      have hx' : Function.update σ.held pid (Function.update (σ.held pid) fd.toNat none) pid' fd'
          = some x := by
        by_cases hp : pid' = pid
        · subst hp
          rw [Function.update_self, Function.update_of_ne fun h ↦ hne ⟨rfl, h⟩, hx]
        · rw [Function.update_of_ne hp, hx]
      obtain ⟨-, -, g', a, -, h4, -, h6⟩ := hd' pid' fd' x hx'
      have hfd' : (s.tasks pid').fdTable fd' = g := by
        rw [hfds pid' fd' (not_and_or.mp hne)]
        exact heq.trans hg
      obtain rfl : g' = g := by
        dsimp only at h4
        omega
      rw [hnone] at h6
      cases h6
  | notClosed hpid h =>
    rcases sysClose_outcome h with ⟨-, -⟩ | ⟨hb, -⟩
    · intro hfd
      rcases returns_ite.mp h with ⟨-, h⟩ | ⟨hnot, -⟩
      · obtain ⟨g, t, -, h⟩ := returns_bind.mp h
        obtain ⟨u, t', -, h⟩ := returns_bind.mp h
        rw [returns_modify_bind] at h
        obtain ⟨hb, -⟩ := returns_pure.mp h
        cases hb
      · exact absurd hfd hnot
    · cases hb
  | opened | notOpened | forked | notForked => trivial

end Runs

/-! ## A close in the child -/

/-- The kernel thread 0 and the user processes, without open files, on an empty disk. -/
def Fs.boot : Fs :=
  { Fs.blank with tasks := fun pid ↦ ⟨fun _ ↦ -1, if pid = 0 then none else some pid⟩ }

/-- After `filesys_init`, process 1 creates a file and forks, and the child closes the file. -/
def openForkClose (E : Env) : FsM (Option ℕ × Option ℕ × Bool × Option ℕ) := do
  filesysInit E
  modify fun s ↦ s.run 1
  let fd ← sysOpen E [slash, 97] (oCreat + oRdwr)
  modify fun s ↦ s.run 1
  let child ← sysFork 2 (some 2)
  modify fun s ↦ s.run 2
  let closed ← sysClose E 3
  let s ← get
  pure (fd, child, closed, s.designated 1 3)

theorem returns_openForkClose : ∃ s, Returns (openForkClose (Env.bump samplePartition)) Fs.boot
    (some 3, some 2, true, none) s :=
  exists_returns (by decide +kernel)

/-- The calls of this run. -/
def openForkCloseCalls (i : ℕ) : FdCall :=
  if i = 0 then .sysOpen 1 [slash, 97] (oCreat + oRdwr)
  else if i = 1 then .sysFork 1 (some 2)
  else .sysClose 2 3

/-- The states of this run. In the last one the parent still holds its descriptor. -/
theorem exists_openForkClose : ∃ σ : ℕ → FdState, (∀ pid fd, (σ 0).held pid fd = none) ∧
    (∀ i < 3, FdStep (Env.bump samplePartition) (σ i) (openForkCloseCalls i) (σ (i + 1))) ∧
    (σ 3).held 1 3 ≠ none ∧ (σ 3).fs.designated 1 3 = none := by
  obtain ⟨s, h⟩ := returns_openForkClose
  obtain ⟨u, s₀, -, h⟩ := returns_bind.mp h
  rw [returns_modify_bind] at h
  obtain ⟨fd, s₁, h1, h⟩ := returns_bind.mp h
  rw [returns_modify_bind] at h
  obtain ⟨child, s₂, h2, h⟩ := returns_bind.mp h
  rw [returns_modify_bind] at h
  obtain ⟨closed, s₃, h3, h⟩ := returns_bind.mp h
  rw [returns_get_bind, returns_pure] at h
  obtain ⟨h4, rfl⟩ := h
  simp only [Prod.mk.injEq] at h4
  obtain ⟨rfl, rfl, rfl, h4⟩ := h4
  let σ₀ : FdState := ⟨s₀, fun _ _ ↦ none, 2⟩
  let σ₁ : FdState := ⟨s₁, Function.update σ₀.held 1
    (Function.update (σ₀.held 1) 3 (some (s₁.designated 1 3))), 2⟩
  let σ₂ : FdState := ⟨s₂, Function.update σ₁.held 2 (σ₁.held 1), 3⟩
  let σ₃ : FdState := ⟨s, Function.update σ₂.held 2
    (Function.update (σ₂.held 2) (3 : ℤ).toNat none), 3⟩
  have hopen : FdStep (Env.bump samplePartition) σ₀ _ σ₁ := .opened (by decide : 1 < 2) h1
  have hfork : FdStep (Env.bump samplePartition) σ₁ _ σ₂ := .forked (by decide : 1 < 2) h2
  have hclose : FdStep (Env.bump samplePartition) σ₂ _ σ₃ := .closed (by decide : 2 < 3) h3
  refine ⟨fun i ↦ if i = 0 then σ₀ else if i = 1 then σ₁ else if i = 2 then σ₂ else σ₃,
    fun _ _ ↦ rfl, fun i hi ↦ ?_, Option.some_ne_none _, h4.symm⟩
  rcases (by omega : i = 0 ∨ i = 1 ∨ i = 2) with rfl | rfl | rfl
  · exact hopen
  · exact hfork
  · exact hclose

end GlowOS
