import Mathlib
import GlowOS.Fs.KernelInodes

/-!
# One writer to a file

`write_deny` is meant to keep a second writer away from a file that is open for writing. The flag is
not set when a file is created, every close clears it, and an attempt that it turns down has taken an
entry of `file_table` by then. So there is one writer to each inode exactly as long as no `sys_open`
for writing comes to an inode that an entry open for writing refers to.
-/

namespace GlowOS

open Program

/-- The entry is open for writing, on the inode at `a`. -/
def File.Writes (file : File) (a : ℕ) : Prop :=
  (file.fdFlag &&& oWronly ≠ 0 ∨ file.fdFlag &&& oRdwr ≠ 0) ∧ file.fdInode = some a

/-- At most one entry of `file_table` is open for writing on an inode. -/
def Fs.SingleWriter (s : Fs) : Prop :=
  ∀ f g a, (s.fileTable f).Writes a → (s.fileTable g).Writes a → f = g

/-! ## Runs -/

/-- The calls, and the process that makes them. -/
inductive WriterCall
  | sysOpen (pid : ℕ) (pathname : List UInt8) (flags : ℕ)
  | sysClose (pid : ℕ) (fd : ℤ)
  | sysWrite (pid : ℕ) (fd : ℤ) (buf : Bytes.Image) (count : ℕ)

/-- One completed call. -/
def WriterCall.Runs (E : Env) (s : Fs) : WriterCall → Fs → Prop
  | .sysOpen pid pathname flags, s' => ∃ r, Returns (GlowOS.sysOpen E pathname flags) (s.run pid) r s'
  | .sysClose pid fd, s' => ∃ r, Returns (GlowOS.sysClose E fd) (s.run pid) r s'
  | .sysWrite pid fd buf count, s' =>
    ∃ r, Returns (GlowOS.sysWrite E fd buf count) (s.run pid) r s'

/-- The call opens for writing, with an entry of `file_table` to spare, a file whose inode in memory
an entry open for writing refers to. -/
def WriterCall.Rewrites (E : Env) (s : Fs) : WriterCall → Prop
  | .sysOpen pid pathname flags => flags &&& oCreat = 0 ∧
      (flags &&& oWronly ≠ 0 ∨ flags &&& oRdwr ≠ 0) ∧
      ∃ n record t a g, (s.run pid).Finds E pathname (some n) record t ∧
        (∃ f, s.FreeEntry f) ∧ t.findOpen n = some (some a) ∧
          (s.fileTable g).Writes a
  | _ => False

/-! ## What writing leaves alone -/

/-- The heap and `open_inodes` are the same, and so are the flags and the inodes of the entries of
`file_table`. -/
structure SameRefs (s s' : Fs) : Prop where
  heap : s'.heap = s.heap
  stale : s'.stale = s.stale
  tags : s'.tags = s.tags
  flags : ∀ f, (s'.fileTable f).fdFlag = (s.fileTable f).fdFlag
  inodes : ∀ f, (s'.fileTable f).fdInode = (s.fileTable f).fdInode

instance : Writing SameRefs where
  refl _ := ⟨rfl, rfl, rfl, fun _ ↦ rfl, fun _ ↦ rfl⟩
  trans _ _ _ h h' := ⟨h'.heap.trans h.heap, h'.stale.trans h.stale, h'.tags.trans h.tags,
    fun f ↦ (h'.flags f).trans (h.flags f), fun f ↦ (h'.inodes f).trans (h.inodes f)⟩
  store _ _ _ _ := ⟨rfl, rfl, rfl, fun _ ↦ rfl, fun _ ↦ rfl⟩
  setBitmap s ty i v := by cases ty <;> exact ⟨rfl, rfl, rfl, fun _ ↦ rfl, fun _ ↦ rfl⟩
  setInode _ _ _ _ _ := ⟨rfl, rfl, rfl, fun _ ↦ rfl, fun _ ↦ rfl⟩
  replace _ _ _ := ⟨rfl, rfl, rfl, fun _ ↦ rfl, fun _ ↦ rfl⟩
  seek s f n := by
    refine ⟨rfl, rfl, rfl, fun g ↦ ?_, fun g ↦ ?_⟩ <;> rw [Fs.setFile_fileTable] <;>
      by_cases hg : g = f
    · rw [hg, Function.update_self]
    · rw [Function.update_of_ne hg]
    · rw [hg, Function.update_self]
    · rw [Function.update_of_ne hg]

section Calls

variable {E : Env} {p : ℕ → Prop} {s s' : Fs} {xs B : List ℕ}

theorem SameRefs.writes (h : SameRefs s s') (f a : ℕ) :
    (s'.fileTable f).Writes a ↔ (s.fileTable f).Writes a := by
  rw [File.Writes, File.Writes, h.flags, h.inodes]

theorem Shared.congrRefs (h : Shared p s xs B) (hs : SameRefs s s') : Shared p s' xs B := by
  refine h.of_kept (hs.tags ▸ h.list) hs.inodes ?_ h.nodup (hs.heap ▸ h.own)
  exact fun a ha ↦ ha.congr (congrFun hs.heap a) (congrFun hs.stale a)

theorem Fs.SingleWriter.mono (h : s.SingleWriter)
    (hw : ∀ f a, (s'.fileTable f).Writes a → (s.fileTable f).Writes a) : s'.SingleWriter :=
  fun f g a hf hg ↦ h f g a (hw f a hf) (hw g a hg)

/-- `file_write` keeps the flags and the inodes of the entries. -/
theorem Shared.fileWrite {f count : ℕ} {buf : Bytes.Image} {r : Option ℕ} (h : Shared p s xs B)
    (hE : E.KeepsStale) (hret : Returns (fileWrite E f buf count) s r s') :
    Shared p s' xs B ∧ ∀ g a, (s'.fileTable g).Writes a ↔ (s.fileTable g).Writes a := by
  obtain ⟨a, t, h1, htail⟩ := returns_bind.mp hret
  obtain ⟨-, rfl⟩ := returns_fdInodeOf.mp h1
  obtain ⟨ino, t₁, h2, htail₁⟩ := returns_bind.mp htail
  obtain ⟨-, rfl, rfl⟩ := returns_inodeAt.mp h2
  rcases returns_ite.mp htail₁ with ⟨-, hret⟩ | ⟨-, hret⟩
  · obtain ⟨-, rfl⟩ := returns_pure.mp hret
    exact ⟨h, fun _ _ ↦ Iff.rfl⟩
  · obtain ⟨ioBuf, t₂, h3, hret⟩ := returns_bind.mp hret
    have h₂ := h.sysMalloc hE (by decide) h3
    have hk₂ : SameFiles t₁ t₂ := within_sysMalloc E _ _ _ _ _ h3
    cases ioBuf with
    | none =>
      obtain ⟨-, rfl⟩ := returns_pure.mp hret
      exact ⟨h₂, fun g a ↦ by rw [hk₂.table]⟩
    | some ioBuf =>
      obtain ⟨all, t₃, h4, hret⟩ := returns_bind.mp hret
      have h₃ := h₂.sysMalloc hE (by decide) h4
      have hk₃ : SameFiles t₁ t₃ := hk₂.trans (within_sysMalloc E _ _ _ _ _ h4)
      cases all with
      | none =>
        obtain ⟨-, rfl⟩ := returns_pure.mp hret
        exact ⟨Shared.weaken (C := [ioBuf]) h₃, fun g a ↦ by rw [hk₃.table]⟩
      | some all =>
        obtain ⟨r', t₄, h5, hret⟩ := returns_bind.mp hret
        obtain ⟨u, t₅, h6, hret⟩ := returns_bind.mp hret
        obtain ⟨u', t₆, h7, hret⟩ := returns_bind.mp hret
        obtain ⟨-, rfl⟩ := returns_pure.mp hret
        have hk₄ : SameRefs t₃ t₄ := within_fileWriteIn E f a buf count _ _ _ h5
        have hk₆ : SameFiles t₄ s' := (within_sysFree E _ _ _ _ h6 : SameFiles t₄ t₅).trans
          (within_sysFree E _ _ _ _ h7)
        refine ⟨((h₃.congrRefs hk₄).sysFree h6).sysFree h7, fun g a ↦ ?_⟩
        rw [hk₆.table, hk₄.writes, hk₃.table]

/-- **`sys_write`.** -/
theorem Shared.sysWrite {fd : ℤ} {buf : Bytes.Image} {count : ℕ} {r : Option ℕ}
    (h : Shared p s xs B) (hE : E.KeepsStale) (hret : Returns (sysWrite E fd buf count) s r s') :
    Shared p s' xs B ∧ ∀ g a, (s'.fileTable g).Writes a ↔ (s.fileTable g).Writes a := by
  have hsame : s' = s → Shared p s' xs B ∧
      ∀ g a, (s'.fileTable g).Writes a ↔ (s.fileTable g).Writes a := by
    rintro rfl
    exact ⟨h, fun _ _ ↦ Iff.rfl⟩
  rcases returns_ite.mp hret with ⟨-, hret⟩ | ⟨-, hret⟩
  · exact hsame (returns_pure.mp hret).2
  · rcases returns_ite.mp hret with ⟨-, hret⟩ | ⟨-, hret⟩
    · -- the console
      obtain ⟨-, hret⟩ := returns_check_bind.mp hret
      obtain ⟨-, hret⟩ := returns_check_bind.mp hret
      exact hsame (returns_pure.mp hret).2
    · obtain ⟨g, t, h1, hret⟩ := returns_bind.mp hret
      have ht : SameRefs s t := within_fdLocal2global _ _ _ _ h1
      rw [returns_get_bind] at hret
      rcases returns_ite.mp hret with ⟨-, hret⟩ | ⟨-, hret⟩
      · obtain ⟨h₁, hw⟩ := (h.congrRefs ht).fileWrite hE hret
        exact ⟨h₁, fun f a ↦ (hw f a).trans (ht.writes f a)⟩
      · obtain ⟨-, rfl⟩ := returns_pure.mp hret
        exact ⟨h.congrRefs ht, ht.writes⟩

/-- An entry is taken for an inode that no entry is open for writing on. -/
theorem Fs.SingleWriter.of_step {q : ℕ → Prop} {flags : ℕ} (h : s.SingleWriter)
    (hstep : TableStep q flags s s')
    (hq : ∀ a, (∃ f, s.FreeEntry f) → q a → (flags &&& oWronly ≠ 0 ∨ flags &&& oRdwr ≠ 0) →
      ∀ g, ¬(s.fileTable g).Writes a) : s'.SingleWriter := by
  rcases hstep with heq | ⟨f, file, hfree, hupd, hfile⟩
  · exact h.mono fun g a ↦ by rw [heq]; exact id
  · -- the new entry is the only one open for writing on its inode
    have hnew : ∀ a, file.Writes a → ∀ g, ¬(s.fileTable g).Writes a := by
      rintro a ⟨hflags, hinode⟩
      rcases hfile with hnone | ⟨b, rfl, hb⟩
      · cases hnone.symm.trans hinode
      · obtain rfl := Option.some.inj hinode
        exact hq b ⟨f, hfree⟩ hb hflags
    intro g g' a hg hg'
    rw [hupd] at hg hg'
    by_cases hgf : g = f
    · by_cases hgf' : g' = f
      · exact hgf.trans hgf'.symm
      · rw [hgf, Function.update_self] at hg
        rw [Function.update_of_ne hgf'] at hg'
        exact absurd hg' (hnew a hg g')
    · rw [Function.update_of_ne hgf] at hg
      by_cases hgf' : g' = f
      · rw [hgf', Function.update_self] at hg'
        exact absurd hg (hnew a hg' g)
      · rw [Function.update_of_ne hgf'] at hg'
        exact h g g' a hg hg'

end Calls

/-! ## Any run -/

section Runs

variable {E : Env} {s s' : Fs} {c : WriterCall} {xs : List ℕ}

/-- **One call.** -/
theorem WriterCall.Runs.singleWriter (h : c.Runs E s s') (hE : E.KeepsStale)
    (hs : Shared (fun _ ↦ True) s xs []) (hw : s.SingleWriter) (hc : ¬c.Rewrites E s) :
    (∃ ys, Shared (fun _ ↦ True) s' ys []) ∧ s'.SingleWriter := by
  have hs' := fun pid ↦ hs.run pid
  cases c with
  | sysOpen pid pathname flags =>
    obtain ⟨r, h⟩ := h
    have hw' : (s.run pid).SingleWriter := hw
    obtain ⟨hys, hstep⟩ := (hs' pid).sysOpen hE (fun _ _ ↦ trivial) (by simp) h
    refine ⟨hys, ?_⟩
    refine hw'.of_step hstep ?_
    rintro a hfree (ha | ⟨hflags, n, record, t, hf, ha⟩) hwr g hg
    · exact ha g hg.2
    · exact hc ⟨hflags, hwr, n, record, t, a, g, hf, hfree, ha, hg⟩
  | sysClose pid fd =>
    obtain ⟨r, h⟩ := h
    refine ⟨⟨xs, (hs' pid).sysClose h⟩, ?_⟩
    rcases sysClose_outcome h with ⟨-, rfl⟩ | ⟨-, -, -, g, -, -, hnone, hsame, -⟩
    · exact hw
    · refine hw.mono fun f a hf ↦ ?_
      by_cases hfg : f = g
      · rw [hfg] at hf
        cases hnone.symm.trans hf.2
      · rwa [hsame f hfg] at hf
  | sysWrite pid fd buf count =>
    obtain ⟨r, h⟩ := h
    obtain ⟨h₁, hw₁⟩ := (hs' pid).sysWrite hE h
    exact ⟨⟨xs, h₁⟩, hw.mono fun f a ↦ (hw₁ f a).mp⟩

/-- A call that opens the file again leaves two entries open for writing. -/
theorem WriterCall.Runs.not_singleWriter (h : c.Runs E s s') (hc : c.Rewrites E s) :
    ¬s'.SingleWriter := by
  cases c with
  | sysOpen pid pathname flags =>
    obtain ⟨r, h⟩ := h
    obtain ⟨hflags, hwr, n, record, t, a, g, hf, hfree, hfind, hg⟩ := hc
    have htable : t.fileTable = s.fileTable :=
      (within_searchFile E _ _ _ _ hf.search : SameFiles (s.run pid) t).table
    -- the search has one outcome, so the call opens this file
    have hopen : Returns (fileOpen E n flags) t r s' := by
      rcases sysOpen_cases h with ⟨-, -, hlast⟩ | ⟨x, record', t', h1, h2, -⟩ |
        ⟨record', t', t'', hf', -⟩ | ⟨n', record', t', hf', -, h1⟩
      · exact absurd hlast hf.noSlash
      · obtain ⟨heq, rfl⟩ := h1.unique hf.search
        obtain ⟨rfl, rfl⟩ := Prod.mk.inj heq
        cases (h2 hf).mp hflags
      · cases (Prod.mk.inj (hf'.search.unique hf.search).1).1
      · obtain ⟨heq, rfl⟩ := hf'.search.unique hf.search
        obtain ⟨hn, rfl⟩ := Prod.mk.inj heq
        obtain rfl := Option.some.inj hn
        exact h1
    obtain ⟨f, hff, hupd⟩ := fileOpen_takes
      (by simpa only [Fs.FreeEntry, htable] using hfree) hfind hopen
    intro hw
    have hgf : g ≠ f := by
      rintro rfl
      rw [Fs.FreeEntry, htable] at hff
      cases hff.2.2.symm.trans hg.2
    refine hgf (hw g f a ?_ ?_)
    · rwa [hupd, Function.update_of_ne hgf, htable]
    · rw [hupd, Function.update_self]
      exact ⟨hwr, rfl⟩
  | sysClose | sysWrite => exact hc.elim

/-- **One writer to a file.** In a run from a partition that was just mounted, with a heap that never
hands out a block that `inode_close` left linked, at most one entry of `file_table` is open for writing
on an inode in every state if and only if no call opens for writing a file whose inode an entry open
for writing refers to. -/
theorem singleWriter_iff (hE : E.KeepsStale) {σ : ℕ → Fs} {c : ℕ → WriterCall} {n : ℕ}
    (h0 : (σ 0).FreshlyMounted) (hrun : ∀ i < n, (c i).Runs E (σ i) (σ (i + 1))) :
    (∀ i ≤ n, (σ i).SingleWriter) ↔ ∀ i < n, ¬(c i).Rewrites E (σ i) := by
  constructor
  · intro hw i hi hc
    exact (hrun i hi).not_singleWriter hc (hw (i + 1) hi)
  · intro hc
    have hshared : ∀ i ≤ n, (∃ xs, Shared (fun _ ↦ True) (σ i) xs []) ∧ (σ i).SingleWriter := by
      intro i hi
      induction i with
      | zero =>
        refine ⟨⟨_, .of_freshlyMounted h0 fun _ _ ↦ trivial⟩, fun f g a hf ↦ ?_⟩
        cases (h0.files f).symm.trans hf.2
      | succ i ih =>
        obtain ⟨⟨xs, hs⟩, hw⟩ := ih (by omega)
        exact (hrun i (by omega)).singleWriter hE hs hw (hc i (by omega))
    exact fun i hi ↦ (hshared i hi).2

end Runs

/-! ## A file that its creator opens again -/

/-- What an entry of `file_table` refers to, and whether it is open for writing. -/
def Fs.entry (s : Fs) (f : ℕ) : Option ℕ × Bool :=
  ((s.fileTable f).fdInode, decide ((s.fileTable f).fdFlag &&& oRdwr ≠ 0))

theorem Fs.writes_of_entry {s : Fs} {f a : ℕ} (h : s.entry f = (some a, true)) :
    (s.fileTable f).Writes a :=
  ⟨Or.inr (of_decide_eq_true (Prod.mk.inj h).2), (Prod.mk.inj h).1⟩

/-- After `filesys_init`, process 1 creates a file and opens it again. -/
def openAgain (E : Env) : FsM ((Option ℕ × Bool) × Option ℕ × Bool) := do
  filesysInit E
  modify fun s ↦ s.run 1
  let _ ← sysOpen E [slash, 97] (oCreat + oRdwr)
  modify fun s ↦ s.run 1
  let _ ← sysOpen E [slash, 97] oRdwr
  let s ← get
  pure (s.entry 3, s.entry 4)

/-- The calls of this run. -/
def openAgainCalls (i : ℕ) : WriterCall :=
  if i = 0 then .sysOpen 1 [slash, 97] (oCreat + oRdwr) else .sysOpen 1 [slash, 97] oRdwr

theorem exists_openAgain : ∃ σ : ℕ → Fs, (σ 0).FreshlyMounted ∧
    (∀ i < 2, (openAgainCalls i).Runs (Env.firstFree samplePartition) (σ i) (σ (i + 1))) ∧
    ∃ a, ((σ 2).fileTable 3).Writes a ∧ ((σ 2).fileTable 4).Writes a := by
  obtain ⟨s₂, h⟩ : ∃ s, Returns (openAgain (Env.firstFree samplePartition)) Fs.boot
      ((some 134516736, true), some 134516736, true) s := exists_returns (by decide +kernel)
  obtain ⟨u, s₀, h0, h⟩ := returns_bind.mp h
  rw [returns_modify_bind] at h
  obtain ⟨fd, s₁, h1, h⟩ := returns_bind.mp h
  rw [returns_modify_bind] at h
  obtain ⟨fd', s₂', h2, h⟩ := returns_bind.mp h
  rw [returns_get_bind, returns_pure] at h
  obtain ⟨heq, rfl⟩ := h
  obtain ⟨h3, h4⟩ := Prod.mk.inj heq
  refine ⟨fun i ↦ if i = 0 then s₀ else if i = 1 then s₁ else s₂, freshlyMounted_of_init h0,
    fun i hi ↦ ?_, 134516736, Fs.writes_of_entry h3.symm, Fs.writes_of_entry h4.symm⟩
  rcases (by omega : i = 0 ∨ i = 1) with rfl | rfl
  · exact ⟨fd, h1⟩
  · exact ⟨fd', h2⟩

theorem singleWriter_iff_openAgain : ∃ σ : ℕ → Fs,
    (∀ i < 2, (openAgainCalls i).Runs (Env.firstFree samplePartition) (σ i) (σ (i + 1))) ∧
      ((∀ i ≤ 2, (σ i).SingleWriter) ↔
        ∀ i < 2, ¬(openAgainCalls i).Rewrites (Env.firstFree samplePartition) (σ i)) := by
  obtain ⟨σ, h0, hrun, -⟩ := exists_openAgain
  exact ⟨σ, hrun, singleWriter_iff (Env.firstFree_keepsStale samplePartition) h0 hrun⟩

/-- The file is open for writing twice. -/
theorem openAgain_not_singleWriter : (Env.firstFree samplePartition).KeepsStale ∧
    ∃ σ : ℕ → Fs, (σ 0).FreshlyMounted ∧
      (∀ i < 2, (openAgainCalls i).Runs (Env.firstFree samplePartition) (σ i) (σ (i + 1))) ∧
      ¬∀ i ≤ 2, (σ i).SingleWriter := by
  obtain ⟨σ, h0, hrun, a, h3, h4⟩ := exists_openAgain
  refine ⟨Env.firstFree_keepsStale samplePartition, σ, h0, hrun, fun hw ↦ ?_⟩
  exact absurd (hw 2 (le_refl 2) 3 4 a h3 h4) (by decide)

end GlowOS
