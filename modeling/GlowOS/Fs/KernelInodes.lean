import Mathlib
import GlowOS.Fs.Lookup
import GlowOS.Fs.OpenCalls

/-!
# Shared inodes in kernel memory

An inode that is linked in `open_inodes`, or that an entry of `file_table` refers to, is used by any
process and given back with `pgdir` null, so it has to lie in the kernel pool. `inode_open` takes care
of that; `file_create` does not, and a file that a user process creates has its inode in the memory of
that process. As long as no user process gets `file_create` to allocate, all shared inodes lie in the
kernel pool, whoever calls.
-/

namespace GlowOS

open Program

/-! ## Runs -/

/-- The calls, and the task that makes them. -/
inductive SharedCall
  | sysOpen (pid : ℕ) (pathname : List UInt8) (flags : ℕ)
  | sysClose (pid : ℕ) (fd : ℤ)
  | sysMkdir (pid : ℕ) (pathname : List UInt8)
  | sysUnlink (pid : ℕ) (pathname : List UInt8)
  | sysStat (pid : ℕ) (path : List UInt8)

/-- One completed call. -/
def SharedCall.Runs (E : Env) (s : Fs) : SharedCall → Fs → Prop
  | .sysOpen pid pathname flags, s' => ∃ r, Returns (GlowOS.sysOpen E pathname flags) (s.run pid) r s'
  | .sysClose pid fd, s' => ∃ r, Returns (GlowOS.sysClose E fd) (s.run pid) r s'
  | .sysMkdir pid pathname, s' => ∃ r, Returns (GlowOS.sysMkdir E pathname) (s.run pid) r s'
  | .sysUnlink pid pathname, s' => ∃ r, Returns (GlowOS.sysUnlink E pathname) (s.run pid) r s'
  | .sysStat pid path, s' => ∃ r, Returns (GlowOS.sysStat E path) (s.run pid) r s'

/-- Every inode that is linked in `open_inodes`, or that an entry of `file_table` refers to, lies in
the kernel pool. -/
def Fs.KernelInodes (s : Fs) : Prop :=
  (∃ xs, s.tags.IsList openHead openTail xs ∧ ∀ a ∈ xs, kHeapStart ≤ a) ∧
    ∀ f a, (s.fileTable f).fdInode = some a → kHeapStart ≤ a

/-- `sys_open` comes to the allocation of an inode in `file_create`: the file is to be created and
does not exist, and there are a buffer and an inode number for it. -/
def Fs.Creates (E : Env) (s : Fs) (pathname : List UInt8) (flags : ℕ) : Prop :=
  flags &&& oCreat ≠ 0 ∧ ∃ record t, s.Finds E pathname none record t ∧
    (∃ b, t.answer E 1024 = some b) ∧ ∃ i, t.inodeBitmap.scan 1 = some i

/-- The call makes `file_create` allocate an inode for a user process. -/
def SharedCall.UserCreates (E : Env) (s : Fs) : SharedCall → Prop
  | .sysOpen pid pathname flags => (s.tasks pid).pgdir ≠ none ∧ (s.run pid).Creates E pathname flags
  | _ => False

/-! ## The other calls on the shared inodes -/

/-- The tasks are the same. -/
structure SameTasks (s s' : Fs) : Prop where
  tasks : s'.tasks = s.tasks
  running : s'.running = s.running

instance : Quiet SameTasks where
  refl _ := ⟨rfl, rfl⟩
  trans _ _ _ h h' := ⟨h'.tasks.trans h.tasks, h'.running.trans h.running⟩
  tick _ := ⟨rfl, rfl⟩
  alloc _ _ _ := ⟨rfl, rfl⟩
  free _ _ _ := ⟨rfl, rfl⟩
  stale _ _ := ⟨rfl, rfl⟩
  replace _ _ _ := ⟨rfl, rfl⟩
  tags _ _ := ⟨rfl, rfl⟩

section Calls

variable {E : Env} {p : ℕ → Prop} {s s' : Fs} {xs B : List ℕ}

namespace Shared

/-- The end of a `sys_mkdir` that fails. -/
theorem sysMkdirRollback {ioBuf : ℕ} {record : PathSearchRecord} {n : Option ℕ} {b : Bool}
    (h : Shared p s xs (record.parentDir.blocks ++ ioBuf :: B))
    (hret : Returns (sysMkdirRollback E ioBuf record n) s b s') : Shared p s' xs B := by
  have htail : ∀ t, Shared p t xs (record.parentDir.blocks ++ ioBuf :: B) → Returns (do
      GlowOS.dirClose E record.parentDir
      GlowOS.sysFree E ioBuf
      pure false : FsM Bool) t b s' → Shared p s' xs B := by
    intro t ht hret
    obtain ⟨u, t₁, h1, hret⟩ := returns_bind.mp hret
    obtain ⟨u', t₂, h2, hret⟩ := returns_bind.mp hret
    obtain ⟨-, rfl⟩ := returns_pure.mp hret
    exact (ht.dirClose h1).sysFree h2
  cases n with
  | none => exact htail s h hret
  | some n =>
    obtain ⟨u, t, h1, hret⟩ := returns_bind.mp hret
    exact htail t (h.within (within_bitmapSet _ _ _) h1) hret

theorem sysMkdirIn {ioBuf n lba : ℕ} {record : PathSearchRecord} {b : Bool}
    (h : Shared p s xs (record.parentDir.blocks ++ ioBuf :: B))
    (hret : Returns (sysMkdirIn E ioBuf record n lba) s b s') : Shared p s' xs B := by
  obtain ⟨-, hret⟩ := returns_check_bind.mp hret
  obtain ⟨u, t, h1, hret⟩ := returns_bind.mp hret
  obtain ⟨i, t₁, h2, hret⟩ := returns_bind.mp hret
  obtain ⟨u', t₂, h3, hret⟩ := returns_bind.mp hret
  obtain ⟨e, t₃, h4, hret⟩ := returns_bind.mp hret
  obtain ⟨ok, t₄, h5, hret⟩ := returns_bind.mp hret
  have h₂ := ((h.within (within_bitmapSync E _ _) h1).within (within_inodeAt _) h2).within
    (within_ideWrite _ _ _ _) h3
  have h₄ := (h₂.within (within_createDirEntry _ _ _) h4).within (within_syncDirEntry E _ _ _) h5
  cases ok with
  | true =>
    obtain ⟨j, w, g1, hret⟩ := returns_bind.mp hret
    obtain ⟨u₁, w₁, g2, hret⟩ := returns_bind.mp hret
    obtain ⟨u₂, w₂, g3, hret⟩ := returns_bind.mp hret
    obtain ⟨u₃, w₃, g4, hret⟩ := returns_bind.mp hret
    obtain ⟨u₄, w₄, g5, hret⟩ := returns_bind.mp hret
    obtain ⟨u₅, w₅, g6, hret⟩ := returns_bind.mp hret
    obtain ⟨-, rfl⟩ := returns_pure.mp hret
    have h₅ := ((h₄.within (within_inodeAt _) g1).within (within_inodeSync E _ _) g2).within
      (within_inodeSync E _ _) g3
    -- the buffer goes back before the directory
    have h₆ := (h₅.within (within_bitmapSync E _ _) g4).perm List.perm_middle
    exact (h₆.sysFree g5).dirClose g6
  | false =>
    have hret : Returns (GlowOS.sysMkdirRollback E ioBuf record (some n)) t₄ b s' := hret
    exact h₄.sysMkdirRollback hret

/-- **`sys_mkdir`.** -/
theorem sysMkdir {pathname : List UInt8} {b : Bool} (h : Shared p s xs B) (hE : E.KeepsStale)
    (hp : ∀ b, kHeapStart ≤ b → p b) (hret : Returns (sysMkdir E pathname) s b s') :
    ∃ ys, Shared p s' ys B := by
  obtain ⟨ioBuf, t, h1, hret⟩ := returns_bind.mp hret
  have h₁ := h.sysMalloc hE (by decide) h1
  cases ioBuf with
  | none =>
    obtain ⟨-, rfl⟩ := returns_pure.mp hret
    exact ⟨xs, h₁⟩
  | some ioBuf =>
    obtain ⟨⟨x, record⟩, t₁, h2, hret⟩ := returns_bind.mp hret
    obtain ⟨ys, h₂⟩ := h₁.searchFile hE hp h2
    have h₂ : Shared p t₁ ys (record.parentDir.blocks ++ ioBuf :: B) := h₂
    refine ⟨ys, ?_⟩
    rcases returns_ite.mp hret with ⟨-, hret⟩ | ⟨-, hret⟩
    · exact h₂.sysMkdirRollback hret
    · obtain ⟨d, t₂, h3, hret⟩ := returns_bind.mp hret
      obtain ⟨d', t₃, h4, hret⟩ := returns_bind.mp hret
      have h₄ := (h₂.within (within_pathDepthCnt _) h3).within (within_pathDepthCnt _) h4
      rcases returns_ite.mp hret with ⟨-, hret⟩ | ⟨-, hret⟩
      · exact h₄.sysMkdirRollback hret
      · obtain ⟨n, t₄, h5, hret⟩ := returns_bind.mp hret
        have h₅ := h₄.within (within_bitmapAlloc _) h5
        cases n with
        | none => exact h₅.sysMkdirRollback hret
        | some n =>
          obtain ⟨lba, t₅, h6, hret⟩ := returns_bind.mp hret
          have h₆ := h₅.within (within_blockBitmapAlloc E) h6
          cases lba with
          | none => exact h₆.sysMkdirRollback hret
          | some lba => exact h₆.sysMkdirIn hret

/-- **`sys_unlink`.** -/
theorem sysUnlink {pathname : List UInt8} {b : Bool} (h : Shared p s xs B) (hE : E.KeepsStale)
    (hp : ∀ b, kHeapStart ≤ b → p b) (hret : Returns (sysUnlink E pathname) s b s') :
    ∃ ys, Shared p s' ys B := by
  obtain ⟨-, hret⟩ := returns_check_bind.mp hret
  obtain ⟨⟨x, record⟩, t, h1, hret⟩ := returns_bind.mp hret
  obtain ⟨ys, h₁⟩ := h.searchFile hE hp h1
  have h₁ : Shared p t ys (record.parentDir.blocks ++ B) := h₁
  obtain ⟨-, hret⟩ := returns_check_bind.mp hret
  -- a call that fails closes the directory
  have hgiveUp : ∀ {v}, Shared p v ys (record.parentDir.blocks ++ B) → Returns (do
      GlowOS.dirClose E record.parentDir
      pure false : FsM Bool) v b s' → ∃ ys, Shared p s' ys B := by
    intro v hv hret
    obtain ⟨u, v₁, g1, hret⟩ := returns_bind.mp hret
    obtain ⟨-, rfl⟩ := returns_pure.mp hret
    exact ⟨ys, hv.dirClose g1⟩
  cases x with
  | none => exact hgiveUp h₁ hret
  | some n =>
    rcases returns_ite.mp hret with ⟨-, hret⟩ | ⟨-, hret⟩
    · exact hgiveUp h₁ hret
    · rw [returns_get_bind] at hret
      rcases returns_ite.mp hret with ⟨-, hret⟩ | ⟨-, hret⟩
      · exact hgiveUp h₁ hret
      · obtain ⟨ioBuf, t₁, h2, hret⟩ := returns_bind.mp hret
        have h₂ := h₁.sysMalloc hE (by decide) h2
        cases ioBuf with
        | none => exact hgiveUp h₂ hret
        | some ioBuf =>
          obtain ⟨ok, t₂, h3, hret⟩ := returns_bind.mp hret
          obtain ⟨u, t₃, h4, hret⟩ := returns_bind.mp hret
          obtain ⟨u', t₄, h5, hret⟩ := returns_bind.mp hret
          obtain ⟨u'', t₅, h6, hret⟩ := returns_bind.mp hret
          obtain ⟨-, rfl⟩ := returns_pure.mp hret
          obtain ⟨zs, h₄⟩ := (h₂.within (within_deleteDirEntry E _ _ _) h3).inodeRelease hE hp h4
          exact ⟨zs, (h₄.sysFree h5).dirClose h6⟩

/-- **`sys_stat`.** -/
theorem sysStat {path : List UInt8} {r : Option Stat} (h : Shared p s xs B) (hE : E.KeepsStale)
    (hp : ∀ b, kHeapStart ≤ b → p b) (hret : Returns (sysStat E path) s r s') :
    ∃ ys, Shared p s' ys B := by
  obtain ⟨u, t, h1, hret⟩ := returns_bind.mp hret
  have h₁ := h.within (within_statRoot _) h1
  obtain ⟨⟨x, record⟩, t₁, h2, hret⟩ := returns_bind.mp hret
  obtain ⟨ys, h₂⟩ := h₁.searchFile hE hp h2
  have h₂ : Shared p t₁ ys (record.parentDir.blocks ++ B) := h₂
  obtain ⟨ret, t₂, h3, hret⟩ := returns_bind.mp hret
  obtain ⟨u', t₃, h4, hret⟩ := returns_bind.mp hret
  obtain ⟨-, rfl⟩ := returns_pure.mp hret
  have hfound : ∃ zs, Shared p t₂ zs (record.parentDir.blocks ++ B) := by
    cases x with
    | none =>
      obtain ⟨-, rfl⟩ := returns_pure.mp h3
      exact ⟨ys, h₂⟩
    | some n =>
      obtain ⟨a, v, g1, h3⟩ := returns_bind.mp h3
      obtain ⟨obj, v₁, g2, h3⟩ := returns_bind.mp h3
      obtain ⟨u₁, v₂, g3, h3⟩ := returns_bind.mp h3
      obtain ⟨-, rfl⟩ := returns_pure.mp h3
      obtain ⟨⟨zs, h₃⟩, -⟩ := h₂.inodeOpen hE hp g1
      exact ⟨zs, (h₃.within (within_inodeAt _) g2).inodeClose g3⟩
  obtain ⟨zs, h₃⟩ := hfound
  exact ⟨zs, h₃.dirClose h4⟩

theorem run (h : Shared p s xs B) (pid : ℕ) : Shared p (s.run pid) xs B := h.congr ⟨rfl, rfl, rfl, rfl⟩

/-- Nothing is in use for something else on a partition that was just mounted. -/
theorem of_freshlyMounted (h : s.FreshlyMounted) (hp : ∀ b, kHeapStart ≤ b → p b) :
    Shared p s [s.rootInode] [] where
  list := h.openInodes
  linked a ha := by
    obtain rfl := List.mem_singleton.mp ha
    have hge := h.rootKernel
    refine ⟨?_, Or.inl h.rootLive, hp _ hge⟩
    rw [userVaddrStart]
    rw [kHeapStart] at hge
    omega
  opened f a hf := by cases (h.files f).symm.trans hf
  nodup := List.nodup_nil
  own := nofun

end Shared

end Calls

/-! ## Any run -/

section Runs

variable {E : Env}

/-- **One call.** -/
theorem SharedCall.Runs.shared {s s' : Fs} {c : SharedCall} {xs : List ℕ} (h : c.Runs E s s')
    (hE : E.KeepsStale) (hs : Shared (kHeapStart ≤ ·) s xs []) (hc : ¬c.UserCreates E s) :
    ∃ ys, Shared (kHeapStart ≤ ·) s' ys [] := by
  have hs' := fun pid ↦ hs.run pid
  cases c with
  | sysOpen pid pathname flags =>
    obtain ⟨r, h⟩ := h
    refine ((hs' pid).sysOpen hE (fun _ ha ↦ ha) ?_ h).1
    intro record t hf hflags hbuf hnumber t' a hpgdir ha
    -- the caller is a kernel thread, so the heap answers from the kernel pool
    have hk : SameTasks (s.run pid) t := within_searchFile E _ _ _ _ hf.search
    have hkernel : t'.cur.pgdir = none := by
      rw [hpgdir, Fs.cur, hk.tasks, hk.running]
      by_contra huser
      exact hc ⟨huser, hflags, record, t, hf, hbuf, hnumber⟩
    refine (E.malloc_kernel ha).mp ?_
    rw [hkernel]
    rfl
  | sysClose pid fd =>
    obtain ⟨r, h⟩ := h
    exact ⟨xs, (hs' pid).sysClose h⟩
  | sysMkdir pid pathname =>
    obtain ⟨r, h⟩ := h
    exact (hs' pid).sysMkdir hE (fun _ ha ↦ ha) h
  | sysUnlink pid pathname =>
    obtain ⟨r, h⟩ := h
    exact (hs' pid).sysUnlink hE (fun _ ha ↦ ha) h
  | sysStat pid path =>
    obtain ⟨r, h⟩ := h
    exact (hs' pid).sysStat hE (fun _ ha ↦ ha) h

/-- **Shared inodes lie in the kernel pool** in every state of a run from a partition that was just
mounted, if no call makes `file_create` allocate an inode for a user process and the heap never hands
out a block that `inode_close` left linked. -/
theorem kernelInodes_of_run (hE : E.KeepsStale) {σ : ℕ → Fs} {c : ℕ → SharedCall} {n : ℕ}
    (h0 : (σ 0).FreshlyMounted) (hrun : ∀ i < n, (c i).Runs E (σ i) (σ (i + 1)))
    (hc : ∀ i < n, ¬(c i).UserCreates E (σ i)) : ∀ i ≤ n, (σ i).KernelInodes := by
  have hshared : ∀ i ≤ n, ∃ xs, Shared (kHeapStart ≤ ·) (σ i) xs [] := by
    intro i hi
    induction i with
    | zero => exact ⟨_, .of_freshlyMounted h0 fun _ ha ↦ ha⟩
    | succ i ih =>
      obtain ⟨xs, hs⟩ := ih (by omega)
      exact (hrun i (by omega)).shared hE hs (hc i (by omega))
  intro i hi
  obtain ⟨xs, hs⟩ := hshared i hi
  exact ⟨⟨xs, hs.list, fun a ha ↦ (hs.linked a ha).2.2⟩, fun f a hf ↦ (hs.opened f a hf).2⟩

end Runs

/-! ## A file created by a process -/

theorem Env.firstFree_keepsStale (part : Partition) : (Env.firstFree part).KeepsStale := by
  intro t h st k n a ha
  obtain ⟨i, hi, rfl⟩ := Option.map_eq_some_iff.mp ha
  obtain ⟨-, -, hfree, -⟩ := Scan.firstFrom_eq_some.mp hi
  simpa using (Bool.and_eq_true_iff.mp hfree).2

/-- After `filesys_init`, a task creates a file: its `pgdir`, the descriptor, and the inode that the
first entry of `file_table` refers to. -/
def createAs (E : Env) (pid : ℕ) : FsM (Option ℕ × Option ℕ × Option ℕ) := do
  filesysInit E
  let s ← get
  modify fun s ↦ s.run pid
  let fd ← sysOpen E [slash, 97] (oCreat + oRdwr)
  let s' ← get
  pure ((s.tasks pid).pgdir, fd, (s'.fileTable 3).fdInode)

theorem createAs_steps {E : Env} {pid : ℕ} {pgdir fd a : Option ℕ} {s' : Fs}
    (h : Returns (createAs E pid) Fs.boot (pgdir, fd, a) s') :
    ∃ s u, Returns (filesysInit E) Fs.boot u s ∧ (s.tasks pid).pgdir = pgdir ∧
      (SharedCall.sysOpen pid [slash, 97] (oCreat + oRdwr)).Runs E s s' ∧
      (s'.fileTable 3).fdInode = a := by
  obtain ⟨u, s, h1, h⟩ := returns_bind.mp h
  rw [returns_get_bind, returns_modify_bind] at h
  obtain ⟨r, t, h2, h⟩ := returns_bind.mp h
  rw [returns_get_bind, returns_pure] at h
  obtain ⟨heq, rfl⟩ := h
  obtain ⟨hp, heq⟩ := Prod.mk.inj heq
  exact ⟨s, u, h1, hp.symm, ⟨r, h2⟩, (Prod.mk.inj heq).2.symm⟩

/-- The kernel thread creates a file. -/
theorem kernelInodes_of_run_kernelThread : ∃ σ : ℕ → Fs, (σ 0).FreshlyMounted ∧
    (SharedCall.sysOpen 0 [slash, 97] (oCreat + oRdwr)).Runs (Env.firstFree samplePartition)
      (σ 0) (σ 1) ∧ ∀ i ≤ 1, (σ i).KernelInodes := by
  obtain ⟨s', h⟩ : ∃ s', Returns (createAs (Env.firstFree samplePartition) 0) Fs.boot
      (none, some 3, some 3222294528) s' := exists_returns (by decide +kernel)
  obtain ⟨s, u, h1, h2, h3, -⟩ := createAs_steps h
  have h0 := freshlyMounted_of_init h1
  refine ⟨fun i ↦ if i = 0 then s else s', h0, h3, ?_⟩
  refine kernelInodes_of_run (Env.firstFree_keepsStale samplePartition)
    (c := fun _ ↦ SharedCall.sysOpen 0 [slash, 97] (oCreat + oRdwr)) (n := 1) h0 ?_ ?_
  · intro i hi
    obtain rfl := Nat.lt_one_iff.mp hi
    exact h3
  · intro i hi
    obtain rfl := Nat.lt_one_iff.mp hi
    exact fun huser ↦ huser.1 h2

/-- A process creates a file: the entry of `file_table` refers to an inode in its own memory. -/
theorem createAs_not_kernelInodes : (Env.firstFree samplePartition).KeepsStale ∧
    ∃ s s' u, Returns (filesysInit (Env.firstFree samplePartition)) Fs.boot u s ∧
      (SharedCall.sysOpen 1 [slash, 97] (oCreat + oRdwr)).Runs (Env.firstFree samplePartition)
        s s' ∧ ¬s'.KernelInodes := by
  refine ⟨Env.firstFree_keepsStale samplePartition, ?_⟩
  obtain ⟨s', h⟩ : ∃ s', Returns (createAs (Env.firstFree samplePartition) 1) Fs.boot
      (some 1, some 3, some 134516736) s' := exists_returns (by decide +kernel)
  obtain ⟨s, u, h1, -, h2, h3⟩ := createAs_steps h
  exact ⟨s, s', u, h1, h2, fun hk ↦ absurd (hk.2 3 _ h3) (by decide)⟩

end GlowOS
