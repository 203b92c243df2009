import Mathlib
import GlowOS.Fs.Descriptors
import GlowOS.Fs.Shared

/-!
# `sys_open` and `sys_close` on the shared inodes

`file_create` and `file_open` take an entry of `file_table` for an inode. The one allocates the inode
as its caller allocates, in the pool of the caller, and links it in `open_inodes` after the directory
entry is written; the other asks `inode_open`. An attempt that fails may leave the entry cleared, or
in use.
-/

namespace GlowOS

open Program

/-- No entry of `file_table` refers to the inode at `a`. -/
def Fs.Unopened (s : Fs) (a : ℕ) : Prop := ∀ f, (s.fileTable f).fdInode ≠ some a

/-- An entry that `get_free_slot_in_global` may find. -/
def Fs.FreeEntry (s : Fs) (f : ℕ) : Prop :=
  3 ≤ f ∧ f < maxFileOpen ∧ (s.fileTable f).fdInode = none

/-- At most one entry of `file_table` changes. It was free, and then it refers to nothing, or it has
the flags given and refers to an inode that satisfies `q`. -/
def TableStep (q : ℕ → Prop) (flags : ℕ) (s s' : Fs) : Prop :=
  s'.fileTable = s.fileTable ∨ ∃ f file, s.FreeEntry f ∧
    s'.fileTable = Function.update s.fileTable f file ∧
    (file.fdInode = none ∨ ∃ a, file = ⟨0, flags, some a⟩ ∧ q a)

/-- An inode in memory that is neither linked nor open. -/
structure Unlinked (s : Fs) (xs : List ℕ) (a : ℕ) : Prop where
  live : s.heap a = some Blk.inode
  notMem : a ∉ xs
  unopened : s.Unopened a
  ge : userVaddrStart ≤ a

section Calls

variable {E : Env} {p q : ℕ → Prop} {s t s' : Fs} {xs B : List ℕ} {n a flags : ℕ} {r : Option ℕ}

theorem Unlinked.congr (h : Unlinked s xs a) (hs : SameBlocks s s') : Unlinked s' xs a :=
  ⟨(congrFun hs.heap a).trans h.live, h.notMem, fun f ↦ by rw [hs.table]; exact h.unopened f, h.ge⟩

theorem TableStep.congr (h : TableStep q flags s t) (ht : t.fileTable = s'.fileTable) :
    TableStep q flags s s' := by
  rwa [TableStep, ← ht]

theorem TableStep.mono {q' : ℕ → Prop} (h : TableStep q flags s s') (hq : ∀ a, q a → q' a) :
    TableStep q' flags s s' := by
  refine h.imp_right ?_
  rintro ⟨f, file, hfree, hupd, hfile⟩
  refine ⟨f, file, hfree, hupd, hfile.imp_right ?_⟩
  rintro ⟨a, rfl, ha⟩
  exact ⟨a, rfl, hq a ha⟩

theorem TableStep.after (h : TableStep q flags t s') (ht : t.fileTable = s.fileTable) :
    TableStep q flags s s' := by
  rw [TableStep, ht] at h
  refine h.imp_right ?_
  rintro ⟨f, file, hfree, hupd, hfile⟩
  exact ⟨f, file, by rwa [Fs.FreeEntry, ht] at hfree, hupd, hfile⟩

theorem Fs.Unopened.congr (h : t.Unopened a) (ht : t.fileTable = s.fileTable) : s.Unopened a :=
  fun f ↦ ht ▸ h f

theorem getFreeSlotInGlobal_sound (h : Returns getFreeSlotInGlobal s r s') :
    s' = s ∧ (∀ f, r = some f → s.FreeEntry f) ∧ (r = none → ∀ f, ¬s.FreeEntry f) := by
  rw [getFreeSlotInGlobal, returns_get_bind, returns_pure] at h
  obtain ⟨rfl, rfl⟩ := h
  refine ⟨rfl, fun f hf ↦ ?_, fun hnone f hf ↦ ?_⟩
  · obtain ⟨h3, hlt, hfree, -⟩ := Scan.firstFrom_eq_some.mp hf
    exact ⟨h3, hlt, Option.isNone_iff_eq_none.mp hfree⟩
  · have hused := Scan.firstFrom_eq_none.mp hnone f hf.1 hf.2.1
    rw [hf.2.2] at hused
    cases hused

theorem pcbFdInstall_blocks {f : ℕ} (h : Returns (pcbFdInstall f) s r s') : SameBlocks s s' := by
  rw [pcbFdInstall, returns_get_bind] at h
  cases hfree : Scan.firstFrom (fun fd ↦ s.cur.fdTable fd == -1) (maxFilesOpenPerProc - 3) 3 with
  | none =>
    rw [hfree] at h
    obtain ⟨-, rfl⟩ := returns_pure.mp h
    exact .refl _
  | some fd =>
    rw [hfree, returns_modify_bind] at h
    obtain ⟨-, rfl⟩ := returns_pure.mp h
    exact ⟨rfl, rfl, rfl, rfl⟩

/-- `file_open` of an inode in memory takes an entry for it, if there is one. -/
theorem fileOpen_takes (hfree : ∃ f, s.FreeEntry f) (hfind : s.findOpen n = some (some a))
    (hret : Returns (fileOpen E n flags) s r s') :
    ∃ f, s.FreeEntry f ∧ s'.fileTable = Function.update s.fileTable f ⟨0, flags, some a⟩ := by
  obtain ⟨slot, t, h1, hret⟩ := returns_bind.mp hret
  obtain ⟨rfl, hslot, hnone⟩ := getFreeSlotInGlobal_sound h1
  cases slot with
  | none =>
    obtain ⟨f, hf⟩ := hfree
    exact absurd hf (hnone rfl f)
  | some f =>
    refine ⟨f, hslot f rfl, ?_⟩
    obtain ⟨b, t₁, h2, hret⟩ := returns_bind.mp hret
    have htable : t₁.fileTable = t.fileTable := (within_inodeOpen E n _ _ _ h2 : SameFiles t t₁).table
    -- the inode is the one in memory
    have hba : b = a := by
      rcases returns_inodeOpen.mp h2 with ⟨hfind', -⟩ | ⟨hfind', -⟩
      · exact Option.some.inj (Option.some.inj (hfind'.symm.trans hfind))
      · cases hfind'.symm.trans hfind
    rw [hba] at hret
    rw [returns_modify_bind] at hret
    obtain ⟨ino, t₂, h3, hret⟩ := returns_bind.mp hret
    obtain ⟨-, -, rfl⟩ := returns_inodeAt.mp h3
    have hstep : ∀ {s'}, SameBlocks (t₁.setFile f ⟨0, flags, some a⟩) s' →
        s'.fileTable = Function.update t.fileTable f ⟨0, flags, some a⟩ := fun hk ↦ by
      rw [hk.table, Fs.setFile_fileTable, htable]
    rcases returns_ite.mp hret with ⟨-, hret⟩ | ⟨-, hret⟩
    · rcases returns_ite.mp hret with ⟨-, hret⟩ | ⟨-, hret⟩
      · obtain ⟨-, rfl⟩ := returns_pure.mp hret
        exact hstep (.refl _)
      · obtain ⟨u, t₃, h4, hret⟩ := returns_bind.mp hret
        refine hstep (IsTrans.trans _ _ _ ?_ (pcbFdInstall_blocks hret))
        exact within_deny a _ _ _ _ h4
    · exact hstep (pcbFdInstall_blocks hret)

namespace Shared

/-- An unlinked inode is not among the blocks in use. -/
theorem unlinked_notMem (h : Shared p s xs B) (ha : Unlinked s xs a) : a ∉ B := by
  intro hB
  obtain ⟨k, hk, hne⟩ := h.own a hB
  exact hne (Option.some.inj (hk.symm.trans ha.live))

/-- The end of a `file_create` that fails behind the file table. -/
theorem fileCreateRollback {ioBuf : ℕ} {newInode : Option ℕ} (h : Shared p s xs (ioBuf :: B))
    (ha : ∀ a, newInode = some a → Unlinked s xs a)
    (hret : Returns (fileCreateRollback E ioBuf n newInode none) s r s') : Shared p s' xs B := by
  have htail : ∀ t, Shared p t xs (ioBuf :: B) → Returns (do
      bitmapSet .inodeBitmap n false
      GlowOS.sysFree E ioBuf
      pure none : FsM (Option ℕ)) t r s' → Shared p s' xs B := by
    intro t ht hret
    obtain ⟨u, t₁, h1, hret⟩ := returns_bind.mp hret
    obtain ⟨u', t₂, h2, hret⟩ := returns_bind.mp hret
    obtain ⟨-, rfl⟩ := returns_pure.mp hret
    exact (ht.within (within_bitmapSet _ _ _) h1).sysFree h2
  cases newInode with
  | none => exact htail s h hret
  | some a =>
    obtain ⟨u, t, h1, hret⟩ := returns_bind.mp hret
    obtain ⟨-, rfl⟩ := returns_sysFree.mp h1
    have hun := ha a rfl
    exact htail _ (h.freeUnused hun.notMem hun.unopened (h.unlinked_notMem hun)) hret

/-- `file_create` from the free slot of the file table on. -/
theorem fileCreateIn {parentDir : Dir} {filename : List UInt8} {ioBuf : ℕ}
    (h : Shared p s xs (ioBuf :: B)) (ha : Unlinked s xs a) (hp : p a)
    (hret : Returns (fileCreateIn E parentDir filename flags ioBuf n a) s r s') :
    (∃ ys, Shared p s' ys B) ∧ TableStep s.Unopened flags s s' := by
  obtain ⟨slot, t, h1, hret⟩ := returns_bind.mp hret
  obtain ⟨rfl, hslot, -⟩ := getFreeSlotInGlobal_sound h1
  cases slot with
  | none =>
    refine ⟨⟨xs, h.fileCreateRollback (fun b hb ↦ Option.some.inj hb ▸ ha) hret⟩, Or.inl ?_⟩
    exact (fileCreateRollback_tail hret).2.table
  | some f =>
    have hfree := hslot f rfl
    obtain ⟨u, t₁, h2, hret⟩ := returns_bind.mp hret
    have hk₁ : SameBlocks t t₁ := within_deny a _ _ _ _ h2
    rw [returns_modify_bind] at hret
    set t₂ := t₁.setFile f ⟨0, flags, some a⟩ with ht₂
    have hlive₁ := (ha.congr hk₁).live
    have h₂ : Shared p t₂ xs (ioBuf :: B) := (h.congr hk₁).setFile fun b hb ↦ by
      obtain rfl := Option.some.inj hb
      exact ⟨Or.inl hlive₁, hp⟩
    have htable₂ : t₂.fileTable = Function.update t.fileTable f ⟨0, flags, some a⟩ := by
      rw [ht₂, Fs.setFile_fileTable, hk₁.table]
    obtain ⟨e, t₃, h3, hret⟩ := returns_bind.mp hret
    obtain ⟨b, t₄, h4, hret⟩ := returns_bind.mp hret
    have hk₄ : SameBlocks t₂ t₄ := IsTrans.trans _ _ _ (within_createDirEntry _ _ _ _ _ _ h3)
      (within_syncDirEntry E _ _ _ _ _ _ h4)
    have hlive₄ : t₄.heap a = some Blk.inode := (congrFun hk₄.heap a).trans hlive₁
    cases b with
    | true =>
      -- the entry was written, so the inode is linked
      obtain ⟨i, w₁, g1, hret⟩ := returns_bind.mp hret
      obtain ⟨u₁, w₂, g2, hret⟩ := returns_bind.mp hret
      obtain ⟨j, w₃, g3, hret⟩ := returns_bind.mp hret
      obtain ⟨u₂, w₄, g4, hret⟩ := returns_bind.mp hret
      obtain ⟨u₃, w₅, g5, hret⟩ := returns_bind.mp hret
      rw [returns_modify_bind] at hret
      obtain ⟨u₄, w₆, g6, hret⟩ := returns_bind.mp hret
      obtain ⟨u₅, w₇, g7, hret₈⟩ := returns_bind.mp hret
      have hk₅ : SameBlocks t₄ w₅ := by
        refine IsTrans.trans _ _ _ (within_inodeAt _ _ _ _ g1) ?_
        refine IsTrans.trans _ _ _ (within_inodeSync E _ _ _ _ _ g2) ?_
        refine IsTrans.trans _ _ _ (within_inodeAt _ _ _ _ g3) ?_
        exact IsTrans.trans _ _ _ (within_inodeSync E _ _ _ _ _ g4)
          (within_bitmapSync E _ _ _ _ _ g5)
      have h₅ := (h₂.congr hk₄).congr hk₅
      have hlive₅ : w₅.heap a = some Blk.inode := (congrFun hk₅.heap a).trans hlive₄
      obtain ⟨-, rfl⟩ := returns_modifyInode.mp g6
      have hk₆ : SameBlocks (w₅.pushOpen a)
          ((w₅.pushOpen a).setInode a { (w₅.pushOpen a).inode a with iOpenCnts := 1 }) :=
        ⟨rfl, rfl, rfl, rfl⟩
      have h₆ := (h₅.push hlive₅ ha.notMem ha.ge hp).congr hk₆
      have hk₈ := pcbFdInstall_blocks hret₈
      refine ⟨⟨a :: xs, (h₆.sysFree g7).congr hk₈⟩, Or.inr ⟨f, _, hfree, ?_,
        Or.inr ⟨a, rfl, ha.unopened⟩⟩⟩
      obtain ⟨-, rfl⟩ := returns_sysFree.mp g7
      rw [hk₈.table, ← htable₂, ← hk₄.table, ← hk₅.table]
      rfl
    | false =>
      obtain ⟨u', t₅, h5, hret⟩ := returns_bind.mp hret
      rw [returns_modify] at h5
      subst h5
      have hret : Returns (GlowOS.fileCreateRollback E ioBuf n (some a) none)
        (t₄.setFile f ⟨0, 0, none⟩) r s' := hret
      have h₅ : Shared p (t₄.setFile f ⟨0, 0, none⟩) xs (ioBuf :: B) :=
        (h₂.congr hk₄).setFile nofun
      have htable : (t₄.setFile f ⟨0, 0, none⟩).fileTable
          = Function.update t.fileTable f ⟨0, 0, none⟩ := by
        rw [Fs.setFile_fileTable, hk₄.table, htable₂, Function.update_idem]
      refine ⟨⟨xs, h₅.fileCreateRollback (fun b hb ↦ ?_) hret⟩, Or.inr ⟨f, ⟨0, 0, none⟩, hfree,
        ?_, Or.inl rfl⟩⟩
      · obtain rfl := Option.some.inj hb
        refine ⟨hlive₄, ha.notMem, fun g hg ↦ ?_, ha.ge⟩
        rw [htable] at hg
        by_cases hgf : g = f
        · rw [hgf, Function.update_self] at hg
          cases hg
        · rw [Function.update_of_ne hgf] at hg
          exact ha.unopened g hg
      · rw [(fileCreateRollback_tail hret).2.table, htable]

/-- **`file_create`.** The inode comes from the pool of the caller. -/
theorem fileCreate {parentDir : Dir} {filename : List UInt8} (h : Shared p s xs B)
    (hE : E.KeepsStale)
    (hpool : (∃ b, s.answer E 1024 = some b) → (∃ i, s.inodeBitmap.scan 1 = some i) →
      ∀ (t : Fs) a, t.cur.pgdir = s.cur.pgdir → t.answer E 76 = some a → p a)
    (hret : Returns (fileCreate E parentDir filename flags) s r s') :
    (∃ ys, Shared p s' ys B) ∧ TableStep s.Unopened flags s s' := by
  obtain ⟨ioBuf, t, h1, hret⟩ := returns_bind.mp hret
  have h₁ := h.sysMalloc hE (by decide) h1
  obtain ⟨hans, rfl⟩ := returns_sysMalloc.mp h1
  cases ioBuf with
  | none =>
    obtain ⟨-, rfl⟩ := returns_pure.mp hret
    exact ⟨⟨xs, h₁⟩, Or.inl rfl⟩
  | some ioBuf =>
    obtain ⟨i, t₁, h2, hret⟩ := returns_bind.mp hret
    obtain ⟨hi, rfl⟩ := returns_bitmapAlloc.mp h2
    cases i with
    | none =>
      obtain ⟨-, rfl⟩ := returns_pure.mp hret
      exact ⟨⟨xs, Shared.weaken (C := [ioBuf]) h₁⟩, Or.inl rfl⟩
    | some i =>
      set t₁ := (s.answered Blk.buffer (some ioBuf)).setBitmap
        (((s.answered Blk.buffer (some ioBuf)).bitmap .inodeBitmap).set i true) .inodeBitmap with ht₁
      have h₂ : Shared p t₁ xs (ioBuf :: B) := h₁.congr ⟨rfl, rfl, rfl, rfl⟩
      obtain ⟨newInode, t₂, h3, hret⟩ := returns_bind.mp hret
      obtain ⟨ha, rfl⟩ := returns_sysMalloc.mp h3
      cases newInode with
      | none =>
        have h₃ : Shared p (t₁.answered Blk.inode none) xs (ioBuf :: B) := h₂.congr ⟨rfl, rfl, rfl, rfl⟩
        exact ⟨⟨xs, h₃.fileCreateRollback (by rintro _ ⟨⟩) hret⟩,
          Or.inl (fileCreateRollback_tail hret).2.table⟩
      | some a =>
        have hst := hE _ _ _ _ _ _ ha.symm
        have hge := E.malloc_ge ha.symm
        obtain ⟨hx, hf, -⟩ := h₂.fresh (E.malloc_fresh ha.symm) hst
        have h₃ := h₂.alloc (E.malloc_fresh ha.symm) hst hge Blk.inode
        obtain ⟨u, t₃, h4, hret⟩ := returns_bind.mp hret
        obtain ⟨-, rfl⟩ := returns_setInodeAt.mp h4
        have hk₄ : SameBlocks (t₁.alloc a Blk.inode)
            ((t₁.alloc a Blk.inode).setInode a (Inode.init i)) := ⟨rfl, rfl, rfl, rfl⟩
        have h₄ := h₃.congr hk₄
        have hun : Unlinked ((t₁.alloc a Blk.inode).setInode a (Inode.init i)) xs a :=
          ⟨Function.update_self .., hx, hf, hge⟩
        have hpa : p a := hpool ⟨ioBuf, hans.symm⟩ ⟨i, hi.symm⟩ t₁ a rfl ha.symm
        exact h₄.fileCreateIn hun hpa hret

/-- **`file_open`.** -/
theorem fileOpen (h : Shared p s xs B) (hE : E.KeepsStale) (hp : ∀ b, kHeapStart ≤ b → p b)
    (hret : Returns (fileOpen E n flags) s r s') :
    (∃ ys, Shared p s' ys B) ∧
      TableStep (fun a ↦ s.findOpen n = some (some a) ∨ s.Unopened a) flags s s' := by
  obtain ⟨slot, t, h1, hret⟩ := returns_bind.mp hret
  obtain ⟨rfl, hslot, -⟩ := getFreeSlotInGlobal_sound h1
  cases slot with
  | none =>
    obtain ⟨-, rfl⟩ := returns_pure.mp hret
    exact ⟨⟨xs, h⟩, Or.inl rfl⟩
  | some f =>
    have hfree := hslot f rfl
    obtain ⟨a, t₁, h2, hret⟩ := returns_bind.mp hret
    obtain ⟨⟨ys, h₁⟩, hpa, hcase⟩ := h.inodeOpen hE hp h2
    have htable₁ : t₁.fileTable = t.fileTable :=
      (within_inodeOpen E n _ _ _ h2 : SameFiles t t₁).table
    rw [returns_modify_bind] at hret
    obtain ⟨ino, t₂, h3, hret⟩ := returns_bind.mp hret
    obtain ⟨hlive, -, rfl⟩ := returns_inodeAt.mp h3
    set t₂ := t₁.setFile f ⟨0, flags, some a⟩ with ht₂
    have h₂ : Shared p t₂ ys B := h₁.setFile fun b hb ↦ by
      obtain rfl := Option.some.inj hb
      exact ⟨Or.inl hlive, hpa⟩
    have hstep : ∀ {s'}, SameBlocks t₂ s' → (∃ ys, Shared p s' ys B) ∧
        TableStep (fun a ↦ t.findOpen n = some (some a) ∨ t.Unopened a) flags t s' := by
      intro s' hk
      refine ⟨⟨ys, h₂.congr hk⟩, Or.inr ⟨f, _, hfree, ?_, Or.inr ⟨a, rfl, ?_⟩⟩⟩
      · rw [hk.table, ht₂, Fs.setFile_fileTable, htable₁]
      · exact hcase
    rcases returns_ite.mp hret with ⟨-, hret⟩ | ⟨-, hret⟩
    · rcases returns_ite.mp hret with ⟨-, hret⟩ | ⟨-, hret⟩
      · -- the file is open for writing already, and the entry stays taken
        obtain ⟨-, rfl⟩ := returns_pure.mp hret
        exact hstep (.refl _)
      · obtain ⟨u, t₃, h4, hret⟩ := returns_bind.mp hret
        refine hstep (IsTrans.trans _ _ _ ?_ (pcbFdInstall_blocks hret))
        exact within_deny a _ _ _ _ h4
    · exact hstep (pcbFdInstall_blocks hret)

/-- **`sys_open`.** -/
theorem sysOpen {pathname : List UInt8} (h : Shared p s xs B) (hE : E.KeepsStale)
    (hp : ∀ b, kHeapStart ≤ b → p b)
    (hpool : ∀ record t, s.Finds E pathname none record t → flags &&& oCreat ≠ 0 →
      (∃ b, t.answer E 1024 = some b) → (∃ i, t.inodeBitmap.scan 1 = some i) →
      ∀ (t' : Fs) a, t'.cur.pgdir = t.cur.pgdir → t'.answer E 76 = some a → p a)
    (hret : Returns (sysOpen E pathname flags) s r s') :
    (∃ ys, Shared p s' ys B) ∧
      TableStep (fun a ↦ s.Unopened a ∨ flags &&& oCreat = 0 ∧ ∃ n record t,
        s.Finds E pathname (some n) record t ∧ t.findOpen n = some (some a)) flags s s' := by
  rcases sysOpen_cases hret with ⟨-, rfl, -⟩ | ⟨x, record, t, h1, -, -, h2⟩ |
    ⟨record, t, t', hf, hflags, h1, h2⟩ | ⟨n, record, t, hf, hflags, h1⟩
  · exact ⟨⟨xs, h⟩, Or.inl rfl⟩
  · obtain ⟨ys, ht⟩ := h.searchFile hE hp h1
    have htable : SameFiles s s' := (within_searchFile E _ _ _ _ h1 : SameFiles s t).trans
      (within_dirClose E _ _ _ _ h2)
    exact ⟨⟨ys, ht.dirClose h2⟩, Or.inl htable.table⟩
  · obtain ⟨ys, ht⟩ := h.searchFile hE hp hf.search
    have htable : SameFiles s t := within_searchFile E _ _ _ _ hf.search
    have hclose : SameFiles t' s' := within_dirClose E _ _ _ _ h2
    obtain ⟨⟨zs, ht'⟩, hstep⟩ := ht.fileCreate hE (hpool record t hf hflags) h1
    refine ⟨⟨zs, ht'.dirClose h2⟩, ?_⟩
    exact ((hstep.mono fun a ha ↦ Or.inl (ha.congr htable.table)).after htable.table).congr
      hclose.table.symm
  · obtain ⟨ys, ht⟩ := h.searchFile hE hp hf.search
    have htable : SameFiles s t := within_searchFile E _ _ _ _ hf.search
    obtain ⟨⟨zs, ht'⟩, hstep⟩ := ht.fileOpen hE hp h1
    refine ⟨⟨zs, ht'.weaken⟩, ?_⟩
    refine (hstep.mono ?_).after htable.table
    rintro a (ha | ha)
    · exact Or.inr ⟨hflags, n, record, t, hf, ha⟩
    · exact Or.inl (Fs.Unopened.congr ha htable.table)

/-- **`sys_close`.** -/
theorem sysClose {fd : ℤ} {b : Bool} (h : Shared p s xs B)
    (hret : Returns (sysClose E fd) s b s') : Shared p s' xs B := by
  rcases returns_ite.mp hret with ⟨-, hret⟩ | ⟨-, hret⟩
  · obtain ⟨g, t, h1, hret⟩ := returns_bind.mp hret
    obtain ⟨u, t₁, h2, hret⟩ := returns_bind.mp hret
    rw [returns_modify_bind] at hret
    obtain ⟨-, rfl⟩ := returns_pure.mp hret
    -- the steps of `file_close`
    obtain ⟨a, t₂, h3, hclose⟩ := returns_bind.mp h2
    obtain ⟨-, rfl⟩ := returns_fdInodeOf.mp h3
    obtain ⟨u₁, t₃, h4, hclose⟩ := returns_bind.mp hclose
    obtain ⟨u₂, t₄, h5, hclose⟩ := returns_bind.mp hclose
    rw [returns_modify] at hclose
    subst hclose
    have h₃ := (h.within (within_fdLocal2global _) h1).within (within_deny a _) h4
    have h₄ : Shared p (t₄.setFile g { t₄.fileTable g with fdInode := none }) xs B :=
      (h₃.inodeClose h5).setFile nofun
    exact h₄.congr ⟨rfl, rfl, rfl, rfl⟩
  · obtain ⟨-, rfl⟩ := returns_pure.mp hret
    exact h

end Shared

end Calls

end GlowOS
