import Mathlib
import GlowOS.Kernel.PageMap
import GlowOS.Lib.TranslationCache

/-!
# The page functions behind a translation cache

The same functions as in `Kernel/Memory`, on a processor that remembers the translation of every
page it accesses until the page directory is loaded anew or `invlpg` names an address of that page.
An access uses what is remembered.

`page_table_pte_remove` executes `invlpg` with its parameter `vaddr` as a memory operand. The page
that is dropped is the one in which the parameter stands, on the kernel stack, and not the one whose
entry was cleared.
-/

namespace GlowOS

open Bytes Paging Program

/-- A processor: memory, and the translations that are cached. -/
structure Cpu where
  mem : Machine
  tlb : Cache

/-- Programs on a processor. -/
abbrev CpuM := StateT Cpu (Except Fault)

namespace Cpu

/-! ## Access to memory -/

/-- The physical address that an access to a virtual address reaches. -/
def access (va : ℕ) : CpuM ℕ := do
  let c ← get
  match c.tlb (va / 4096) with
  | some q => pure (q + va % 4096)
  | none =>
    match c.mem.walk (4096 * (va / 4096)) with
    | none => throw Fault.bounds
    | some q => do
      modify fun c ↦ { c with tlb := Function.update c.tlb (va / 4096) (some q) }
      pure (q + va % 4096)

/-- Load the directory that is in use again. -/
def loadCr3 : CpuM PUnit := modify fun c ↦ { c with tlb := fun _ ↦ none }

/-- `invlpg` with the memory operand at `operand`. -/
def invlpg (operand : ℕ) : CpuM PUnit :=
  modify fun c ↦ { c with tlb := Function.update c.tlb (operand / 4096) none }

/-- What does not go through a translation: the bitmaps. -/
def onMem {α : Type} (p : MemM α) : CpuM α := do
  let c ← get
  match p c.mem with
  | .ok (r, m) => do
    modify fun c ↦ { c with mem := m }
    pure r
  | .error e => throw e

/-- Read the aligned word at a virtual address. -/
def readWord (va : ℕ) : CpuM ℕ := do
  let pa ← access va
  let c ← get
  pure (le32 c.mem.phys pa)

/-- Write the aligned word at a virtual address. -/
def writeWord (va w : ℕ) : CpuM PUnit := do
  let pa ← access va
  modify fun c ↦ { c with mem := c.mem.store pa w }

/-- Write a byte. -/
def writeByte (va : ℕ) (x : UInt8) : CpuM PUnit := do
  let pa ← access va
  modify fun c ↦ { c with mem := { c.mem with phys := Function.update c.mem.phys pa x } }

/-- The loop of `memset`. -/
def fill (x : UInt8) : ℕ → ℕ → CpuM PUnit
  | _, 0 => pure ()
  | va, n + 1 => do
    writeByte va x
    fill x (va + 1) n

/-- `memset`. -/
def memset (va : ℕ) (x : UInt8) (n : ℕ) : CpuM PUnit := do
  check Fault.assert (va ≠ 0)
  fill x va n

/-! ## Page tables -/

/-- `page_table_add`. -/
def pageTableAdd (va pa : ℕ) : CpuM PUnit := do
  let pde ← readWord (pdePtr va)
  if present pde then
    let pte ← readWord (ptePtr va)
    check Fault.assert (present pte = false)
    writeWord (ptePtr va) (entry pa)
  else
    let r ← onMem (palloc .kernel)
    writeWord (pdePtr va) (entry (r.getD 0))
    memset (ptePtr va / 4096 * 4096) 0 pgSize
    let pte ← readWord (ptePtr va)
    check Fault.assert (present pte = false)
    writeWord (ptePtr va) (entry pa)

/-- `addr_v2p`. -/
def addrV2p (va : ℕ) : CpuM ℕ := do
  let pte ← readWord (ptePtr va)
  pure (frame pte + va % 4096)

/-- `page_table_pte_remove`, with its parameter at `operand`. -/
def pageTablePteRemove (va operand : ℕ) : CpuM PUnit := do
  let pte ← readWord (ptePtr va)
  writeWord (ptePtr va) (pte - pte % 2)
  invlpg operand

/-! ## Ranges of pages -/

/-- The loop of `malloc_page`. -/
def mapPages (pf : PoolFlags) : ℕ → ℕ → CpuM Bool
  | _, 0 => pure true
  | va, n + 1 => do
    match ← onMem (palloc pf) with
    | none => pure false
    | some pa => do
      pageTableAdd va pa
      mapPages pf (va + pgSize) n

/-- `malloc_page`. -/
def mallocPage (pf : PoolFlags) (n : ℕ) : CpuM (Option ℕ) := do
  check Fault.assert (0 < n ∧ n < 3840)
  match ← onMem (vaddrGet pf n) with
  | none => pure none
  | some va => do
    let ok ← mapPages pf va n
    pure (if ok then some va else none)

/-- The two loops of `mfree_page`. -/
def unmapPages (ok : Machine → ℕ → Bool) (operand : ℕ) : ℕ → ℕ → CpuM PUnit
  | _, 0 => pure ()
  | va, n + 1 => do
    let pa ← addrV2p va
    let c ← get
    check Fault.assert (pa % pgSize = 0 ∧ ok c.mem pa = true)
    onMem (pfree pa)
    pageTablePteRemove va operand
    unmapPages ok operand (va + pgSize) n

/-- `mfree_page`. -/
def mfreePage (pf : PoolFlags) (operand va n : ℕ) : CpuM PUnit := do
  check Fault.assert (1 ≤ n ∧ va % pgSize = 0)
  let pa ← addrV2p va
  check Fault.assert (pa % pgSize = 0 ∧ 0x102000 ≤ pa)
  let c ← get
  if c.mem.userPool.phyAddrStart ≤ pa then
    unmapPages (fun m pa ↦ m.userPool.phyAddrStart ≤ pa) operand va n
    onMem (vaddrRemove pf va n)
  else
    unmapPages (fun m pa ↦ m.kernelPool.phyAddrStart ≤ pa ∧ pa < m.userPool.phyAddrStart)
      operand va n
    onMem (vaddrRemove pf va n)

/-! ## Coherence -/

/-- Every cached translation agrees with the page tables. -/
def Coherent (c : Cpu) : Prop := Agrees c.mem.phys c.mem.cr3 c.tlb

/-- The processor after an access to `va`. -/
def touch (c : Cpu) (va : ℕ) : Cpu :=
  { c with tlb := Function.update c.tlb (va / 4096) (c.mem.walk (4096 * (va / 4096))) }

section Access

variable {c c' : Cpu} {va pa w : ℕ} {u : PUnit}

theorem walk_page (m : Machine) (va : ℕ) :
    m.walk va = (m.walk (4096 * (va / 4096))).map (· + va % 4096) := by
  have hva : va = 4096 * (va / 4096) + va % 4096 := by omega
  conv_lhs => rw [hva]
  exact walk_add (by omega) (Nat.mod_lt _ (by decide))

/-- **A coherent cache is not noticed**: an access reaches what the tables say. -/
theorem returns_access (h : c.Coherent) :
    Returns (access va) c pa c' ↔ c.mem.walk va = some pa ∧ c' = c.touch va := by
  have hpage := walk_page c.mem va
  rw [access, returns_get_bind]
  cases hq : c.tlb (va / 4096) with
  | some q =>
    have hw : c.mem.walk (4096 * (va / 4096)) = some q := h _ _ hq
    have htouch : c.touch va = c := by
      rw [touch, hw, ← hq, Function.update_eq_self]
    rw [returns_pure, hpage, hw, htouch, Option.map_some, Option.some.injEq, eq_comm]
  | none =>
    cases hw : c.mem.walk (4096 * (va / 4096)) with
    | none =>
      rw [hpage, hw]
      constructor
      · intro hr
        exact absurd hr returns_throw
      · rintro ⟨hr, -⟩
        cases hr
    | some q =>
      change Returns (modify _ >>= _) c pa c' ↔ _
      rw [returns_modify_bind, returns_pure, touch, hpage, hw, Option.map_some, Option.some.injEq,
        eq_comm]

theorem Coherent.touch (h : c.Coherent) (va : ℕ) : (c.touch va).Coherent := Agrees.fill h _

theorem touch_self (c : Cpu) (va : ℕ) :
    (c.touch va).tlb (va / 4096) = c.mem.walk (4096 * (va / 4096)) :=
  Function.update_self ..

theorem touch_of_ne {p : ℕ} (h : p ≠ va / 4096) : (c.touch va).tlb p = c.tlb p :=
  Function.update_of_ne h ..

theorem returns_readWord (h : c.Coherent) :
    Returns (readWord va) c w c' ↔
      ∃ pa, c.mem.walk va = some pa ∧ w = le32 c.mem.phys pa ∧ c' = c.touch va := by
  rw [readWord, returns_bind]
  constructor
  · rintro ⟨pa, t, h1, h2⟩
    obtain ⟨hw, rfl⟩ := (returns_access h).mp h1
    rw [returns_get_bind] at h2
    exact ⟨pa, hw, returns_pure.mp h2⟩
  · rintro ⟨pa, hw, rfl, rfl⟩
    exact ⟨pa, _, (returns_access h).mpr ⟨hw, rfl⟩, returns_pure.mpr ⟨rfl, rfl⟩⟩

theorem returns_writeWord (h : c.Coherent) :
    Returns (writeWord va w) c u c' ↔
      ∃ pa, c.mem.walk va = some pa ∧ c' = ⟨c.mem.store pa w, (c.touch va).tlb⟩ := by
  rw [writeWord, returns_bind]
  constructor
  · rintro ⟨pa, t, h1, h2⟩
    obtain ⟨hw, rfl⟩ := (returns_access h).mp h1
    exact ⟨pa, hw, returns_modify.mp h2⟩
  · rintro ⟨pa, hw, rfl⟩
    exact ⟨pa, _, (returns_access h).mpr ⟨hw, rfl⟩, returns_modify.mpr rfl⟩

end Access

/-! ## The invariant -/

/-- The cache is coherent, the directory maps itself, and it is the page table of no other entry.
Addresses have 32 bits. -/
structure Ready (c : Cpu) : Prop where
  coherent : c.Coherent
  pages : ∀ p q, c.tlb p = some q → p < 2 ^ 20
  selfMap : SelfMap c.mem.phys c.mem.cr3
  pool : c.mem.kernelPool.Aligned
  tables : ∀ j < 1023, present (le32 c.mem.phys (c.mem.cr3 + 4 * j)) = true →
    frame (le32 c.mem.phys (c.mem.cr3 + 4 * j)) ≠ c.mem.cr3

/-- A word of the directory. -/
def InDirectory (c : Cpu) (a : ℕ) : Prop := ∃ j < 1024, a = c.mem.cr3 + 4 * j

section Invariant

variable {c c' : Cpu} {va pa p q a w : ℕ} {u : PUnit}

theorem pdePtr_lt (hva : pdeIdx va < 1024) : pdePtr va < 2 ^ 32 := by
  rw [pdePtr]
  omega

theorem ptePtr_lt (hva : pdeIdx va < 1024) : ptePtr va < 2 ^ 32 := by
  have hlt := pteIdx_lt va
  rw [pdeIdx] at hva
  rw [ptePtr]
  omega

theorem pdeIdx_ptePtr (hva : pdeIdx va < 1024) : pdeIdx (4096 * (ptePtr va / 4096)) = 1023 := by
  have hlt := pteIdx_lt va
  rw [pdeIdx] at hva
  rw [pdeIdx, ptePtr]
  omega

namespace Ready

variable (h : c.Ready)
include h

/-- The pages that show the directory and its tables are translated by words of the directory. -/
theorem inDirectory (hva : pdeIdx va = 1023) (hr : c.mem.Reads va a) : c.InDirectory a := by
  have hpde : pdeAddr c.mem.cr3 va = c.mem.cr3 + 4 * 1023 := by rw [pdeAddr, hva]
  rcases hr with rfl | ⟨-, rfl⟩
  · exact ⟨1023, by decide, hpde⟩
  · exact ⟨pteIdx va, pteIdx_lt va, by rw [pteAddr, hpde, h.selfMap.frame]⟩

/-- The entry of an address below the last four megabytes stands in a table. -/
theorem pteAddr_notIn (hva : pdeIdx va < 1023) (hp : present (c.mem.pde va) = true) :
    c.mem.pteAddr va + 4 ≤ c.mem.cr3 ∨ c.mem.cr3 + 4096 ≤ c.mem.pteAddr va := by
  have hne := h.tables _ hva hp
  have hd := h.selfMap.aligned
  have hf := frame_mod (le32 c.mem.phys (c.mem.cr3 + 4 * pdeIdx va))
  have hlt := pteIdx_lt va
  rw [Machine.pteAddr, pteAddr, pdeAddr]
  omega

theorem walk_ptePtr_iff (hva : pdeIdx va < 1024) :
    c.mem.walk (ptePtr va) = some pa ↔ present (c.mem.pde va) = true ∧ pa = c.mem.pteAddr va := by
  cases hp : present (c.mem.pde va) with
  | true =>
    rw [walk_ptePtr h.selfMap hva hp, Option.some.injEq, eq_comm]
    simp
  | false =>
    have hlt := pteIdx_lt va
    have hptr : ptePtr va = 0xffc00000 + 4096 * pdeIdx va + pteIdx va * 4 := by
      rw [ptePtr, pdeIdx]
      omega
    have hp' : present (le32 c.mem.phys (c.mem.cr3 + 4 * pdeIdx va)) = false := hp
    rw [hptr, Machine.walk, h.selfMap.walk_table hva (by omega), hp']
    simp

/-- The directory is not written to. -/
theorem of_directory (hc : c'.Coherent) (hpages : ∀ p q, c'.tlb p = some q → p < 2 ^ 20)
    (hcr3 : c'.mem.cr3 = c.mem.cr3)
    (hpool : c'.mem.kernelPool.Aligned)
    (hdir : ∀ j < 1024,
      le32 c'.mem.phys (c.mem.cr3 + 4 * j) = le32 c.mem.phys (c.mem.cr3 + 4 * j)) :
    c'.Ready := by
  refine ⟨hc, hpages, ?_, hpool, fun j hj hp ↦ ?_⟩
  · rw [hcr3]
    exact ⟨by rw [hdir 1023 (by decide)]; exact h.selfMap.present,
      by rw [hdir 1023 (by decide)]; exact h.selfMap.frame⟩
  · rw [hcr3, hdir j (by omega)] at hp ⊢
    exact h.tables j hj hp

theorem touch (hva : va < 2 ^ 32) : (c.touch va).Ready := by
  refine ⟨h.coherent.touch va, fun p q hq ↦ ?_, h.selfMap, h.pool, h.tables⟩
  obtain rfl | hne := eq_or_ne p (va / 4096)
  · omega
  · change Function.update _ _ _ _ = _ at hq
    rw [Function.update_of_ne hne] at hq
    exact h.pages p q hq

/-- A translation is dropped. -/
theorem drop (p : ℕ) : Ready ⟨c.mem, Function.update c.tlb p none⟩ := by
  refine ⟨h.coherent.drop p, fun p' q hq ↦ ?_, h.selfMap, h.pool, h.tables⟩
  change Function.update _ _ _ _ = _ at hq
  obtain rfl | hne := eq_or_ne p' p
  · rw [Function.update_self] at hq
    cases hq
  · rw [Function.update_of_ne hne] at hq
    exact h.pages p' q hq

/-- An entry of a table is written that no cached translation reads. -/
theorem store (hva : pdeIdx va < 1023) (hp : present (c.mem.pde va) = true)
    (hun : Unread c.mem.phys c.mem.cr3 c.tlb (c.mem.pteAddr va)) :
    Ready ⟨c.mem.store (c.mem.pteAddr va) w, c.tlb⟩ := by
  have hout := h.pteAddr_notIn hva hp
  have hmod := pteAddr_mod c.mem va
  refine h.of_directory (h.coherent.setWord h.selfMap.aligned hmod hun) h.pages rfl
    h.pool fun j hj ↦ ?_
  have hd := h.selfMap.aligned
  exact le32_setWord_of_ne hmod (by omega) (by omega)

end Ready

/-! ## Removing an entry -/

/-- No cached translation reads the entry of `va`, other than that of the page with the operand. -/
def Flushes (c : Cpu) (va operand : ℕ) : Prop :=
  ∀ p q, c.tlb p = some q → c.mem.Reads (4096 * p) (c.mem.pteAddr va) → p = operand / 4096

/-- What `page_table_pte_remove` does. -/
theorem Ready.returns_pageTablePteRemove (h : c.Ready) {operand : ℕ} (hva : pdeIdx va < 1024) :
    Returns (pageTablePteRemove va operand) c u c' ↔ present (c.mem.pde va) = true ∧
      c' = ⟨c.mem.store (c.mem.pteAddr va)
          (le32 c.mem.phys (c.mem.pteAddr va) - le32 c.mem.phys (c.mem.pteAddr va) % 2),
        Function.update (c.touch (ptePtr va)).tlb (operand / 4096) none⟩ := by
  have htwice : ((c.touch (ptePtr va)).touch (ptePtr va)).tlb = (c.touch (ptePtr va)).tlb :=
    Function.update_idem ..
  have ht := h.touch (ptePtr_lt hva)
  rw [pageTablePteRemove, returns_bind]
  constructor
  · rintro ⟨w, t, h1, h2⟩
    obtain ⟨pa, hw, rfl, rfl⟩ := (returns_readWord h.coherent).mp h1
    obtain ⟨hp, rfl⟩ := (h.walk_ptePtr_iff hva).mp hw
    obtain ⟨v, t, h3, h4⟩ := returns_bind.mp h2
    obtain ⟨pa, hw', rfl⟩ := (returns_writeWord ht.coherent).mp h3
    obtain ⟨-, rfl⟩ := (ht.walk_ptePtr_iff hva).mp hw'
    have hend := returns_modify.mp h4
    rw [htwice] at hend
    exact ⟨hp, hend⟩
  · rintro ⟨hp, rfl⟩
    have hw := (h.walk_ptePtr_iff hva).mpr ⟨hp, rfl⟩
    refine ⟨_, _, (returns_readWord h.coherent).mpr ⟨_, hw, rfl, rfl⟩, returns_bind.mpr
      ⟨(), _, (returns_writeWord ht.coherent).mpr ⟨_, hw, rfl⟩, returns_modify.mpr ?_⟩⟩
    rw [htwice]
    rfl

/-- **Removing an entry** keeps the cache coherent if the translations it serves are dropped. -/
theorem Ready.remove (h : c.Ready) {operand : ℕ} (hva : pdeIdx va < 1023)
    (hflush : c.Flushes va operand) (hr : Returns (pageTablePteRemove va operand) c u c') :
    c'.Ready := by
  obtain ⟨hp, rfl⟩ := (h.returns_pageTablePteRemove (by omega)).mp hr
  have hout := h.pteAddr_notIn hva hp
  have hdrop : Ready ⟨c.mem, Function.update (c.touch (ptePtr va)).tlb (operand / 4096) none⟩ :=
    (h.touch (ptePtr_lt (by omega))).drop _
  refine hdrop.store hva hp fun p q hq hread ↦ ?_
  have hne : p ≠ operand / 4096 := by
    rintro rfl
    change Function.update _ _ _ _ = _ at hq
    rw [Function.update_self] at hq
    cases hq
  change Function.update _ _ _ _ = _ at hq
  rw [Function.update_of_ne hne] at hq
  by_cases hpage : p = ptePtr va / 4096
  · subst hpage
    obtain ⟨j, hj, heq⟩ := h.inDirectory (pdeIdx_ptePtr (by omega)) hread
    change c.mem.pteAddr va = _ at heq
    omega
  · change Function.update _ _ _ _ = _ at hq
    rw [Function.update_of_ne hpage] at hq
    exact hne (hflush p q hq hread)

/-! ## Adding an entry -/

/-- The last step of `page_table_add`: an entry that is not present is written. -/
theorem Ready.setEntry (h : c.Ready) (hva : pdeIdx va < 1023)
    (hr : Returns (do
      let pte ← readWord (ptePtr va)
      check Fault.assert (present pte = false)
      writeWord (ptePtr va) w) c u c') : c'.Ready := by
  obtain ⟨v, t, h1, h2⟩ := returns_bind.mp hr
  obtain ⟨pa, hw, rfl, rfl⟩ := (returns_readWord h.coherent).mp h1
  obtain ⟨hp, rfl⟩ := (h.walk_ptePtr_iff (by omega)).mp hw
  obtain ⟨habsent, h3⟩ := returns_check_bind.mp h2
  have ht := h.touch (ptePtr_lt (by omega : pdeIdx va < 1024))
  obtain ⟨pa, hw', rfl⟩ := (returns_writeWord ht.coherent).mp h3
  obtain ⟨-, rfl⟩ := (ht.walk_ptePtr_iff (by omega)).mp hw'
  have htt := ht.touch (ptePtr_lt (by omega : pdeIdx va < 1024))
  exact htt.store hva hp (htt.coherent.unread habsent)

/-- The loop of `memset`, over a page that shows a frame no translation goes through. -/
theorem fill_clear {x : UInt8} {base f k n : ℕ} (hc : c.Coherent) (hbase : base % 4096 = 0)
    (hn : k + n ≤ 4096) (hw : c.mem.walk base = some f) (hout : Outside c.mem.phys c.mem.cr3 base f)
    (hcache : ∀ p q, c.tlb p = some q → Outside c.mem.phys c.mem.cr3 (4096 * p) f)
    (hr : Returns (fill x (base + k) n) c u c') :
    c'.Coherent ∧ c'.mem = { c.mem with phys := splice c.mem.phys (f + k) n fun _ ↦ x } ∧
      ∀ p q, c'.tlb p = some q → c.tlb p = some q ∨ p = base / 4096 := by
  induction n generalizing k c with
  | zero =>
    obtain ⟨-, rfl⟩ := returns_pure.mp hr
    rw [splice_zero]
    exact ⟨hc, rfl, fun _ _ ↦ Or.inl⟩
  | succ n ih =>
    obtain ⟨_, t, h1, h2⟩ := returns_bind.mp hr
    obtain ⟨pa, t', h3, h4⟩ := returns_bind.mp h1
    obtain ⟨hpa, rfl⟩ := (returns_access hc).mp h3
    have ht := returns_modify.mp h4
    -- the address is in the page, so the byte is in the frame
    have hbyte : c.mem.walk (base + k) = some (f + k) := by
      rw [Machine.walk, walk_add hbase (by omega)]
      exact congrArg (Option.map (· + k)) hw
    obtain rfl : f + k = pa := Option.some.inj (hbyte.symm.trans hpa)
    have hpage : 4096 * ((base + k) / 4096) = base := by omega
    have hall : ∀ p q, (c.touch (base + k)).tlb p = some q →
        Outside c.mem.phys c.mem.cr3 (4096 * p) f := by
      intro p q hq
      obtain rfl | hne := eq_or_ne p ((base + k) / 4096)
      · rwa [hpage]
      · refine hcache p q ?_
        change Function.update _ _ _ _ = _ at hq
        rwa [Function.update_of_ne hne] at hq
    have hsame := fun {p q} (hq : (c.touch (base + k)).tlb p = some q) ↦
      (hall p q hq).le32_update (by omega : k < 4096) (x := x)
    have hbaseSame := hout.le32_update (by omega : k < 4096) (x := x)
    have hct : t.Coherent := by
      rw [ht]
      exact (hc.touch (base + k)).congr fun p q hq ↦ hsame hq
    obtain ⟨hc', hmem, htlb⟩ := ih (k := k + 1) hct (by omega)
      (by rw [ht]; exact (walk_congr hbaseSame).1.trans hw)
      (by rw [ht]; exact hout.congr hbaseSame)
      (by
        rw [ht]
        intro p q hq
        exact (hall p q hq).congr (hsame hq)) h2
    refine ⟨hc', hmem.trans ?_, fun p q hq ↦ ?_⟩
    · rw [ht]
      refine congrArg (fun g ↦ ({ c.mem with phys := g } : Machine)) ?_
      exact splice_update_succ c.mem.phys x (f + k) n
    · refine (htlb p q hq).elim (fun hq ↦ ?_) Or.inr
      rw [ht] at hq
      obtain rfl | hne := eq_or_ne p ((base + k) / 4096)
      · exact Or.inr (by omega)
      · change Function.update _ _ _ _ = _ at hq
        rw [Function.update_of_ne hne] at hq
        exact Or.inl hq

theorem returns_onMem {α : Type} {p : MemM α} {r : α} :
    Returns (onMem p) c r c' ↔ ∃ m, Returns p c.mem r m ∧ c' = ⟨m, c.tlb⟩ := by
  rw [onMem, returns_get_bind]
  constructor
  · intro h
    cases hp : p c.mem with
    | error e =>
      rw [hp] at h
      exact absurd h returns_throw
    | ok x =>
      rw [hp] at h
      obtain ⟨rfl, rfl⟩ := returns_pure.mp h
      exact ⟨x.2, hp, rfl⟩
  · rintro ⟨m, hp, rfl⟩
    rw [show p c.mem = .ok (r, m) from hp]
    exact returns_pure.mpr ⟨rfl, rfl⟩

end Invariant

end Cpu

/-- The frame `page_table_add` takes for a page table: that of address 0 if the pool is empty. -/
def Machine.nextTable (m : Machine) : ℕ :=
  ((m.kernelPool.poolBitmap.scan 1).map m.kernelPool.frameAddr).getD 0

/-- `palloc` for a page table changes the bitmap only. -/
theorem palloc_nextTable (m : Machine) : ∃ r b, Returns (palloc .kernel) m r b ∧
    r.getD 0 = m.nextTable ∧ b.phys = m.phys ∧ b.cr3 = m.cr3 ∧ b.userPool = m.userPool ∧
      b.userprogVaddr = m.userprogVaddr ∧ (m.kernelPool.Aligned → b.kernelPool.Aligned) := by
  cases hi : m.kernelPool.poolBitmap.scan 1 with
  | none =>
    exact ⟨none, m, returns_palloc_none .kernel hi, by rw [Machine.nextTable, hi]; rfl, rfl, rfl,
      rfl, rfl, id⟩
  | some i =>
    exact ⟨_, _, returns_palloc .kernel hi, by rw [Machine.nextTable, hi]; rfl, rfl, rfl, rfl, rfl,
      fun h ↦ ⟨h.start, h.fits⟩⟩

theorem Machine.nextTable_fits {m : Machine} (h : m.kernelPool.Aligned) :
    m.nextTable % 4096 = 0 ∧ m.nextTable < 2 ^ 32 := by
  rw [Machine.nextTable]
  cases hi : m.kernelPool.poolBitmap.scan 1 with
  | none => exact ⟨rfl, show 0 < 2 ^ 32 by decide⟩
  | some i =>
    have hlt := (Bitmap.scan_one_eq_some.mp hi).1
    have hs := h.start
    have hf := h.fits
    rw [Option.map_some, Option.getD_some, Pool.frameAddr, pgSize]
    omega

namespace Cpu

section Adding

variable {c c' : Cpu} {va pa w : ℕ} {u : PUnit}

/-- If `va` needs a page table, the frame taken for it is not the directory and no page table. -/
def TableUnused (c : Cpu) (va : ℕ) : Prop :=
  present (c.mem.pde va) = false → ∀ j < 1024,
    present (le32 c.mem.phys (c.mem.cr3 + 4 * j)) = true →
      frame (le32 c.mem.phys (c.mem.cr3 + 4 * j)) ≠ c.mem.nextTable

/-- `palloc` from the kernel pool changes the bitmap only. -/
theorem returns_pallocKernel {r : Option ℕ} (hr : Returns (onMem (palloc .kernel)) c r c') :
    r.getD 0 = c.mem.nextTable ∧ c'.tlb = c.tlb ∧ c'.mem.phys = c.mem.phys ∧
      c'.mem.cr3 = c.mem.cr3 ∧ (c.mem.kernelPool.Aligned → c'.mem.kernelPool.Aligned) := by
  obtain ⟨m, hp, rfl⟩ := returns_onMem.mp hr
  obtain ⟨q, b, hret, hq, hphys, hcr3, -, -, hpool⟩ := palloc_nextTable c.mem
  obtain ⟨rfl, rfl⟩ := hret.unique hp
  exact ⟨hq, rfl, hphys, hcr3, hpool⟩

/-- The directory is the page table of its last entry, so a frame that is no page table is not the
directory. -/
theorem Ready.ne_directory (h : c.Ready) {f : ℕ}
    (hfree : ∀ j < 1024, present (le32 c.mem.phys (c.mem.cr3 + 4 * j)) = true →
      frame (le32 c.mem.phys (c.mem.cr3 + 4 * j)) ≠ f) : c.mem.cr3 ≠ f := by
  rw [← h.selfMap.frame]
  exact hfree 1023 (by decide) h.selfMap.present

/-- A cached translation goes through the directory and a page table. -/
theorem Ready.outside (h : c.Ready) {f p q : ℕ} (hf : f % 4096 = 0)
    (hfree : ∀ j < 1024, present (le32 c.mem.phys (c.mem.cr3 + 4 * j)) = true →
      frame (le32 c.mem.phys (c.mem.cr3 + 4 * j)) ≠ f)
    (hq : c.tlb p = some q) : Outside c.mem.phys c.mem.cr3 (4096 * p) f := by
  have hne := h.ne_directory hfree
  have hd := h.selfMap.aligned
  have hlt := h.pages p q hq
  have hj : pdeIdx (4096 * p) < 1024 := by
    rw [pdeIdx]
    omega
  obtain ⟨hp, -, -⟩ := walk_eq_some.mp (h.coherent p q hq)
  have htable := hfree _ hj hp
  have hmod := frame_mod (le32 c.mem.phys (c.mem.cr3 + 4 * pdeIdx (4096 * p)))
  have hlt := pteIdx_lt (4096 * p)
  rintro a (rfl | ⟨-, rfl⟩)
  · rw [pdeAddr]
    omega
  · rw [pteAddr, pdeAddr]
    omega

/-- A new page table is entered and cleared. -/
theorem Ready.installTable (h : c.Ready) {f : ℕ} (hva : pdeIdx va < 1023)
    (hp : present (c.mem.pde va) = false) (hf : f % 4096 = 0) (hlt : f < 2 ^ 32)
    (hfree : ∀ j < 1024, present (le32 c.mem.phys (c.mem.cr3 + 4 * j)) = true →
      frame (le32 c.mem.phys (c.mem.cr3 + 4 * j)) ≠ f)
    (hr : Returns (do
      writeWord (pdePtr va) (entry f)
      memset (ptePtr va / 4096 * 4096) 0 pgSize) c u c') : c'.Ready := by
  have hne := h.ne_directory hfree
  have hd := h.selfMap.aligned
  have hmod : pdeAddr c.mem.cr3 va % 4 = 0 := pdeAddr_mod hd
  obtain ⟨_, t, h1, h2⟩ := returns_bind.mp hr
  obtain ⟨a, hw, rfl⟩ := (returns_writeWord h.coherent).mp h1
  obtain rfl : pdeAddr c.mem.cr3 va = a :=
    Option.some.inj ((walk_pdePtr h.selfMap (by omega)).symm.trans hw)
  -- the directory entry was not present, so no cached translation reads it
  have hcache := h.touch (pdePtr_lt (by omega : pdeIdx va < 1024))
  have hunread := hcache.coherent.unread hp
  have hword : le32 (c.mem.store (pdeAddr c.mem.cr3 va) (entry f)).phys (pdeAddr c.mem.cr3 va)
      = entry f := le32_setWord (entry_lt hf hlt)
  have hother : ∀ {b}, b % 4 = 0 → b ≠ pdeAddr c.mem.cr3 va →
      le32 (c.mem.store (pdeAddr c.mem.cr3 va) (entry f)).phys b = le32 c.mem.phys b :=
    fun hb hne ↦ le32_setWord_of_ne hmod hb hne
  have hready :
      Ready ⟨c.mem.store (pdeAddr c.mem.cr3 va) (entry f), (c.touch (pdePtr va)).tlb⟩ := by
    refine ⟨hcache.coherent.setWord hd hmod hunread, hcache.pages, selfMap_store h.selfMap hva,
      h.pool, fun j hj hpj ↦ ?_⟩
    change frame (le32 (c.mem.store _ _).phys (c.mem.cr3 + 4 * j)) ≠ c.mem.cr3
    change present (le32 (c.mem.store _ _).phys (c.mem.cr3 + 4 * j)) = true at hpj
    obtain rfl | hidx := eq_or_ne j (pdeIdx va)
    · rw [show c.mem.cr3 + 4 * pdeIdx va = pdeAddr c.mem.cr3 va from rfl, hword, frame_entry hf]
      exact hne.symm
    · have hb : c.mem.cr3 + 4 * j ≠ pdeAddr c.mem.cr3 va := by
        rw [pdeAddr]
        omega
      rw [hother (by omega) hb] at hpj ⊢
      exact h.tables j hj hpj
  -- the page that shows the table is translated by two words of the directory
  obtain ⟨-, hfill⟩ := returns_check_bind.mp h2
  rw [← Nat.add_zero (ptePtr va / 4096 * 4096)] at hfill
  have hbase : ptePtr va / 4096 * 4096 = 0xffc00000 + 4096 * pdeIdx va := by
    have hk := pteIdx_lt va
    rw [ptePtr, ← pdeIdx]
    omega
  have hlast : pdeIdx (ptePtr va / 4096 * 4096) = 1023 := by
    rw [Nat.mul_comm]
    exact pdeIdx_ptePtr (by omega)
  have hwalk : (c.mem.store (pdeAddr c.mem.cr3 va) (entry f)).walk (ptePtr va / 4096 * 4096)
      = some f := by
    have hw := hready.selfMap.walk_table (i := pdeIdx va) (o := 0) (by omega) (by decide)
    change Paging.walk _ _ (0xffc00000 + 4096 * pdeIdx va + 0) =
      if present (le32 (c.mem.store (pdeAddr c.mem.cr3 va) (entry f)).phys
        (pdeAddr c.mem.cr3 va)) = true then some (frame (le32 _ (pdeAddr c.mem.cr3 va)) + 0)
      else none at hw
    rw [hword, present_entry hf, if_pos rfl, frame_entry hf] at hw
    rw [hbase]
    exact hw
  have hout : Outside (c.mem.store (pdeAddr c.mem.cr3 va) (entry f)).phys c.mem.cr3
      (ptePtr va / 4096 * 4096) f := by
    intro a ha
    obtain ⟨j, hj, heq⟩ := hready.inDirectory hlast ha
    change a = c.mem.cr3 + 4 * j at heq
    omega
  have hcached : ∀ p q, (c.touch (pdePtr va)).tlb p = some q →
      Outside (c.mem.store (pdeAddr c.mem.cr3 va) (entry f)).phys c.mem.cr3 (4096 * p) f := by
    intro p q hq
    refine (hcache.outside hf hfree hq).congr fun b hb ↦ hother (reads_mod hd hb) ?_
    rintro rfl
    exact hunread p q hq hb
  obtain ⟨hc', hmem, htlb⟩ := fill_clear (k := 0)
    hready.coherent (Nat.mul_mod_left ..) (Nat.zero_add pgSize).le hwalk hout hcached hfill
  refine hready.of_directory hc' (fun p q hq ↦ ?_) (by rw [hmem]) (by rw [hmem]; exact h.pool)
    fun j hj ↦ ?_
  · rcases htlb p q hq with hq | rfl
    · exact hready.pages p q hq
    · have hptr := ptePtr_lt (by omega : pdeIdx va < 1024)
      omega
  · rw [hmem]
    change le32 (splice _ _ _ _) (c.mem.cr3 + 4 * j) = _
    exact le32_splice_of_disjoint (by rw [pgSize]; omega)

/-- **Adding an entry** keeps the cache coherent, if a page table is not taken for another one. -/
theorem Ready.add (h : c.Ready) (hva : pdeIdx va < 1023) (hun : c.TableUnused va)
    (hr : Returns (pageTableAdd va pa) c u c') : c'.Ready := by
  obtain ⟨v, t, h1, h2⟩ := returns_bind.mp hr
  obtain ⟨a, hw, rfl, rfl⟩ := (returns_readWord h.coherent).mp h1
  obtain rfl : pdeAddr c.mem.cr3 va = a :=
    Option.some.inj ((walk_pdePtr h.selfMap (by omega)).symm.trans hw)
  have ht := h.touch (pdePtr_lt (by omega : pdeIdx va < 1024))
  rcases returns_ite.mp h2 with ⟨-, h2⟩ | ⟨hp, h2⟩
  · exact ht.setEntry hva h2
  · have hp : present (c.mem.pde va) = false := by
      rw [← Bool.not_eq_true]
      exact hp
    obtain ⟨r, t, h3, h4⟩ := returns_bind.mp h2
    obtain ⟨hr, htlb, hphys, hcr3, hpool⟩ := returns_pallocKernel h3
    rw [hr] at h4
    have hready : t.Ready := by
      refine ht.of_directory ?_ ?_ hcr3 (hpool h.pool) fun j _ ↦ by rw [hphys]
      · rw [Coherent, htlb, hphys, hcr3]
        exact ht.coherent
      · rw [htlb]
        exact ht.pages
    obtain ⟨hf, hlt⟩ := Machine.nextTable_fits ht.pool
    obtain ⟨u₁, t₁, h5, h6⟩ := returns_bind.mp h4
    obtain ⟨u₂, t₂, h7, h8⟩ := returns_bind.mp h6
    have htable : t₂.Ready := by
      refine hready.installTable hva ?_ hf hlt ?_ (returns_bind.mpr ⟨u₁, t₁, h5, h7⟩)
      · rw [Machine.pde, hphys, hcr3]
        exact hp
      · rw [hphys, hcr3]
        exact hun hp
    exact htable.setEntry hva h8

end Adding

end Cpu

/-! ## Runs between two loads of the directory -/

/-- The operations: an access, the two functions that change an entry, and what `palloc`, `pfree`,
`vaddr_get` and `vaddr_remove` do to the bitmaps. -/
inductive CpuOp
  | access (va : ℕ)
  | add (va pa : ℕ)
  | remove (va operand : ℕ)
  | bitmaps

/-- An operation is carried out. Entries are added and removed below the last four megabytes. -/
inductive CpuStep : CpuOp → Cpu → Cpu → Prop
  | access {va pa : ℕ} {c c' : Cpu} (hva : va < 2 ^ 32) (h : Returns (Cpu.access va) c pa c') :
    CpuStep (.access va) c c'
  | add {va pa : ℕ} {c c' : Cpu} (hva : pdeIdx va < 1023)
    (h : Returns (Cpu.pageTableAdd va pa) c PUnit.unit c') : CpuStep (.add va pa) c c'
  | remove {va operand : ℕ} {c c' : Cpu} (hva : pdeIdx va < 1023)
    (h : Returns (Cpu.pageTablePteRemove va operand) c PUnit.unit c') :
    CpuStep (.remove va operand) c c'
  | bitmaps {m : Machine} {c : Cpu} (hphys : m.phys = c.mem.phys) (hcr3 : m.cr3 = c.mem.cr3)
    (hpool : c.mem.kernelPool.Aligned → m.kernelPool.Aligned) : CpuStep .bitmaps c ⟨m, c.tlb⟩

/-- The translations that an operation changes are dropped, or were never cached. -/
def CpuOp.Clean (c : Cpu) : CpuOp → Prop
  | .access _ => True
  | .add va _ => c.TableUnused va
  | .remove va operand => c.Flushes va operand
  | .bitmaps => True

/-- Runs from `c₀`, with the operations carried out so far, the last one first, each with the state
before it. -/
inductive CpuRun (c₀ : Cpu) : List (Cpu × CpuOp) → Cpu → Prop
  | start : CpuRun c₀ [] c₀
  | step {steps : List (Cpu × CpuOp)} {op : CpuOp} {c c' : Cpu} (h : CpuRun c₀ steps c)
    (hstep : CpuStep op c c') : CpuRun c₀ ((c, op) :: steps) c'

/-- The directory was just loaded. -/
structure Cpu.Loaded (c : Cpu) : Prop where
  tlb : c.tlb = fun _ ↦ none
  selfMap : SelfMap c.mem.phys c.mem.cr3
  pool : c.mem.kernelPool.Aligned
  tables : ∀ j < 1023, present (le32 c.mem.phys (c.mem.cr3 + 4 * j)) = true →
    frame (le32 c.mem.phys (c.mem.cr3 + 4 * j)) ≠ c.mem.cr3

section Runs

variable {c₀ c c' : Cpu} {steps : List (Cpu × CpuOp)} {op : CpuOp} {va pa operand n : ℕ}

theorem Cpu.Loaded.ready (h : c.Loaded) : c.Ready := by
  refine ⟨?_, fun p q hq ↦ ?_, h.selfMap, h.pool, h.tables⟩
  · rw [Cpu.Coherent, h.tlb]
    exact agrees_none
  · rw [h.tlb] at hq
    cases hq

/-- One operation. -/
theorem Cpu.Ready.step (h : c.Ready) (hclean : op.Clean c) (hstep : CpuStep op c c') :
    c'.Ready := by
  cases hstep with
  | access hva hr =>
    obtain ⟨-, rfl⟩ := (Cpu.returns_access h.coherent).mp hr
    exact h.touch hva
  | add hva hr => exact h.add hva hclean hr
  | remove hva hr => exact h.remove hva hclean hr
  | bitmaps hphys hcr3 hpool =>
    refine h.of_directory ?_ h.pages hcr3 (hpool h.pool) fun j _ ↦ by rw [hphys]
    rw [Cpu.Coherent, hphys, hcr3]
    exact h.coherent

theorem Cpu.Ready.run (h₀ : c₀.Ready) (hrun : CpuRun c₀ steps c)
    (hclean : ∀ st ∈ steps, st.2.Clean st.1) : c.Ready := by
  induction hrun with
  | start => exact h₀
  | step _ hstep ih =>
    exact (ih fun st hst ↦ hclean st (List.mem_cons_of_mem _ hst)).step
      (hclean _ List.mem_cons_self) hstep

/-- **The cache stays coherent**, and every access reaches what the page tables say, as long as the
translations that an operation changes are dropped or were never cached. -/
theorem coherent_of_cleanRun (h₀ : c₀.Loaded) (hrun : CpuRun c₀ steps c)
    (hclean : ∀ st ∈ steps, st.2.Clean st.1) :
    c.Coherent ∧ ∀ va pa c', Returns (Cpu.access va) c pa c' → c.mem.walk va = some pa := by
  have h := h₀.ready.run hrun hclean
  exact ⟨h.coherent, fun va pa c' hr ↦ ((Cpu.returns_access h.coherent).mp hr).1⟩

/-! ### The calls as runs -/

theorem CpuRun.trans {steps' : List (Cpu × CpuOp)} (h : CpuRun c₀ steps c)
    (h' : CpuRun c steps' c') : CpuRun c₀ (steps' ++ steps) c' := by
  induction h' with
  | start => exact h
  | step _ hstep ih => exact ih.step hstep

/-- A program that is a sequence of operations. -/
def Performs {α : Type} (p : CpuM α) : Prop :=
  ∀ c r c', Returns p c r c' → ∃ steps, CpuRun c steps c'

namespace Performs

variable {α β : Type} {p : CpuM α}

theorem pure (r : α) : Performs (pure r : CpuM α) := by
  intro c r' c' h
  obtain ⟨-, rfl⟩ := returns_pure.mp h
  exact ⟨[], .start⟩

theorem bind {f : α → CpuM β} (hp : Performs p) (hf : ∀ r, Performs (f r)) :
    Performs (p >>= f) := by
  intro c r c' h
  obtain ⟨a, t, h1, h2⟩ := returns_bind.mp h
  obtain ⟨steps, hrun⟩ := hp c a t h1
  obtain ⟨steps', hrun'⟩ := hf a t r c' h2
  exact ⟨_, hrun.trans hrun'⟩

theorem get : Performs (get : CpuM Cpu) := by
  intro c r c' h
  obtain ⟨-, rfl⟩ := returns_get.mp h
  exact ⟨[], .start⟩

theorem check (e : Fault) (q : Prop) [Decidable q] : Performs (check e q : CpuM PUnit) := by
  intro c r c' h
  obtain ⟨-, rfl⟩ := returns_check.mp h
  exact ⟨[], .start⟩

theorem ite {q : Prop} [Decidable q] {p p' : CpuM α} (h : Performs p) (h' : Performs p') :
    Performs (if q then p else p') := by
  split_ifs
  · exact h
  · exact h'

theorem addrV2p (hva : va < 2 ^ 32) : Performs (Cpu.addrV2p va) := by
  have hptr : ptePtr va < 2 ^ 32 := Cpu.ptePtr_lt (by rw [pdeIdx]; omega)
  refine bind (bind ?_ fun _ ↦ bind get fun _ ↦ pure _) fun _ ↦ pure _
  exact fun c r c' h ↦ ⟨_, CpuRun.start.step (.access hptr h)⟩

theorem add (hva : pdeIdx va < 1023) (pa : ℕ) : Performs (Cpu.pageTableAdd va pa) :=
  fun _ _ _ h ↦ ⟨_, CpuRun.start.step (.add hva h)⟩

theorem remove (hva : pdeIdx va < 1023) (operand : ℕ) :
    Performs (Cpu.pageTablePteRemove va operand) :=
  fun _ _ _ h ↦ ⟨_, CpuRun.start.step (.remove hva h)⟩

/-- A program over the bitmaps. -/
theorem onMem {p : MemM α} (h : ∀ m r m', Returns p m r m' → m'.phys = m.phys ∧ m'.cr3 = m.cr3 ∧
    (m.kernelPool.Aligned → m'.kernelPool.Aligned)) : Performs (Cpu.onMem p) := by
  intro c r c' hr
  obtain ⟨m, hm, rfl⟩ := Cpu.returns_onMem.mp hr
  obtain ⟨h1, h2, h3⟩ := h _ _ _ hm
  exact ⟨_, CpuRun.start.step (.bitmaps h1 h2 h3)⟩

theorem palloc (pf : PoolFlags) : Performs (Cpu.onMem (palloc pf)) := by
  refine onMem fun m r m' h ↦ ?_
  cases hi : (m.pool pf).poolBitmap.scan 1 with
  | none =>
    obtain ⟨-, rfl⟩ := (returns_palloc_none pf hi).unique h
    exact ⟨rfl, rfl, id⟩
  | some i =>
    obtain ⟨-, rfl⟩ := (returns_palloc pf hi).unique h
    cases pf with
    | kernel => exact ⟨rfl, rfl, fun h ↦ ⟨h.start, h.fits⟩⟩
    | user => exact ⟨rfl, rfl, id⟩

theorem pfree (pa : ℕ) : Performs (Cpu.onMem (pfree pa)) := by
  refine onMem fun m r m' h ↦ ?_
  rw [GlowOS.pfree, returns_get_bind] at h
  rcases returns_ite.mp h with ⟨-, h⟩ | ⟨-, h⟩
  · rw [returns_modify.mp h]
    exact ⟨rfl, rfl, id⟩
  · rw [returns_modify.mp h]
    exact ⟨rfl, rfl, fun h ↦ ⟨h.start, h.fits⟩⟩

theorem vaddrRemove (pf : PoolFlags) (va n : ℕ) : Performs (Cpu.onMem (vaddrRemove pf va n)) := by
  refine onMem fun m r m' h ↦ ?_
  rw [returns_modify.mp h]
  cases pf with
  | kernel => exact ⟨rfl, rfl, id⟩
  | user => exact ⟨rfl, rfl, id⟩

/-- The loop of `malloc_page`. -/
theorem mapPages (pf : PoolFlags) (h : va + n * 4096 ≤ 0xffc00000) :
    Performs (Cpu.mapPages pf va n) := by
  induction n generalizing va with
  | zero => exact pure _
  | succ n ih =>
    refine bind (palloc pf) fun r ↦ ?_
    cases r with
    | none => exact pure _
    | some pa =>
      refine bind (add ?_ pa) fun _ ↦ ih ?_
      · rw [pdeIdx]
        omega
      · rw [pgSize]
        omega

/-- The loops of `mfree_page`. -/
theorem unmapPages (ok : Machine → ℕ → Bool) (h : va + n * 4096 ≤ 0xffc00000) :
    Performs (Cpu.unmapPages ok operand va n) := by
  induction n generalizing va with
  | zero => exact pure _
  | succ n ih =>
    refine bind (addrV2p (by omega)) fun pa ↦ bind get fun c ↦ bind (check _ _) fun _ ↦
      bind (pfree pa) fun _ ↦ bind (remove ?_ operand) fun _ ↦ ih ?_
    · rw [pdeIdx]
      omega
    · rw [pgSize]
      omega

/-- `mfree_page`. -/
theorem mfreePage (pf : PoolFlags) (hn : va + n * 4096 ≤ 0xffc00000) (hva : va < 2 ^ 32) :
    Performs (Cpu.mfreePage pf operand va n) :=
  bind (check _ _) fun _ ↦ bind (addrV2p hva) fun _ ↦ bind (check _ _) fun _ ↦ bind get fun _ ↦
    ite (bind (unmapPages _ hn) fun _ ↦ vaddrRemove pf va n)
      (bind (unmapPages _ hn) fun _ ↦ vaddrRemove pf va n)

end Performs

/-- The virtual addresses that a flag hands out, with the page that `bitmap_scan` may add, end below
the last four megabytes. -/
def Machine.BelowTables (m : Machine) (pf : PoolFlags) : Prop :=
  (m.vaddr pf).vaddrStart + (8 * (m.vaddr pf).vaddrBitmap.btmpBytesLen + 1) * 4096 ≤ 0xffc00000

/-- `malloc_page` is a sequence of operations. -/
theorem mallocPage_run {pf : PoolFlags} {r : Option ℕ} (h : c.mem.BelowTables pf)
    (hr : Returns (Cpu.mallocPage pf n) c r c') : ∃ steps, CpuRun c steps c' := by
  obtain ⟨⟨hpos, -⟩, hr⟩ := returns_check_bind.mp hr
  obtain ⟨r', t, h1, h2⟩ := returns_bind.mp hr
  obtain ⟨m, hm, rfl⟩ := Cpu.returns_onMem.mp h1
  rw [vaddrGet, returns_get_bind] at hm
  cases hi : (c.mem.vaddr pf).vaddrBitmap.scan n with
  | none =>
    rw [hi] at hm
    obtain ⟨rfl, rfl⟩ := returns_pure.mp hm
    obtain ⟨-, rfl⟩ := returns_pure.mp h2
    exact ⟨[], .start⟩
  | some i =>
    rw [hi, returns_modify_bind, returns_check_bind, returns_pure] at hm
    obtain ⟨-, rfl, rfl⟩ := hm
    have hfits := (Bitmap.scan_spec hpos hi).1
    rw [Machine.BelowTables] at h
    have hstep : CpuStep .bitmaps c
        ⟨c.mem.setVaddrBitmap ((c.mem.vaddr pf).vaddrBitmap.setRun i n true) pf, c.tlb⟩ := by
      cases pf with
      | kernel => exact .bitmaps rfl rfl id
      | user => exact .bitmaps rfl rfl id
    have hrest : Performs (do
        let ok ← Cpu.mapPages pf ((c.mem.vaddr pf).vaddrStart + i * pgSize) n
        pure (if ok then some ((c.mem.vaddr pf).vaddrStart + i * pgSize) else none) :
          CpuM (Option ℕ)) := by
      refine .bind (.mapPages pf ?_) fun _ ↦ .pure _
      rw [pgSize]
      omega
    obtain ⟨steps, hrun⟩ := hrest _ _ _ h2
    exact ⟨_, (CpuRun.start.step hstep).trans hrun⟩

theorem Cpu.Ready.addrV2p (h : c.Ready) (hva : pdeIdx va < 1024) (hw : c.mem.walk va = some pa) :
    (c.touch (ptePtr va)).Ready ∧ Returns (Cpu.addrV2p va) c pa (c.touch (ptePtr va)) := by
  obtain ⟨hp, -, rfl⟩ := walk_eq_some.mp hw
  exact ⟨h.touch (Cpu.ptePtr_lt hva), returns_bind.mpr ⟨_, _, (Cpu.returns_readWord h.coherent).mpr
    ⟨_, (h.walk_ptePtr_iff hva).mpr ⟨hp, rfl⟩, rfl, rfl⟩, returns_pure.mpr ⟨rfl, rfl⟩⟩⟩

/-- A page whose translation is cached is removed, with the operand in another page. -/
theorem Cpu.Ready.not_coherent_of_remove (h : c.Ready) {q : ℕ} {u : PUnit} (hpage : va % 4096 = 0)
    (hva : pdeIdx va < 1023) (hq : c.tlb (va / 4096) = some q)
    (hop : va / 4096 ≠ operand / 4096)
    (hr : Returns (Cpu.pageTablePteRemove va operand) c u c') : ¬c'.Coherent := by
  obtain ⟨-, rfl⟩ := (h.returns_pageTablePteRemove (by omega)).mp hr
  intro hc
  have hptr : va / 4096 ≠ ptePtr va / 4096 := by
    have hlt := pteIdx_lt va
    rw [pdeIdx] at hva
    rw [ptePtr]
    omega
  have hkept : Function.update (c.touch (ptePtr va)).tlb (operand / 4096) none (va / 4096)
      = some q := by
    rw [Function.update_of_ne hop]
    exact (Function.update_of_ne hptr ..).trans hq
  have hwalk := hc _ q hkept
  have hnone := (@walk_store_cleared c.mem va h.selfMap.aligned _ rfl).2
  rw [show 4096 * (va / 4096) = va by omega] at hwalk
  exact Option.some_ne_none _ (hwalk.symm.trans hnone)

/-- `mfree_page` of one page of a user process leaves the translation behind. -/
theorem Cpu.Ready.mfreePage_one (h : c.Ready) (hpage : va % 4096 = 0) (hva : pdeIdx va < 1023)
    (hw : c.mem.walk va = some pa) (huser : c.mem.userPool.phyAddrStart ≤ pa)
    (hlow : 0x102000 ≤ pa) :
    ∃ c', Returns (Cpu.mfreePage .user operand va 1) c PUnit.unit c' ∧
      ∀ q, c.tlb (va / 4096) = some q → va / 4096 ≠ operand / 4096 → ¬c'.Coherent := by
  have hmod := walk_mod hw hpage
  have hptr : va / 4096 ≠ ptePtr va / 4096 := by
    have hlt := pteIdx_lt va
    rw [pdeIdx] at hva
    rw [ptePtr]
    omega
  have hp : present (c.mem.pde va) = true := (walk_eq_some.mp hw).1
  obtain ⟨h₁, hv₁⟩ := h.addrV2p (by omega) hw
  obtain ⟨h₂, hv₂⟩ := h₁.addrV2p (by omega) hw
  -- the frame goes back to the pool
  set m := c.mem.setPoolBitmap
    (c.mem.userPool.poolBitmap.set ((pa - c.mem.userPool.phyAddrStart) / pgSize) false) .user
  have hpfree : Returns (pfree pa) c.mem PUnit.unit m := by
    rw [pfree, returns_get_bind]
    exact returns_ite.mpr (.inl ⟨huser, returns_modify.mpr rfl⟩)
  have h₃ : Cpu.Ready ⟨m, ((c.touch (ptePtr va)).touch (ptePtr va)).tlb⟩ :=
    @Cpu.Ready.step _ _ .bitmaps h₂ trivial (.bitmaps rfl rfl id)
  -- the entry is cleared, and the virtual address goes back
  obtain ⟨c₄, hremove⟩ : ∃ c₄, Returns (Cpu.pageTablePteRemove va operand)
      ⟨m, ((c.touch (ptePtr va)).touch (ptePtr va)).tlb⟩ PUnit.unit c₄ :=
    ⟨_, (h₃.returns_pageTablePteRemove (by omega)).mpr ⟨hp, rfl⟩⟩
  have hloop : Returns (Cpu.unmapPages (fun m pa ↦ m.userPool.phyAddrStart ≤ pa) operand va 1)
      (c.touch (ptePtr va)) PUnit.unit c₄ := by
    refine returns_bind.mpr ⟨pa, _, hv₂, ?_⟩
    refine returns_get_bind.mpr (returns_check_bind.mpr ⟨⟨hmod, decide_eq_true huser⟩, ?_⟩)
    refine returns_bind.mpr ⟨(), _, Cpu.returns_onMem.mpr ⟨m, hpfree, rfl⟩, ?_⟩
    exact returns_bind.mpr ⟨(), _, hremove, returns_pure.mpr ⟨rfl, rfl⟩⟩
  have hcall : Returns (Cpu.mfreePage .user operand va 1) c PUnit.unit
      ⟨c₄.mem.setVaddrBitmap ((c₄.mem.vaddr .user).vaddrBitmap.setRun
        ((va - (c₄.mem.vaddr .user).vaddrStart) / pgSize) 1 false) .user, c₄.tlb⟩ := by
    refine returns_check_bind.mpr ⟨⟨le_refl 1, hpage⟩, returns_bind.mpr ⟨pa, _, hv₁, ?_⟩⟩
    refine returns_check_bind.mpr ⟨⟨hmod, hlow⟩, returns_get_bind.mpr ?_⟩
    refine returns_ite.mpr (.inl ⟨huser, ?_⟩)
    exact returns_bind.mpr ⟨(), _, hloop, Cpu.returns_onMem.mpr ⟨_, returns_modify.mpr rfl, rfl⟩⟩
  refine ⟨_, hcall, fun q hq hop hc ↦ ?_⟩
  refine h₃.not_coherent_of_remove (q := q) hpage hva ?_ hop hremove hc
  exact (Cpu.touch_of_ne hptr).trans ((Cpu.touch_of_ne hptr).trans hq)

/-! ### One page of a user process -/

/-- The first user page is mapped, through one page table. -/
def Machine.firstPage : Machine :=
  { Machine.bare with
    phys := setWord (setWord Machine.bare.phys (0x100000 + 4 * 32) (entry 0x101000))
      (0x101000 + 4 * 72) (entry 0x300000) }

theorem firstPage_dir {j : ℕ} (hj : j < 1024) (hne : j ≠ 32) :
    le32 Machine.firstPage.phys (0x100000 + 4 * j) = le32 Machine.bare.phys (0x100000 + 4 * j) := by
  have h1 : 0x100000 + 4 * j ≠ 0x101000 + 4 * 72 := by omega
  have h2 : 0x100000 + 4 * j ≠ 0x100000 + 4 * 32 := by omega
  exact (le32_setWord_of_ne (by decide) (by omega) h1).trans
    (le32_setWord_of_ne (by decide) (by omega) h2)

theorem firstPage_pde : le32 Machine.firstPage.phys (0x100000 + 4 * 32) = entry 0x101000 :=
  (le32_setWord_of_ne (by decide) (by decide) (by decide)).trans (le32_setWord (by decide))

theorem firstPage_pte : le32 Machine.firstPage.phys (0x101000 + 4 * 72) = entry 0x300000 :=
  le32_setWord (by decide)

theorem firstPage_loaded : Cpu.Loaded ⟨Machine.firstPage, fun _ ↦ none⟩ where
  tlb := rfl
  selfMap := by
    have hlast : le32 Machine.firstPage.phys (Machine.firstPage.cr3 + 4 * 1023) = entry 0x100000 :=
      (firstPage_dir (by decide) (by decide)).trans bare_last
    exact ⟨by rw [hlast]; decide, by rw [hlast]; decide⟩
  pool := bare_pagingOk.pool
  tables j hj hp := by
    change present (le32 Machine.firstPage.phys (0x100000 + 4 * j)) = true at hp
    change frame (le32 Machine.firstPage.phys (0x100000 + 4 * j)) ≠ 0x100000
    obtain rfl | hne := eq_or_ne j 32
    · rw [firstPage_pde]
      decide
    · rw [firstPage_dir (by omega) hne, bare_dir hj] at hp
      cases hp

theorem firstPage_walk : Machine.firstPage.walk 0x8048000 = some 0x300000 := by
  have hpde : le32 Machine.firstPage.phys (pdeAddr 0x100000 0x8048000) = entry 0x101000 :=
    firstPage_pde
  have hpteAddr : pteAddr Machine.firstPage.phys 0x100000 0x8048000 = 0x101000 + 4 * 72 := by
    rw [pteAddr, hpde]
    decide
  have hpte : le32 Machine.firstPage.phys (pteAddr Machine.firstPage.phys 0x100000 0x8048000)
      = entry 0x300000 := by
    rw [hpteAddr, firstPage_pte]
  change walk Machine.firstPage.phys 0x100000 0x8048000 = _
  refine walk_eq_some.mpr ⟨by rw [hpde]; decide, by rw [hpte]; decide, ?_⟩
  rw [hpte]
  decide

/-- The page is removed without having been accessed. -/
theorem coherent_of_cleanRun_firstPage : ∃ c, CpuRun ⟨Machine.firstPage, fun _ ↦ none⟩
    [(⟨Machine.firstPage, fun _ ↦ none⟩, .remove 0x8048000 0xc009eff0)] c ∧ c.Coherent := by
  have hp : present (Machine.firstPage.pde 0x8048000) = true := (walk_eq_some.mp firstPage_walk).1
  obtain ⟨c, hr⟩ : ∃ c, Returns (Cpu.pageTablePteRemove 0x8048000 0xc009eff0)
      ⟨Machine.firstPage, fun _ ↦ none⟩ PUnit.unit c :=
    ⟨_, (firstPage_loaded.ready.returns_pageTablePteRemove (by decide)).mpr ⟨hp, rfl⟩⟩
  have hrun := CpuRun.start.step (.remove (by decide) hr)
  refine ⟨c, hrun, (coherent_of_cleanRun firstPage_loaded hrun fun st hst ↦ ?_).1⟩
  obtain rfl := List.mem_singleton.mp hst
  rintro p q ⟨⟩

/-- The page is accessed and then given back, with the operand on the stack of the kernel. -/
theorem not_coherent_firstPage : ∃ c₀ c₁ c₂, Cpu.Loaded c₀ ∧
    Returns (Cpu.access 0x8048000) c₀ 0x300000 c₁ ∧
    Returns (Cpu.mfreePage .user 0xc009eff0 0x8048000 1) c₁ PUnit.unit c₂ ∧
    (∃ steps, CpuRun c₀ steps c₂) ∧ ¬c₂.Coherent := by
  have h₀ := firstPage_loaded.ready
  have haccess := (Cpu.returns_access h₀.coherent).mpr ⟨firstPage_walk, rfl⟩
  have h₁ := h₀.touch (show 0x8048000 < 2 ^ 32 by decide)
  obtain ⟨c₂, hfree, hstale⟩ := @Cpu.Ready.mfreePage_one _ _ _ 0xc009eff0 h₁ (by decide) (by decide)
    firstPage_walk (by decide) (by decide)
  obtain ⟨steps, hrun⟩ := Performs.mfreePage .user (by decide) (by decide) _ _ _ hfree
  refine ⟨_, _, c₂, firstPage_loaded, haccess, hfree,
    ⟨_, (CpuRun.start.step (.access (by decide) haccess)).trans hrun⟩, ?_⟩
  exact hstale _ ((Cpu.touch_self _ _).trans firstPage_walk) (by decide)

end Runs

end GlowOS
