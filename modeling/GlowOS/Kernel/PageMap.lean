import Mathlib
import GlowOS.Kernel.Memory

/-!
# The page tables seen through themselves

`pde_ptr` and `pte_ptr` give virtual addresses in the last four megabytes, where the active
directory maps itself. So the words that `page_table_add` writes are found by the same translation
that it changes. Under the self-map both pointers denote the physical words of the walk, and they
still do after the directory entry of a new page table was written, because that table stands in a
frame of its own.
-/

namespace GlowOS

open Bytes Paging Program

/-! ## Access to memory -/

section Access

variable {m m' : Machine} {va pa w : ℕ} {u : PUnit}

/-- The machine with the word `w` at the physical address `a`. -/
def Machine.store (m : Machine) (a w : ℕ) : Machine := { m with phys := setWord m.phys a w }

@[simp] theorem Machine.store_cr3 (a : ℕ) : (m.store a w).cr3 = m.cr3 := rfl

@[simp] theorem Machine.store_phys (a : ℕ) : (m.store a w).phys = setWord m.phys a w := rfl

theorem returns_translate :
    Returns (translate va) m pa m' ↔ m.walk va = some pa ∧ m' = m := by
  rw [translate, returns_get_bind]
  cases hw : m.walk va with
  | none =>
    constructor
    · intro h
      exact absurd h returns_throw
    · rintro ⟨⟨⟩, -⟩
  | some a =>
    change Returns (pure a) m pa m' ↔ _
    rw [returns_pure, Option.some.injEq]
    exact and_congr_left fun _ ↦ eq_comm

theorem returns_readWord :
    Returns (readWord va) m w m' ↔ ∃ pa, m.walk va = some pa ∧ w = le32 m.phys pa ∧ m' = m := by
  rw [readWord, returns_bind]
  constructor
  · rintro ⟨pa, t, h1, h⟩
    obtain ⟨hw, rfl⟩ := returns_translate.mp h1
    rw [returns_get_bind] at h
    exact ⟨pa, hw, returns_pure.mp h⟩
  · rintro ⟨pa, hw, rfl, rfl⟩
    refine ⟨pa, m', returns_translate.mpr ⟨hw, rfl⟩, ?_⟩
    rw [returns_get_bind]
    exact returns_pure.mpr ⟨rfl, rfl⟩

theorem returns_writeWord :
    Returns (writeWord va w) m u m' ↔ ∃ pa, m.walk va = some pa ∧ m' = m.store pa w := by
  rw [writeWord, returns_bind]
  constructor
  · rintro ⟨pa, t, h1, h⟩
    obtain ⟨hw, rfl⟩ := returns_translate.mp h1
    exact ⟨pa, hw, returns_modify.mp h⟩
  · rintro ⟨pa, hw, rfl⟩
    exact ⟨pa, m, returns_translate.mpr ⟨hw, rfl⟩, returns_modify.mpr rfl⟩

theorem readWord_returns (h : m.walk va = some pa) :
    Returns (readWord va) m (le32 m.phys pa) m :=
  returns_readWord.mpr ⟨pa, h, rfl, rfl⟩

theorem writeWord_returns (h : m.walk va = some pa) :
    Returns (writeWord va w) m () (m.store pa w) :=
  returns_writeWord.mpr ⟨pa, h, rfl⟩

/-- A byte is written, and those behind it. -/
theorem splice_update_succ (f : Image) (x : UInt8) (o n : ℕ) :
    splice (Function.update f o x) (o + 1) n (fun _ ↦ x) = splice f o (n + 1) fun _ ↦ x := by
  funext i
  by_cases hi : i = o
  · rw [hi, splice_of_lt (by omega), Function.update_self, splice_of_mem (by omega) (by omega)]
  · by_cases hin : o + 1 ≤ i ∧ i < o + 1 + n
    · rw [splice_of_mem hin.1 hin.2, splice_of_mem (by omega) (by omega)]
    · rw [splice_of_disjoint (by omega), splice_of_disjoint (by omega), Function.update_of_ne hi]

/-- Filling a part of a page whose translation does not depend on its contents. -/
theorem fill_returns (x : UInt8) {k n : ℕ} (hva : va % 4096 = 0) (hn : k + n ≤ 4096)
    (hw : m.walk va = some pa) (hreads : ∀ a, m.Reads va a → a + 4 ≤ pa ∨ pa + 4096 ≤ a) :
    Returns (fill x (va + k) n) m ()
      { m with phys := splice m.phys (pa + k) n fun _ ↦ x } := by
  induction n generalizing k m with
  | zero =>
    rw [splice_zero]
    exact returns_pure.mpr ⟨rfl, rfl⟩
  | succ n ih =>
    have hbyte : m.walk (va + k) = some (pa + k) := by
      rw [Machine.walk, walk_add hva (by omega)]
      exact congrArg (Option.map (· + k)) hw
    -- the byte written is in none of the words that the translation reads
    have hsame : ∀ a, m.Reads va a →
        le32 (Function.update m.phys (pa + k) x) a = le32 m.phys a := by
      intro a ha
      have hout := hreads a ha
      exact le32_congr fun i hi ↦ Function.update_of_ne (by omega) ..
    have hpde : le32 (Function.update m.phys (pa + k) x) (pdeAddr m.cr3 va) =
        le32 m.phys (pdeAddr m.cr3 va) := hsame _ (.inl rfl)
    have hwalk := walk_congr hsame
    have hrest := ih (k := k + 1) (m := { m with phys := Function.update m.phys (pa + k) x })
      (by omega) (hwalk.1.trans hw) (by
        rintro a (rfl | ⟨hp, rfl⟩)
        · exact hreads _ (.inl rfl)
        · have hp' : present (le32 m.phys (pdeAddr m.cr3 va)) = true := hpde ▸ hp
          have hpte := hreads _ (.inr ⟨hp', rfl⟩)
          rwa [← hwalk.2 hp'] at hpte)
    rw [fill, returns_bind]
    refine ⟨(), _, returns_bind.mpr
      ⟨pa + k, m, returns_translate.mpr ⟨hbyte, rfl⟩, returns_modify.mpr rfl⟩, ?_⟩
    rw [← splice_update_succ, Nat.add_assoc]
    exact hrest

end Access

/-! ## Entries -/

section Entries

variable {pa : ℕ}

theorem entry_eq (h : pa % 4096 = 0) : entry pa = pa + 7 := by
  have hmul : pa = 2 ^ 12 * (pa / 4096) := by omega
  rw [entry, hmul, ← Nat.two_pow_add_eq_or_of_lt (by decide)]

theorem present_entry (h : pa % 4096 = 0) : present (entry pa) = true := by
  rw [entry_eq h, present, decide_eq_true_eq]
  omega

theorem frame_entry (h : pa % 4096 = 0) : frame (entry pa) = pa := by
  rw [entry_eq h]
  exact frame_of_aligned h (by decide)

theorem entry_lt (h : pa % 4096 = 0) (hlt : pa < 2 ^ 32) : entry pa < 2 ^ 32 := by
  rw [entry_eq h]
  omega

end Entries

/-! ## The pointers -/

section Pointers

variable {m : Machine} {va vb a : ℕ} (h : SelfMap m.phys m.cr3)
include h

theorem walk_pdePtr (hva : pdeIdx va < 1024) : m.walk (pdePtr va) = some (pdeAddr m.cr3 va) := by
  rw [pdePtr, Machine.walk, h.walk_dir (by omega), pdeAddr, Nat.mul_comm]

theorem walk_ptePtr (hva : pdeIdx va < 1024) (hp : present (m.pde va) = true) :
    m.walk (ptePtr va) = some (m.pteAddr va) := by
  have hlt := pteIdx_lt va
  have hptr : ptePtr va = 0xffc00000 + 4096 * pdeIdx va + pteIdx va * 4 := by
    rw [ptePtr, pdeIdx]
    omega
  rw [Machine.pde, pdeAddr] at hp
  rw [hptr, Machine.walk, h.walk_table hva (by omega), if_pos hp, Machine.pteAddr, pteAddr,
    Nat.mul_comm (pteIdx va), pdeAddr]

omit h in
/-- The words of a walk are aligned. -/
theorem reads_mod (hd : m.cr3 % 4096 = 0) (ha : m.Reads va a) : a % 4 = 0 :=
  Paging.reads_mod hd ha

end Pointers

/-! ## What the map operations leave alone -/

/-- The translation of `vb` goes through the page-table word of `va`; or the word that `vb` uses as
its page-table word is the directory word of `va`, which takes a directory that is an ordinary page
table as well. -/
def Machine.SharesWord (m : Machine) (va vb : ℕ) : Prop :=
  m.Reads vb (m.pteAddr va) ∨
    present (m.pde vb) = true ∧ m.pteAddr vb = pdeAddr m.cr3 va

/-- Below the self-map, only addresses that share a word with `va` are translated differently. -/
def Machine.MovesOnly (m m' : Machine) (va : ℕ) : Prop :=
  ∀ vb, pdeIdx vb < 1023 → ¬m'.SharesWord va vb → m'.walk vb = m.walk vb

/-- The frames of a pool are frames of physical memory. -/
structure Pool.Aligned (p : Pool) : Prop where
  start : p.phyAddrStart % 4096 = 0
  fits : 8 * p.poolBitmap.btmpBytesLen * 4096 + p.phyAddrStart ≤ 2 ^ 32

/-- The directory maps itself in its last entry, and no free frame of the kernel pool is in use as
the directory or as a page table. -/
structure Machine.PagingOk (m : Machine) : Prop where
  selfMap : SelfMap m.phys m.cr3
  pool : m.kernelPool.Aligned
  unused : ∀ i < 8 * m.kernelPool.poolBitmap.btmpBytesLen,
    m.kernelPool.poolBitmap.bit i = false → m.kernelPool.frameAddr i ≠ m.cr3 ∧
      ∀ j < 1024, present (le32 m.phys (m.cr3 + 4 * j)) = true →
        frame (le32 m.phys (m.cr3 + 4 * j)) ≠ m.kernelPool.frameAddr i

section Operations

variable {m : Machine} {va vb pa i : ℕ}

/-- A page table exists: its word is written. -/
theorem pageTableAdd_present (h : SelfMap m.phys m.cr3) (hva : pdeIdx va < 1024)
    (hp : present (m.pde va) = true) (hun : present (le32 m.phys (m.pteAddr va)) = false) :
    Returns (pageTableAdd va pa) m () (m.store (m.pteAddr va) (entry pa)) := by
  refine returns_bind.mpr ⟨_, m, readWord_returns (walk_pdePtr h hva), ?_⟩
  refine returns_ite.mpr (.inl ⟨hp, ?_⟩)
  refine returns_bind.mpr ⟨_, m, readWord_returns (walk_ptePtr h hva hp), ?_⟩
  exact returns_check_bind.mpr ⟨hun, writeWord_returns (walk_ptePtr h hva hp)⟩

/-- Where a page table exists, `page_table_add` only returns for a page that is not mapped. -/
theorem pageTableAdd_unmapped {m' : Machine} {u : PUnit} (h : SelfMap m.phys m.cr3)
    (hva : pdeIdx va < 1024) (hp : present (m.pde va) = true)
    (hret : Returns (pageTableAdd va pa) m u m') :
    present (le32 m.phys (m.pteAddr va)) = false := by
  obtain ⟨pde, t, h1, hret⟩ := returns_bind.mp hret
  obtain ⟨rfl, rfl⟩ := h1.unique (readWord_returns (walk_pdePtr h hva))
  rcases returns_ite.mp hret with ⟨-, hret⟩ | ⟨hno, -⟩
  · obtain ⟨pte, t, h2, hret⟩ := returns_bind.mp hret
    obtain ⟨rfl, rfl⟩ := h2.unique (readWord_returns (walk_ptePtr h hva hp))
    exact (returns_check_bind.mp hret).1
  · exact absurd hp hno

/-- What it leaves then. -/
theorem pageTableAdd_inv {m' : Machine} {u : PUnit} (h : SelfMap m.phys m.cr3)
    (hva : pdeIdx va < 1024) (hp : present (m.pde va) = true)
    (hret : Returns (pageTableAdd va pa) m u m') : m' = m.store (m.pteAddr va) (entry pa) :=
  (hret.unique (pageTableAdd_present h hva hp (pageTableAdd_unmapped h hva hp hret))).2

/-- Writing the word of `va` moves only what shares it. -/
theorem movesOnly_store {w : ℕ} (hd : m.cr3 % 4096 = 0) (hmod : m.pteAddr va % 4 = 0)
    (hpte : (m.store (m.pteAddr va) w).pteAddr va = m.pteAddr va) :
    m.MovesOnly (m.store (m.pteAddr va) w) va := by
  intro vb _ hno
  refine (walk_congr (f := (m.store (m.pteAddr va) w).phys) fun a ha ↦ ?_).1.symm
  have hne : a ≠ m.pteAddr va := by
    rintro rfl
    exact hno (.inl (by rwa [hpte]))
  exact (le32_setWord_of_ne hmod (reads_mod (m := m.store (m.pteAddr va) w) hd ha) hne).symm

theorem pteAddr_mod (m : Machine) (va : ℕ) : m.pteAddr va % 4 = 0 := by
  have hf := frame_mod (le32 m.phys (pdeAddr m.cr3 va))
  rw [Machine.pteAddr, pteAddr]
  omega

theorem pdeAddr_mod (hd : m.cr3 % 4096 = 0) : pdeAddr m.cr3 va % 4 = 0 := by
  rw [pdeAddr]
  omega

/-- The word of `va` now holds the entry of a frame. -/
theorem walk_store_entry (hd : m.cr3 % 4096 = 0) (hp : present (m.pde va) = true)
    (hne : pdeAddr m.cr3 va ≠ m.pteAddr va) (hpa : pa % 4096 = 0) (hlt : pa < 2 ^ 32)
    (hva : va % 4096 = 0) {o : ℕ} (ho : o < 4096) :
    (m.store (m.pteAddr va) (entry pa)).pteAddr va = m.pteAddr va ∧
      (m.store (m.pteAddr va) (entry pa)).walk (va + o) = some (pa + o) := by
  have hpde : le32 (setWord m.phys (m.pteAddr va) (entry pa)) (pdeAddr m.cr3 va) = m.pde va :=
    le32_setWord_of_ne (pteAddr_mod m va) (pdeAddr_mod hd) hne
  have hpte : (m.store (m.pteAddr va) (entry pa)).pteAddr va = m.pteAddr va := by
    rw [Machine.pteAddr, Machine.store_phys, Machine.store_cr3, pteAddr, hpde]
    rfl
  have hword : le32 (setWord m.phys (m.pteAddr va) (entry pa)) (m.pteAddr va) = entry pa :=
    le32_setWord (entry_lt hpa hlt)
  refine ⟨hpte, ?_⟩
  have hwalk : (m.store (m.pteAddr va) (entry pa)).walk va = some pa := by
    rw [Machine.walk, walk_of_present]
    · change some (frame (le32 _ ((m.store _ _).pteAddr va)) + _) = _
      rw [hpte, Machine.store_phys, hword, frame_entry hpa, hva, Nat.add_zero]
    · rw [Machine.store_phys, Machine.store_cr3, hpde]
      exact hp
    · change present (le32 _ ((m.store _ _).pteAddr va)) = true
      rw [hpte, Machine.store_phys, hword, present_entry hpa]
  rw [Machine.walk, walk_add hva ho]
  exact congrArg (Option.map (· + o)) hwalk

/-! ### A new page table -/

/-- The machine with frame `i` of the kernel pool taken, entered into the directory as the page
table of `va`, and cleared. -/
def Machine.newTable (m : Machine) (va i : ℕ) : Machine :=
  { m with
    kernelPool := { m.kernelPool with poolBitmap := m.kernelPool.poolBitmap.set i true }
    phys := splice (setWord m.phys (pdeAddr m.cr3 va) (entry (m.kernelPool.frameAddr i)))
      (m.kernelPool.frameAddr i) 4096 fun _ ↦ 0 }

/-- The machine with frame `q` entered into the directory as the page table of `va`, and cleared. -/
def Machine.tableAt (m : Machine) (va q : ℕ) : Machine :=
  { m with phys := splice (setWord m.phys (pdeAddr m.cr3 va) (entry q)) q 4096 fun _ ↦ 0 }

/-- A frame that is not the directory. -/
structure Machine.Usable (m : Machine) (q : ℕ) : Prop where
  aligned : q % 4096 = 0
  fits : q < 2 ^ 32
  not_dir : q ≠ m.cr3

/-- What is known of a frame that becomes a page table. -/
structure Machine.Fresh (m : Machine) (q : ℕ) : Prop where
  aligned : q % 4096 = 0
  fits : q < 2 ^ 32
  not_dir : q ≠ m.cr3
  not_table : ∀ j < 1024, present (le32 m.phys (m.cr3 + 4 * j)) = true →
    frame (le32 m.phys (m.cr3 + 4 * j)) ≠ q

theorem Machine.PagingOk.fresh (h : m.PagingOk) (hi : m.kernelPool.poolBitmap.scan 1 = some i) :
    m.Fresh (m.kernelPool.frameAddr i) := by
  obtain ⟨hlen, hfree, -⟩ := Bitmap.scan_one_eq_some.mp hi
  have hs := h.pool.start
  have hf := h.pool.fits
  obtain ⟨h1, h2⟩ := h.unused i hlen hfree
  refine ⟨?_, ?_, h1, h2⟩ <;> rw [Pool.frameAddr, pgSize] <;> omega

/-- `palloc` on a pool with a free frame. -/
theorem returns_palloc (pf : PoolFlags) (hi : (m.pool pf).poolBitmap.scan 1 = some i) :
    Returns (palloc pf) m (some ((m.pool pf).frameAddr i))
      (m.setPoolBitmap ((m.pool pf).poolBitmap.set i true) pf) := by
  rw [palloc, returns_get_bind, hi]
  exact returns_bind.mpr ⟨(), _, returns_modify.mpr rfl, returns_pure.mpr ⟨rfl, rfl⟩⟩

/-- `palloc` on a pool without a free frame. -/
theorem returns_palloc_none (pf : PoolFlags) (hi : (m.pool pf).poolBitmap.scan 1 = none) :
    Returns (palloc pf) m none m := by
  rw [palloc, returns_get_bind, hi]
  exact returns_pure.mpr ⟨rfl, rfl⟩

/-- A directory entry other than the last may be written. -/
theorem selfMap_store (h : SelfMap m.phys m.cr3) (hva : pdeIdx va < 1023) {w : ℕ} :
    SelfMap (m.store (pdeAddr m.cr3 va) w).phys m.cr3 := by
  have hd := h.aligned
  have hlast : le32 (m.store (pdeAddr m.cr3 va) w).phys (m.cr3 + 4 * 1023) =
      le32 m.phys (m.cr3 + 4 * 1023) :=
    le32_setWord_of_ne (pdeAddr_mod hd) (by omega) (by rw [pdeAddr]; omega)
  exact ⟨by rw [hlast]; exact h.present, by rw [hlast]; exact h.frame⟩

/-- Clearing the page table of `va` through the page that shows it. -/
theorem memset_table {c : Machine} {q : ℕ} (va : ℕ) (h : SelfMap c.phys c.cr3)
    (hva : pdeIdx va < 1024) (hq : q % 4096 = 0) (hne : q ≠ c.cr3) (hp : present (c.pde va) = true)
    (hf : frame (c.pde va) = q) :
    Returns (memset (ptePtr va / 4096 * 4096) 0 pgSize) c ()
      { c with phys := splice c.phys q 4096 fun _ ↦ 0 } := by
  have hd := h.aligned
  have hpage : ptePtr va / 4096 * 4096 = 0xffc00000 + 4096 * pdeIdx va := by
    have hlt := pteIdx_lt va
    rw [ptePtr, ← pdeIdx]
    omega
  have hwalk : c.walk (0xffc00000 + 4096 * pdeIdx va) = some q := by
    have hw := h.walk_table (i := pdeIdx va) (o := 0) hva (by decide)
    change Paging.walk _ _ (0xffc00000 + 4096 * pdeIdx va + 0) =
      if present (c.pde va) = true then some (frame (c.pde va) + 0) else none at hw
    rw [if_pos hp, hf] at hw
    exact hw
  -- that page is translated by two words of the directory
  have hpde : pdeAddr c.cr3 (0xffc00000 + 4096 * pdeIdx va) = c.cr3 + 4 * 1023 := by
    rw [pdeAddr, pdeIdx]
    omega
  have hpte : c.pteAddr (0xffc00000 + 4096 * pdeIdx va) = c.cr3 + 4 * pdeIdx va := by
    rw [Machine.pteAddr, pteAddr, hpde, h.frame, pteIdx]
    omega
  have hfill := fill_returns 0 (k := 0) (n := 4096) (by omega) (by decide) hwalk (by
    rintro a (rfl | ⟨-, ha⟩)
    · rw [hpde]
      omega
    · rw [show a = c.cr3 + 4 * pdeIdx va from ha.trans hpte]
      omega)
  rw [hpage]
  exact returns_check_bind.mpr ⟨by omega, hfill⟩

section TableAt

variable {q : ℕ} (h : SelfMap m.phys m.cr3) (hq : m.Usable q) (hva : pdeIdx va < 1023)
include h hq

/-- The words of the directory other than the one for `va` are as they were. -/
theorem tableAt_dir {j : ℕ} (hj : j < 1024) (hne : j ≠ pdeIdx va) :
    le32 (m.tableAt va q).phys (m.cr3 + 4 * j) = le32 m.phys (m.cr3 + 4 * j) := by
  have hd := h.aligned
  have ha := hq.aligned
  have hn := hq.not_dir
  rw [Machine.tableAt, le32_splice_of_disjoint (by omega), pdeAddr]
  exact le32_setWord_of_ne (by omega) (by omega) (by omega)

include hva

/-- The word for `va` points to the new table. -/
theorem tableAt_pde : le32 (m.tableAt va q).phys (pdeAddr m.cr3 va) = entry q := by
  have hd := h.aligned
  have ha := hq.aligned
  have hn := hq.not_dir
  rw [Machine.tableAt, le32_splice_of_disjoint (by rw [pdeAddr]; omega)]
  exact le32_setWord (entry_lt ha hq.fits)

omit h hq hva in
/-- The new table is empty. -/
theorem tableAt_table {k : ℕ} (hk : k < 1024) : le32 (m.tableAt va q).phys (q + 4 * k) = 0 := by
  rw [Machine.tableAt, le32_splice_of_mem (by omega) (by omega)]
  rfl

theorem tableAt_selfMap : SelfMap (m.tableAt va q).phys m.cr3 := by
  have hlast := @tableAt_dir _ va _ h hq 1023 (by decide) (by omega)
  exact ⟨by rw [hlast]; exact h.present, by rw [hlast]; exact h.frame⟩

theorem tableAt_pteAddr (vb : ℕ) (hvb : pdeIdx vb = pdeIdx va) :
    (m.tableAt va q).pteAddr vb = q + 4 * pteIdx vb := by
  have hpde : pdeAddr m.cr3 vb = pdeAddr m.cr3 va := by rw [pdeAddr, pdeAddr, hvb]
  change frame (le32 (m.tableAt va q).phys (pdeAddr m.cr3 vb)) + _ = _
  rw [hpde, tableAt_pde h hq hva, frame_entry hq.aligned]

/-- A page table is needed: what `palloc` returns becomes one, and that is the frame of address 0
if the pool is empty. -/
theorem pageTableAdd_tableAt {b : Machine} {r : Option ℕ} (hr : Returns (palloc .kernel) m r b)
    (hrq : r.getD 0 = q) (hphys : b.phys = m.phys) (hcr3 : b.cr3 = m.cr3)
    (hun : present (m.pde va) = false) :
    Returns (pageTableAdd va pa) m () ((b.tableAt va q).store (q + 4 * pteIdx va) (entry pa)) := by
  have ha := hq.aligned
  have hbself : SelfMap b.phys b.cr3 := by rwa [hphys, hcr3]
  have hbq : b.Usable q := ⟨ha, hq.fits, hcr3 ▸ hq.not_dir⟩
  set c := b.store (pdeAddr b.cr3 va) (entry q) with hc
  have hcpde : c.pde va = entry q := le32_setWord (entry_lt ha hq.fits)
  have hclear := memset_table (c := c) va (selfMap_store hbself hva) (by omega) ha hbq.not_dir
    (by rw [hcpde, present_entry ha]) (by rw [hcpde, frame_entry ha])
  have hnpde : present ((b.tableAt va q).pde va) = true := by
    change present (le32 (b.tableAt va q).phys (pdeAddr b.cr3 va)) = true
    rw [tableAt_pde hbself hbq hva, present_entry ha]
  have hpte := walk_ptePtr (m := b.tableAt va q) (tableAt_selfMap hbself hbq hva)
    (by omega : pdeIdx va < 1024) hnpde
  rw [tableAt_pteAddr hbself hbq hva va rfl] at hpte
  have hno : ¬present (le32 m.phys (pdeAddr m.cr3 va)) = true := by
    change ¬present (m.pde va) = true
    rw [hun]
    decide
  refine returns_bind.mpr ⟨_, m, readWord_returns (walk_pdePtr h (by omega)), ?_⟩
  refine returns_ite.mpr (.inr ⟨hno, ?_⟩)
  refine returns_bind.mpr ⟨r, b, hr, ?_⟩
  rw [hrq]
  refine returns_bind.mpr ⟨(), c, writeWord_returns (walk_pdePtr hbself (by omega)), ?_⟩
  refine returns_bind.mpr ⟨(), b.tableAt va q, hclear, ?_⟩
  refine returns_bind.mpr ⟨_, _, readWord_returns hpte, ?_⟩
  refine returns_check_bind.mpr ⟨?_, writeWord_returns hpte⟩
  rw [tableAt_table (pteIdx_lt va)]
  rfl

end TableAt

section NewTable

variable (h : SelfMap m.phys m.cr3) (hq : m.Fresh (m.kernelPool.frameAddr i))
  (hva : pdeIdx va < 1023)
include h hq hva

omit h hva in
theorem fresh_usable : m.Usable (m.kernelPool.frameAddr i) := ⟨hq.aligned, hq.fits, hq.not_dir⟩

omit hva in
theorem newTable_dir {j : ℕ} (hj : j < 1024) (hne : j ≠ pdeIdx va) :
    le32 (m.newTable va i).phys (m.cr3 + 4 * j) = le32 m.phys (m.cr3 + 4 * j) :=
  tableAt_dir h (fresh_usable hq) hj hne

theorem newTable_pde : le32 (m.newTable va i).phys (pdeAddr m.cr3 va) =
    entry (m.kernelPool.frameAddr i) := tableAt_pde h (fresh_usable hq) hva

omit h hq hva in
theorem newTable_table {k : ℕ} (hk : k < 1024) :
    le32 (m.newTable va i).phys (m.kernelPool.frameAddr i + 4 * k) = 0 := tableAt_table hk

theorem newTable_pteAddr (vb : ℕ) (hvb : pdeIdx vb = pdeIdx va) :
    (m.newTable va i).pteAddr vb = m.kernelPool.frameAddr i + 4 * pteIdx vb :=
  tableAt_pteAddr h (fresh_usable hq) hva vb hvb

/-- Nothing is translated differently yet, except through a directory word that is used as a
page-table word. -/
theorem newTable_walk {vb : ℕ} (hun : present (m.pde va) = false) (hvb : pdeIdx vb < 1023)
    (hno : ¬(present ((m.newTable va i).pde vb) = true ∧
      (m.newTable va i).pteAddr vb = pdeAddr m.cr3 va)) :
    (m.newTable va i).walk vb = m.walk vb := by
  have hd := h.aligned
  have ha := hq.aligned
  have hk := pteIdx_lt vb
  by_cases hidx : pdeIdx vb = pdeIdx va
  · -- the table of `va` is new, and there was none before
    have hpde : pdeAddr m.cr3 vb = pdeAddr m.cr3 va := by rw [pdeAddr, pdeAddr, hidx]
    have hold : m.walk vb = none := walk_of_pde (by rw [hpde]; exact hun)
    rw [hold]
    refine walk_of_pte ?_ ?_
    · change present (le32 _ (pdeAddr m.cr3 vb)) = true
      rw [hpde, newTable_pde h hq hva, present_entry ha]
    · change present (le32 _ ((m.newTable va i).pteAddr vb)) = false
      rw [newTable_pteAddr h hq hva vb hidx, newTable_table hk]
      rfl
  · have hpde : le32 (m.newTable va i).phys (pdeAddr m.cr3 vb) = m.pde vb :=
      newTable_dir h hq (by omega) hidx
    cases hp : present (m.pde vb) with
    | false => rw [Machine.walk, Machine.walk, walk_of_pde hp, walk_of_pde (hpde ▸ hp)]
    | true =>
      have hpte : (m.newTable va i).pteAddr vb = m.pteAddr vb := by
        change frame (le32 (m.newTable va i).phys (pdeAddr m.cr3 vb)) + _ = _
        rw [hpde]
        rfl
      have hne : m.pteAddr vb ≠ pdeAddr m.cr3 va := by
        intro heq
        refine hno ⟨?_, hpte.trans heq⟩
        change present (le32 (m.newTable va i).phys (pdeAddr m.cr3 vb)) = true
        rw [hpde, hp]
      have htable := hq.not_table (pdeIdx vb) (by omega) hp
      have hword : le32 (m.newTable va i).phys (m.pteAddr vb) = le32 m.phys (m.pteAddr vb) := by
        have hf := frame_mod (le32 m.phys (pdeAddr m.cr3 vb))
        have hpa : m.pteAddr vb = frame (le32 m.phys (pdeAddr m.cr3 vb)) + 4 * pteIdx vb := rfl
        rw [pdeAddr] at hf hpa
        rw [Machine.newTable, le32_splice_of_disjoint (by omega)]
        exact le32_setWord_of_ne (pdeAddr_mod hd) (pteAddr_mod m vb) hne
      refine (walk_congr fun a hra ↦ ?_).1
      rcases hra with rfl | ⟨-, rfl⟩
      · exact hpde
      · exact hword

/-- A page table is needed: a frame of the pool becomes one. -/
theorem pageTableAdd_absent (hi : m.kernelPool.poolBitmap.scan 1 = some i)
    (hun : present (m.pde va) = false) :
    Returns (pageTableAdd va pa) m ()
      ((m.newTable va i).store ((m.newTable va i).pteAddr va) (entry pa)) := by
  rw [newTable_pteAddr h hq hva va rfl]
  exact pageTableAdd_tableAt h (fresh_usable hq) hva (returns_palloc .kernel hi) rfl rfl rfl hun

end NewTable

/-- `page_table_add`. -/
theorem pageTableAdd_maps (h : m.PagingOk) (hva : va % 4096 = 0) (hidx : pdeIdx va < 1023)
    (hun : m.walk va = none) (hpa : pa % 4096 = 0) (hlt : pa < 2 ^ 32)
    (hfree : present (m.pde va) = false → ∃ i < 8 * m.kernelPool.poolBitmap.btmpBytesLen,
      m.kernelPool.poolBitmap.bit i = false) :
    ∃ m', Returns (pageTableAdd va pa) m () m' ∧ (∀ o < 4096, m'.walk (va + o) = some (pa + o)) ∧
      m.MovesOnly m' va := by
  have hd := h.selfMap.aligned
  cases hp : present (m.pde va) with
  | true =>
    have hpte : present (le32 m.phys (m.pteAddr va)) = false := walk_eq_none.mp hun hp
    have hne : pdeAddr m.cr3 va ≠ m.pteAddr va := by
      intro heq
      rw [← heq] at hpte
      exact absurd (hp.symm.trans hpte) (by decide)
    have hwalk := fun {o} (ho : o < 4096) ↦ walk_store_entry hd hp hne hpa hlt hva ho
    refine ⟨_, pageTableAdd_present h.selfMap (by omega) hp hpte, fun o ho ↦ (hwalk ho).2, ?_⟩
    exact movesOnly_store hd (pteAddr_mod m va) (hwalk (o := 0) (by decide)).1
  | false =>
    obtain ⟨i, hi⟩ : ∃ i, m.kernelPool.poolBitmap.scan 1 = some i := by
      obtain ⟨i, hlen, hbit⟩ := hfree hp
      by_contra hnone
      have hall := Bitmap.scan_one_eq_none.mp (Option.eq_none_iff_forall_ne_some.mpr
        fun k hk ↦ hnone ⟨k, hk⟩) i hlen
      rw [hbit] at hall
      cases hall
    have hq := h.fresh hi
    have ha := hq.aligned
    have hn := hq.not_dir
    have hdn : (m.newTable va i).cr3 % 4096 = 0 := hd
    have hpn : present ((m.newTable va i).pde va) = true := by
      change present (le32 (m.newTable va i).phys (pdeAddr m.cr3 va)) = true
      rw [newTable_pde h.selfMap hq hidx, present_entry ha]
    have hk := pteIdx_lt va
    have hpte := newTable_pteAddr h.selfMap hq hidx va rfl
    -- the word written stands in the new table, so it is no directory word
    have hdir : ∀ vb, pdeIdx vb < 1023 → pdeAddr m.cr3 vb ≠ (m.newTable va i).pteAddr va := by
      intro vb hvb
      rw [hpte, pdeAddr]
      omega
    have hwalk := fun {o} (ho : o < 4096) ↦
      walk_store_entry hdn hpn (hdir va hidx) hpa hlt hva ho
    refine ⟨_, pageTableAdd_absent h.selfMap hq hidx hi hp, fun o ho ↦ (hwalk ho).2, ?_⟩
    intro vb hvb hno
    have hmoves := movesOnly_store hdn (pteAddr_mod _ va) (hwalk (o := 0) (by decide)).1 vb hvb hno
    rw [hmoves]
    refine newTable_walk h.selfMap hq hidx hp hvb ?_
    rintro ⟨hp', hpte'⟩
    refine hno (.inr ?_)
    have hpde : ((m.newTable va i).store ((m.newTable va i).pteAddr va) (entry pa)).pde vb =
        (m.newTable va i).pde vb :=
      le32_setWord_of_ne (pteAddr_mod _ va) (pdeAddr_mod hd) (hdir vb hvb)
    refine ⟨by rw [hpde, hp'], ?_⟩
    change frame (((m.newTable va i).store _ _).pde vb) + _ = _
    rw [hpde]
    exact hpte'

/-- `page_table_pte_remove` clears the lowest bit of the word of `va`. -/
theorem pageTablePteRemove_returns (h : SelfMap m.phys m.cr3) (hidx : pdeIdx va < 1024)
    (hp : present (m.pde va) = true) :
    Returns (pageTablePteRemove va) m () (m.store (m.pteAddr va)
      (le32 m.phys (m.pteAddr va) - le32 m.phys (m.pteAddr va) % 2)) :=
  returns_bind.mpr ⟨_, m, readWord_returns (walk_ptePtr h hidx hp),
    writeWord_returns (walk_ptePtr h hidx hp)⟩

/-- With the lowest bit of its word cleared, an address is not translated. -/
theorem walk_store_cleared (hd : m.cr3 % 4096 = 0) {w : ℕ} (hw : w = le32 m.phys (m.pteAddr va)) :
    (m.store (m.pteAddr va) (w - w % 2)).pteAddr va = m.pteAddr va ∧
      (m.store (m.pteAddr va) (w - w % 2)).walk va = none := by
  have hlt : w - w % 2 < 2 ^ 32 := lt_of_le_of_lt (Nat.sub_le ..) (hw ▸ le32_lt ..)
  have hword : le32 (m.store (m.pteAddr va) (w - w % 2)).phys (m.pteAddr va) = w - w % 2 :=
    le32_setWord hlt
  have hodd : present (w - w % 2) = false := by
    rw [present, decide_eq_false_iff_not]
    omega
  have hframe : frame (w - w % 2) = frame w := by
    rw [frame, frame]
    omega
  -- the directory word may be the one that is written
  have hpdeFrame : frame ((m.store (m.pteAddr va) (w - w % 2)).pde va) = frame (m.pde va) := by
    by_cases heq : pdeAddr m.cr3 va = m.pteAddr va
    · change frame (le32 (m.store _ _).phys (pdeAddr m.cr3 va)) =
        frame (le32 m.phys (pdeAddr m.cr3 va))
      rw [heq, hword, hframe, hw]
    · exact congrArg frame (le32_setWord_of_ne (pteAddr_mod m va) (pdeAddr_mod hd) heq)
  have hpte : (m.store (m.pteAddr va) (w - w % 2)).pteAddr va = m.pteAddr va := by
    change frame ((m.store (m.pteAddr va) (w - w % 2)).pde va) + _ = frame (m.pde va) + _
    rw [hpdeFrame]
  refine ⟨hpte, walk_eq_none.mpr fun _ ↦ ?_⟩
  change present (le32 _ ((m.store _ _).pteAddr va)) = false
  rw [hpte, hword, hodd]

/-- `page_table_pte_remove`. -/
theorem pageTablePteRemove_unmaps (h : SelfMap m.phys m.cr3) (hva : va % 4096 = 0)
    (hidx : pdeIdx va < 1024) (hp : present (m.pde va) = true) :
    ∃ m', Returns (pageTablePteRemove va) m () m' ∧ (∀ o < 4096, m'.walk (va + o) = none) ∧
      m.MovesOnly m' va := by
  obtain ⟨hpte, hwalk⟩ := walk_store_cleared (m := m) h.aligned (Eq.refl (le32 m.phys (m.pteAddr va)))
  refine ⟨_, pageTablePteRemove_returns h hidx hp, fun o ho ↦ ?_,
    movesOnly_store h.aligned (pteAddr_mod m va) hpte⟩
  rw [Machine.walk, walk_add hva ho]
  exact congrArg (Option.map (· + o)) hwalk

/-- `addr_v2p`. -/
theorem addrV2p_walk (h : SelfMap m.phys m.cr3) (hidx : pdeIdx va < 1024)
    (hw : m.walk va = some pa) : Returns (addrV2p va) m pa m := by
  obtain ⟨hp, -, rfl⟩ := walk_eq_some.mp hw
  exact returns_bind.mpr
    ⟨_, m, readWord_returns (walk_ptePtr h hidx hp), returns_pure.mpr ⟨rfl, rfl⟩⟩

end Operations

/-! ### A machine with an empty address space -/

/-- Only the self-map is present, and the kernel pool has eight free frames. -/
def Machine.bare : Machine where
  phys := setWord (fun _ ↦ 0) (0x100000 + 4 * 1023) (entry 0x100000)
  cr3 := 0x100000
  kernelPool := ⟨⟨1, fun _ ↦ 0⟩, 0x200000, 0x8000⟩
  userPool := ⟨⟨1, fun _ ↦ 0⟩, 0x208000, 0x8000⟩
  kernelVaddr := ⟨⟨1, fun _ ↦ 0⟩, 0xc0100000⟩
  pgdir := none
  userprogVaddr := ⟨⟨0, fun _ ↦ 0⟩, 0⟩

theorem bare_dir {j : ℕ} (hj : j < 1023) : le32 Machine.bare.phys (0x100000 + 4 * j) = 0 :=
  le32_setWord_of_ne (by decide) (by omega) (by omega)

theorem bare_last : le32 Machine.bare.phys (0x100000 + 4 * 1023) = entry 0x100000 :=
  le32_setWord (by decide)

theorem bare_pagingOk : Machine.bare.PagingOk where
  selfMap := by
    have hlast : le32 Machine.bare.phys (Machine.bare.cr3 + 4 * 1023) = entry 0x100000 := bare_last
    exact ⟨by rw [hlast]; decide, by rw [hlast]; decide⟩
  pool := ⟨by decide, by decide⟩
  unused i hi _ := by
    have hframe : Machine.bare.kernelPool.frameAddr i = i * 4096 + 0x200000 := rfl
    refine ⟨by rw [hframe]; change _ ≠ 0x100000; omega, fun j hj hp ↦ ?_⟩
    rcases Nat.lt_or_ge j 1023 with hlt | hge
    · change present (le32 Machine.bare.phys (0x100000 + 4 * j)) = true at hp
      rw [bare_dir hlt] at hp
      cases hp
    · obtain rfl : j = 1023 := by omega
      change frame (le32 Machine.bare.phys (0x100000 + 4 * 1023)) ≠ _
      rw [bare_last, frame_entry (by decide), hframe]
      omega

end GlowOS
