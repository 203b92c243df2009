import Mathlib
import GlowOS.Kernel.CachedPages
import GlowOS.Kernel.PoolLocks
import GlowOS.Lib.AddressSpace

/-!
# Mapping a given page

`get_a_page` for a page of a process. Its page tables and pages are described by two functions, and
what `page_table_add` does is an update of these: the page is entered into its table, which is
entered into the directory first if there is none.

Two things keep the call from doing its work. The bit of the first page of the bitmap has the number
0, which the assertion rejects. And where a page table is needed and the kernel pool is empty, the
table is put in frame 0, which is a table already if this has happened before.
-/

namespace GlowOS

open Bytes Paging Program

/-! ## Processes -/

/-- A process runs, with the page tables `table` and the pages `map`. Frames that are free are in no
use, and the virtual bitmap covers `[USER_VADDR_START, 0xc0000000)`. -/
structure Machine.ProcessReady (m : Machine) (table map : ℕ → Option ℕ) : Prop where
  selfMap : SelfMap m.phys m.cr3
  dir_ne : m.cr3 ≠ 0
  space : Space m.phys m.cr3 1023 table map
  apart : Space.Apart m.cr3 table
  top : ∀ j, table j ≠ none → j < 1023
  kernelPool : m.kernelPool.Aligned
  userPool : m.userPool.Aligned
  unused : ∀ i < 8 * m.kernelPool.poolBitmap.btmpBytesLen, m.kernelPool.poolBitmap.bit i = false →
    m.kernelPool.frameAddr i ≠ m.cr3
  unmapped : ∀ i < 8 * m.userPool.poolBitmap.btmpBytesLen, m.userPool.poolBitmap.bit i = false →
    ∀ p, map p ≠ some (m.userPool.frameAddr i)
  process : m.pgdir.isSome = true
  start : m.userprogVaddr.vaddrStart = 0x8048000
  len : m.userprogVaddr.vaddrBitmap.btmpBytesLen = (0xc0000000 - 0x8048000) / 4096 / 8

/-- The lock of the pool can be taken and given back. -/
def HeapSys.Available (s : HeapSys Machine) (pf : PoolFlags) : Prop :=
  s.lock pf = ⟨none, 0⟩ ∨ ∃ n, s.lock pf = ⟨some s.running, n⟩ ∧ 0 < n ∧ n + 1 < 2 ^ 32

/-- Page `va` is mapped to a frame that was free, its bit is set, and nothing else about the mapping
below the self-map, the virtual bitmap and the pool has changed. -/
structure PageGot (m m' : Machine) (va : ℕ) : Prop where
  bits : ∀ j, m'.userprogVaddr.vaddrBitmap.bit j =
    if j = (va - 0x8048000) / 4096 then true else m.userprogVaddr.vaddrBitmap.bit j
  frame : ∃ i < 8 * m.userPool.poolBitmap.btmpBytesLen, m.userPool.poolBitmap.bit i = false ∧
    (∀ o < 4096, m'.walk (va + o) = some (m.userPool.frameAddr i + o)) ∧
    ∀ j, m'.userPool.poolBitmap.bit j = if j = i then true else m.userPool.poolBitmap.bit j
  others : ∀ vb, pdeIdx vb < 1023 → vb / 4096 ≠ va / 4096 → m'.walk vb = m.walk vb

/-- `get_a_page` does what it is for. -/
def GetsPage (s : HeapSys Machine) (va : ℕ) : Prop :=
  ∃ s', Returns (getAPage .user va) s (some va) s' ∧ PageGot s.mem s'.mem va

/-! ## A page is entered -/

section Adding

variable {m m' : Machine} {table table' map : ℕ → Option ℕ} {va pa t i : ℕ}

theorem page_eq (va : ℕ) : 1024 * pdeIdx va + pteIdx va = va / 4096 := by
  rw [pdeIdx, pteIdx]
  omega

/-- What is left alone by `page_table_add`, and what it does to the translation. -/
structure Entered (m m' : Machine) (va pa : ℕ) : Prop where
  userPool : m'.userPool = m.userPool
  vaddr : m'.userprogVaddr = m.userprogVaddr
  here : ∀ o < 4096, m'.walk (va + o) = some (pa + o)
  others : ∀ vb, pdeIdx vb < 1023 → vb / 4096 ≠ va / 4096 → m'.walk vb = m.walk vb

/-- A page that is new in the description. -/
theorem entered_of_space (hs : Space m.phys m.cr3 1023 table map)
    (hs' : Space m'.phys m'.cr3 1023 table' (Function.update map (va / 4096) (some pa)))
    (huser : m'.userPool = m.userPool) (hvaddr : m'.userprogVaddr = m.userprogVaddr)
    (hva : va % 4096 = 0) (hidx : pdeIdx va < 1023) : Entered m m' va pa where
  userPool := huser
  vaddr := hvaddr
  here o ho := by
    have hpage : (va + o) / 4096 = va / 4096 := by omega
    have hoff : (va + o) % 4096 = o := by omega
    rw [Machine.walk, hs'.walk (by rwa [pdeIdx_add hva ho]), hpage, Function.update_self,
      Option.map_some, hoff]
  others vb hvb hne := by
    rw [Machine.walk, Machine.walk, hs'.walk hvb, hs.walk hvb, Function.update_of_ne hne]

theorem points_entry (hpa : pa % 4096 = 0) : Points (entry pa) (some pa) :=
  ⟨present_entry hpa, frame_entry hpa⟩

/-- The page table exists. -/
theorem pageTableAdd_enters (hself : SelfMap m.phys m.cr3)
    (hs : Space m.phys m.cr3 1023 table map) (ha : Space.Apart m.cr3 table)
    (hidx : pdeIdx va < 1023) (ht : table (pdeIdx va) = some t) (hmap : map (va / 4096) = none) (hva : va % 4096 = 0)
    (hpa : pa % 4096 = 0) (hlt : pa < 2 ^ 32) :
    ∃ m', Returns (pageTableAdd va pa) m () m' ∧ Entered m m' va pa := by
  have hdir := hs.dir _ hidx
  rw [ht] at hdir
  have hpte : m.pteAddr va = t + 4 * pteIdx va := by
    rw [Machine.pteAddr, pteAddr, pdeAddr, hdir.2]
  have hword := hs.page _ hidx t ht _ (pteIdx_lt va)
  rw [page_eq, hmap] at hword
  refine ⟨m.store (m.pteAddr va) (entry pa),
    pageTableAdd_present hself (by omega) hdir.1 (by rwa [hpte]), ?_⟩
  have henter := hs.enter ha (by decide) hidx (pteIdx_lt va) ht (entry_lt hpa hlt)
    (points_entry hpa)
  rw [page_eq, ← hpte] at henter
  exact entered_of_space hs henter rfl rfl hva hidx

/-- The page table is missing, and a frame that is no page table becomes one. -/
theorem pageTableAdd_extends (hself : SelfMap m.phys m.cr3)
    (hs : Space m.phys m.cr3 1023 table map) (ha : Space.Apart m.cr3 table)
    (hidx : pdeIdx va < 1023) (ht : table (pdeIdx va) = none) (hq : m.Usable m.nextTable)
    (hnew : ∀ j, table j ≠ some m.nextTable) (hva : va % 4096 = 0) (hpa : pa % 4096 = 0)
    (hlt : pa < 2 ^ 32) :
    ∃ m', Returns (pageTableAdd va pa) m () m' ∧ Entered m m' va pa := by
  have hdir := hs.dir _ hidx
  rw [ht] at hdir
  obtain ⟨r, b, hr, hrq, hphys, hcr3, huser, hvaddr, -⟩ := palloc_nextTable m
  have hret : Returns (pageTableAdd va pa) m () _ :=
    pageTableAdd_tableAt hself hq hidx hr hrq hphys hcr3 hdir
  refine ⟨_, hret, ?_⟩
  obtain ⟨hmod, hfits, hdirNe⟩ := hq
  have hbself : SelfMap b.phys b.cr3 := by rwa [hphys, hcr3]
  have hbq : b.Usable m.nextTable := ⟨hmod, hfits, by rwa [hcr3]⟩
  have hcmod := hself.aligned
  have hext : Space (b.tableAt va m.nextTable).phys m.cr3 1023
      (Function.update table (pdeIdx va) (some m.nextTable)) map := by
    refine hs.extend hidx ht ?_ (fun k hk ↦ ?_) (fun j hj hjv ↦ ?_) fun j hj u hu k hk ↦ ?_
    · have hpde := tableAt_pde hbself hbq hidx
      rw [hcr3, pdeAddr] at hpde
      rw [hpde]
      exact points_entry hmod
    · rw [tableAt_table hk]
      rfl
    · have hword := tableAt_dir hbself hbq (j := j) (by omega) hjv
      rwa [hcr3, hphys] at hword
    · have humod := ha.aligned j u hu
      have hucr3 := ha.ne_dir j u hu
      have huq : u ≠ m.nextTable := fun heq ↦ hnew j (heq ▸ hu)
      rw [Machine.tableAt, hcr3, hphys, pdeAddr, le32_splice_of_disjoint (by omega)]
      exact le32_setWord_of_ne (by omega) (by omega) (by omega)
  have henter := hext.enter (ha.extend hmod hdirNe hnew) (by decide) hidx (pteIdx_lt va)
    (Function.update_self ..) (entry_lt hpa hlt) (points_entry hpa)
  rw [page_eq, ← hcr3] at henter
  exact entered_of_space hs henter huser hvaddr hva hidx

/-- The page table is missing, and the frame that is taken for it is the table of another entry. The
page is then mapped below that entry as well. -/
theorem pageTableAdd_overwrites {j : ℕ} (hself : SelfMap m.phys m.cr3)
    (hs : Space m.phys m.cr3 1023 table map) (ha : Space.Apart m.cr3 table)
    (hidx : pdeIdx va < 1023) (ht : table (pdeIdx va) = none) (hj : j < 1023)
    (hq : table j = some m.nextTable) (hfits : m.nextTable < 2 ^ 32) (hpa : pa % 4096 = 0)
    (hlt : pa < 2 ^ 32) :
    ∃ m', Returns (pageTableAdd va pa) m () m' ∧
      m'.walk (2 ^ 22 * j + 4096 * pteIdx va) = some pa := by
  have hdir := hs.dir _ hidx
  rw [ht] at hdir
  have hmod := ha.aligned j _ hq
  have hdirNe := ha.ne_dir j _ hq
  have hne : j ≠ pdeIdx va := by
    rintro rfl
    rw [ht] at hq
    cases hq
  obtain ⟨r, b, hr, hrq, hphys, hcr3, -⟩ := palloc_nextTable m
  have hret : Returns (pageTableAdd va pa) m () _ :=
    pageTableAdd_tableAt hself ⟨hmod, hfits, hdirNe⟩ hidx hr hrq hphys hcr3 hdir
  refine ⟨_, hret, ?_⟩
  have hbself : SelfMap b.phys b.cr3 := by rwa [hphys, hcr3]
  have hcmod := hself.aligned
  have hk := pteIdx_lt va
  set va' := 2 ^ 22 * j + 4096 * pteIdx va with hva'
  have hpde' : pdeIdx va' = j := by
    rw [pdeIdx]
    omega
  have hpte' : pteIdx va' = pteIdx va := by
    conv_lhs => rw [pteIdx]
    omega
  -- the word of the directory is as it was
  have hword : le32 ((b.tableAt va m.nextTable).store (m.nextTable + 4 * pteIdx va)
      (entry pa)).phys (pdeAddr b.cr3 va') = le32 m.phys (m.cr3 + 4 * j) := by
    rw [pdeAddr, hpde', Machine.store_phys, le32_setWord_of_ne (by omega) (by omega) (by omega),
      tableAt_dir hbself ⟨hmod, hfits, by rwa [hcr3]⟩ (by omega) hne, hphys, hcr3]
  have hpoints := hs.dir j hj
  rw [hq, ← hword] at hpoints
  have haddr : pteAddr ((b.tableAt va m.nextTable).store (m.nextTable + 4 * pteIdx va)
      (entry pa)).phys b.cr3 va' = m.nextTable + 4 * pteIdx va := by
    rw [pteAddr, hpoints.2, hpte']
  have hpte : le32 ((b.tableAt va m.nextTable).store (m.nextTable + 4 * pteIdx va)
      (entry pa)).phys (m.nextTable + 4 * pteIdx va) = entry pa :=
    le32_setWord (entry_lt hpa hlt)
  have hoff : va' % 4096 = 0 := by omega
  rw [Machine.walk]
  refine (walk_of_present hpoints.1 ?_).trans ?_
  · rw [haddr, hpte, present_entry hpa]
  · rw [haddr, hpte, frame_entry hpa, hoff, Nat.add_zero]

end Adding

/-! ## The call -/

section Call

variable {s s' : HeapSys Machine} {m₃ : Machine} {table map : ℕ → Option ℕ} {va i : ℕ}

/-- The machine in which `get_a_page` calls `page_table_add`: the bit of the page is set and frame
`i` is taken. -/
def Machine.reserved (m : Machine) (va i : ℕ) : Machine :=
  (m.setVaddrBitmap (m.userprogVaddr.vaddrBitmap.set (m.userprogVaddr.bitIdx va) true)
    .user).setPoolBitmap (m.userPool.poolBitmap.set i true) .user

theorem Machine.ProcessReady.bitIdx (h : s.mem.ProcessReady table map) (hlo : 0x8048000 ≤ va)
    (hhi : va < 0xc0000000) : s.mem.userprogVaddr.bitIdx va = (va - 0x8048000) / 4096 := by
  rw [VirtualAddr.bitIdx, h.start, pgSize]
  omega

/-- What `get_a_page` needs of the address before it calls `palloc`. -/
theorem Machine.ProcessReady.returns_reserve {m : Machine} (h : s.mem.ProcessReady table map)
    (hlo : 0x8048000 ≤ va) (hhi : va < 0xc0000000) :
    Returns (reserveAPage .user va) s.mem () m ↔ va / 4096 ≠ 0x8048 ∧
      m = s.mem.setVaddrBitmap
        (s.mem.userprogVaddr.vaddrBitmap.set (s.mem.userprogVaddr.bitIdx va) true) .user := by
  rw [returns_reserveAPage]
  refine and_congr_left fun _ ↦ ?_
  have hidx : (s.mem.vaddr .user).bitIdx va = (va - 0x8048000) / 4096 := h.bitIdx hlo hhi
  have hlen : (s.mem.vaddr .user).vaddrBitmap.btmpBytesLen = 94199 := h.len
  rw [hidx, hlen]
  constructor
  · rintro ⟨-, hpos, -⟩
    omega
  · intro hne
    exact ⟨iff_of_true rfl h.process, by omega, by omega⟩

theorem HeapSys.Available.free (h : s.Available .user) : s.Free .user := by
  rcases h with h | ⟨n, h, -⟩
  · exact .inr ⟨congrArg PoolLock.holder h, congrArg PoolLock.holderRepeatNr h⟩
  · exact .inl (congrArg PoolLock.holder h)

/-- A lock that was available is given back. -/
theorem HeapSys.Available.release {t : HeapSys Machine} (h : s.Available .user)
    (hrun : t.running = s.running) (hlock : t.lock .user = (s.lock .user).acquired s.running) :
    ∃ t', Returns (lockRelease .user) t () t' := by
  rcases h with h | ⟨n, h, hpos, hlt⟩
  · have hk : t.lock .user = ⟨some t.running, 1⟩ := by
      rw [hlock, h, hrun]
      rfl
    refine ⟨t.setLock .user ⟨none, 0⟩, ?_⟩
    rw [lockRelease, returns_get_bind, returns_check_bind, hk, if_neg (lt_irrefl 1),
      returns_check_bind]
    exact ⟨rfl, rfl, returns_modify.mpr rfl⟩
  · have hk : t.lock .user = ⟨some t.running, n + 1⟩ := by
      rw [hlock, h, hrun, PoolLock.acquired, if_pos rfl]
      exact congrArg _ (Nat.mod_eq_of_lt hlt)
    refine ⟨t.setLock .user ⟨(t.lock .user).holder, (t.lock .user).holderRepeatNr - 1⟩, ?_⟩
    rw [lockRelease, returns_get_bind, returns_check_bind, hk, if_pos (by dsimp only; omega)]
    exact ⟨rfl, returns_modify.mpr (by rw [hk])⟩

theorem mem_lockRelease {t t' : HeapSys Machine} {pf : PoolFlags} {u : PUnit}
    (h : Returns (lockRelease pf) t u t') : t'.mem = t.mem := by
  rw [lockRelease, returns_get_bind, returns_check_bind, returns_ite, returns_check_bind] at h
  obtain ⟨-, ⟨-, h⟩ | ⟨-, -, h⟩⟩ := h
  · rw [returns_modify.mp h]
    rfl
  · rw [returns_modify.mp h]
    rfl

/-- A call that returns the address has come through `page_table_add`. -/
theorem returns_getAPage_user (h : s.mem.ProcessReady table map) (hlock : s.Available .user)
    (hlo : 0x8048000 ≤ va) (hhi : va < 0xc0000000)
    (hi : s.mem.userPool.poolBitmap.scan 1 = some i) :
    (∃ s', Returns (getAPage .user va) s (some va) s' ∧ s'.mem = m₃) ↔ va / 4096 ≠ 0x8048 ∧
      Returns (pageTableAdd va (s.mem.userPool.frameAddr i)) (s.mem.reserved va i) () m₃ := by
  set s₁ := s.setLock .user ((s.lock .user).acquired s.running) with hs₁
  have hacq : Returns (lockAcquire .user) s () s₁ := returns_lockAcquire.mpr ⟨hlock.free, rfl⟩
  have hpal : Returns (palloc .user) (s.mem.setVaddrBitmap
      (s.mem.userprogVaddr.vaddrBitmap.set (s.mem.userprogVaddr.bitIdx va) true) .user)
      (some (s.mem.userPool.frameAddr i)) (s.mem.reserved va i) := returns_palloc .user hi
  constructor
  · rintro ⟨s', hret, rfl⟩
    rw [getAPage, hacq.bind_iff] at hret
    obtain ⟨_, t, hres, hret⟩ := returns_bind.mp hret
    obtain ⟨m, hm, rfl⟩ := returns_onPages.mp hres
    obtain ⟨hne, rfl⟩ := (h.returns_reserve hlo hhi).mp hm
    obtain ⟨r, t, hr, hret⟩ := returns_bind.mp hret
    obtain ⟨m, hm, rfl⟩ := returns_onPages.mp hr
    obtain ⟨rfl, rfl⟩ := hm.unique hpal
    obtain ⟨_, t, hadd, hret⟩ := returns_bind.mp hret
    obtain ⟨m, hm, rfl⟩ := returns_onPages.mp hadd
    obtain ⟨_, t, hrel, hret⟩ := returns_bind.mp hret
    obtain ⟨-, rfl⟩ := returns_pure.mp hret
    rw [mem_lockRelease hrel]
    exact ⟨hne, hm⟩
  · rintro ⟨hne, hadd⟩
    have hres := (h.returns_reserve hlo hhi).mpr ⟨hne, rfl⟩
    obtain ⟨t', hrel⟩ := hlock.release (t := { s₁ with mem := m₃ }) rfl
      (Function.update_self PoolFlags.user _ s.lock)
    refine ⟨t', ?_, mem_lockRelease hrel⟩
    rw [getAPage, hacq.bind_iff]
    refine returns_bind.mpr ⟨(), _, returns_onPages.mpr ⟨_, hres, rfl⟩, ?_⟩
    refine returns_bind.mpr ⟨_, _, returns_onPages.mpr ⟨_, hpal, rfl⟩, ?_⟩
    refine returns_bind.mpr ⟨(), _, returns_onPages.mpr ⟨m₃, hadd, rfl⟩, ?_⟩
    exact returns_bind.mpr ⟨(), t', hrel, returns_pure.mpr ⟨rfl, rfl⟩⟩

/-- What the call leaves, if the page is entered. -/
theorem pageGot_of_entered (h : s.mem.ProcessReady table map) (hlo : 0x8048000 ≤ va)
    (hhi : va < 0xc0000000) (hi : s.mem.userPool.poolBitmap.scan 1 = some i)
    (he : Entered (s.mem.reserved va i) m₃ va (s.mem.userPool.frameAddr i)) :
    PageGot s.mem m₃ va := by
  obtain ⟨hlen, hfree, -⟩ := Bitmap.scan_one_eq_some.mp hi
  refine ⟨fun j ↦ ?_, ⟨i, hlen, hfree, he.here, fun j ↦ ?_⟩, he.others⟩
  · rw [he.vaddr, ← h.bitIdx hlo hhi]
    exact Bitmap.bit_set _ _ _ _
  · rw [he.userPool]
    exact Bitmap.bit_set _ _ _ _

/-- The frame that is taken is one of memory. -/
theorem Machine.ProcessReady.frame (h : s.mem.ProcessReady table map)
    (hi : s.mem.userPool.poolBitmap.scan 1 = some i) :
    s.mem.userPool.frameAddr i % 4096 = 0 ∧ s.mem.userPool.frameAddr i < 2 ^ 32 := by
  have hlen := (Bitmap.scan_one_eq_some.mp hi).1
  have hs := h.userPool.start
  have hf := h.userPool.fits
  rw [Pool.frameAddr, pgSize]
  omega

theorem user_idx (hhi : va < 0xc0000000) : pdeIdx va < 1023 := by
  rw [pdeIdx]
  omega

/-- A frame of the kernel pool is not the directory, and neither is frame 0. -/
theorem Machine.ProcessReady.nextTable_ne (h : s.mem.ProcessReady table map) :
    s.mem.nextTable ≠ s.mem.cr3 := by
  rw [Machine.nextTable]
  cases hi : s.mem.kernelPool.poolBitmap.scan 1 with
  | none => exact h.dir_ne.symm
  | some i =>
    obtain ⟨hlen, hfree, -⟩ := Bitmap.scan_one_eq_some.mp hi
    exact h.unused i hlen hfree

end Call

/-- **Mapping a given page.** The call of a process for a page that is not mapped does its work
exactly if the page is not the first one of the bitmap, and the page table is there or the frame
that is taken for it is no page table. -/
theorem getsPage_iff {s : HeapSys Machine} {table map : ℕ → Option ℕ} {va : ℕ}
    (h : s.mem.ProcessReady table map) (hlock : s.Available .user) (hva : va % 4096 = 0)
    (hlo : 0x8048000 ≤ va) (hhi : va < 0xc0000000) (hun : s.mem.walk va = none)
    (hframe : ∃ i < 8 * s.mem.userPool.poolBitmap.btmpBytesLen,
      s.mem.userPool.poolBitmap.bit i = false) :
    GetsPage s va ↔ va ≠ 0x8048000 ∧
      (table (pdeIdx va) ≠ none ∨ ∀ j, table j ≠ some s.mem.nextTable) := by
  obtain ⟨i, hi⟩ : ∃ i, s.mem.userPool.poolBitmap.scan 1 = some i := by
    obtain ⟨i, hlen, hbit⟩ := hframe
    by_contra hnone
    have hall := Bitmap.scan_one_eq_none.mp (Option.eq_none_iff_forall_ne_some.mpr
      fun k hk ↦ hnone ⟨k, hk⟩) i hlen
    rw [hbit] at hall
    cases hall
  obtain ⟨hmod, hlt⟩ := h.frame hi
  have hidx := user_idx hhi
  have hmap : map (va / 4096) = none := by
    rw [Machine.walk, h.space.walk hidx] at hun
    exact Option.map_eq_none_iff.mp hun
  have hfits := (Machine.nextTable_fits h.kernelPool).2
  constructor
  · rintro ⟨s', hret, hgot⟩
    obtain ⟨hne, hadd⟩ := (returns_getAPage_user h hlock hlo hhi hi).mp ⟨s', hret, rfl⟩
    refine ⟨by omega, ?_⟩
    by_contra hbad
    push Not at hbad
    obtain ⟨ht, j, hj⟩ := hbad
    have hjtop := h.top j (by rw [hj]; exact Option.some_ne_none _)
    -- the frame that was taken is seen below the other entry
    obtain ⟨m', hret', hwalk⟩ := pageTableAdd_overwrites (m := s.mem.reserved va i) h.selfMap
      h.space h.apart hidx ht hjtop hj hfits hmod hlt
    obtain ⟨-, rfl⟩ := hret'.unique hadd
    have hk := pteIdx_lt va
    have hjv : j ≠ pdeIdx va := by
      rintro rfl
      rw [ht] at hj
      cases hj
    have hvb : pdeIdx (2 ^ 22 * j + 4096 * pteIdx va) = j := by
      rw [pdeIdx]
      omega
    have hother := hgot.others (2 ^ 22 * j + 4096 * pteIdx va) (by omega) (by
      intro heq
      rw [pdeIdx] at hvb hjv
      omega)
    rw [hwalk, Machine.walk, h.space.walk (by omega)] at hother
    obtain ⟨p, hp, heq⟩ := Option.map_eq_some_iff.mp hother.symm
    obtain ⟨hlen, hfree, -⟩ := Bitmap.scan_one_eq_some.mp hi
    refine h.unmapped i hlen hfree _ (hp.trans (congrArg some ?_))
    omega
  · rintro ⟨hne, htable⟩
    have hadd : ∃ m₃, Returns (pageTableAdd va (s.mem.userPool.frameAddr i)) (s.mem.reserved va i)
        () m₃ ∧ Entered (s.mem.reserved va i) m₃ va (s.mem.userPool.frameAddr i) := by
      cases ht : table (pdeIdx va) with
      | some t =>
        exact pageTableAdd_enters h.selfMap h.space h.apart hidx ht hmap hva hmod hlt
      | none =>
        have hnew := htable.resolve_left (not_not.mpr ht)
        exact pageTableAdd_extends h.selfMap h.space h.apart hidx ht
          ⟨(Machine.nextTable_fits h.kernelPool).1, hfits, h.nextTable_ne⟩ hnew hva hmod hlt
    obtain ⟨m₃, hadd, he⟩ := hadd
    obtain ⟨s', hret, rfl⟩ := (returns_getAPage_user h hlock hlo hhi hi).mpr ⟨by omega, hadd⟩
    exact ⟨s', hret, pageGot_of_entered h hlo hhi hi he⟩

/-! ## A process without pages -/

/-- A process whose address space is empty. -/
def emptyProcess : HeapSys Machine where
  mem := { Machine.bare with
    pgdir := some 0xc0101000
    userprogVaddr := ⟨⟨94199, fun _ ↦ 0⟩, 0x8048000⟩ }
  vm := fun _ ↦ 0
  lock := fun _ ↦ ⟨none, 0⟩
  running := 0xc0102000

theorem emptyProcess_ready :
    emptyProcess.mem.ProcessReady (fun _ ↦ none) fun _ ↦ none where
  selfMap := bare_pagingOk.selfMap
  dir_ne := show 0x100000 ≠ 0 by decide
  space :=
    { dir := fun j hj ↦ by
        have hword : le32 emptyProcess.mem.phys (emptyProcess.mem.cr3 + 4 * j) = 0 := bare_dir hj
        rw [hword]
        rfl
      page := fun _ _ _ ht ↦ by cases ht
      unmapped := fun _ _ _ _ _ ↦ rfl }
  apart := ⟨bare_pagingOk.selfMap.aligned, fun _ _ ht ↦ (by cases ht), fun _ _ ht ↦ (by cases ht),
    fun _ _ _ ht ↦ (by cases ht)⟩
  top _ h := absurd rfl h
  kernelPool := bare_pagingOk.pool
  userPool := ⟨show 0x208000 % 4096 = 0 by decide,
    show 8 * 1 * 4096 + 0x208000 ≤ 2 ^ 32 by decide⟩
  unused i hi hfree := (bare_pagingOk.unused i hi hfree).1
  unmapped _ _ _ _ h := by cases h
  process := rfl
  start := rfl
  len := rfl

theorem emptyProcess_unmapped {va : ℕ} (hidx : pdeIdx va < 1023) :
    emptyProcess.mem.walk va = none := by
  rw [Machine.walk, emptyProcess_ready.space.walk hidx]
  rfl

theorem emptyProcess_frame : ∃ i < 8 * emptyProcess.mem.userPool.poolBitmap.btmpBytesLen,
    emptyProcess.mem.userPool.poolBitmap.bit i = false := ⟨0, by decide, by decide⟩

/-- The page of the stack is mapped, the first page of the image is not. -/
theorem getsPage_iff_emptyProcess :
    GetsPage emptyProcess 0xbffff000 ∧ ¬GetsPage emptyProcess 0x8048000 := by
  constructor
  · refine (getsPage_iff emptyProcess_ready (.inl rfl) (by decide) (by decide) (by decide)
      (emptyProcess_unmapped (by decide)) emptyProcess_frame).mpr ⟨by decide, .inr fun j h ↦ ?_⟩
    cases h
  · intro h
    exact ((getsPage_iff emptyProcess_ready (.inl rfl) (by decide) (by decide) (by decide)
      (emptyProcess_unmapped (by decide)) emptyProcess_frame).mp h).1 rfl

/-- The first page cannot be mapped. -/
theorem not_getsPage_first :
    ¬∀ (s : HeapSys Machine) (table map : ℕ → Option ℕ) (va : ℕ), s.mem.ProcessReady table map →
      s.Available .user → va % 4096 = 0 → 0x8048000 ≤ va → va < 0xc0000000 →
      s.mem.walk va = none → (∃ i < 8 * s.mem.userPool.poolBitmap.btmpBytesLen,
        s.mem.userPool.poolBitmap.bit i = false) → GetsPage s va := by
  intro hall
  obtain ⟨s', hret, -⟩ := hall emptyProcess _ _ 0x8048000 emptyProcess_ready (.inl rfl) (by decide)
    (by decide) (by decide) (emptyProcess_unmapped (by decide)) emptyProcess_frame
  have hscan : emptyProcess.mem.userPool.poolBitmap.scan 1 = some 0 := by decide
  have hfirst := (returns_getAPage_user emptyProcess_ready (.inl rfl) (by decide) (by decide)
    hscan).mp ⟨s', hret, rfl⟩
  exact hfirst.1 rfl

end GlowOS
