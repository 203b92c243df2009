import Mathlib
import GlowOS.Kernel.PageMap
import GlowOS.Lib.AddressSpace

/-!
# Copying an address space

`copy_body_stack3` goes through the bitmap of the parent's pages. For each bit that is set it copies
the page into a buffer of the kernel, switches to the directory of the child, maps a new frame at
the same address, copies the buffer into it, and switches back. The kernel half of the two
directories is the same, so the buffer and both directories are seen at the same addresses in either.

No other thread runs, so the locks of the pools are left out.
-/

namespace GlowOS

open Bytes Paging Program

/-! ## The code -/

/-- Read a byte. -/
def readByte (va : ℕ) : MemM UInt8 := do
  let pa ← translate va
  let m ← get
  pure (m.phys pa)

/-- The loop of `memcpy`. -/
def copyLoop : ℕ → ℕ → ℕ → MemM PUnit
  | _, _, 0 => pure ()
  | dst, src, size + 1 => do
    let x ← readByte src
    writeByte dst x
    copyLoop (dst + 1) (src + 1) size

/-- `memcpy`. -/
def memcpy (dst src size : ℕ) : MemM PUnit := do
  check Fault.assert (dst ≠ 0 ∧ src ≠ 0)
  copyLoop dst src size

/-- `page_dir_activate`, for a task with the given field `pgdir`. -/
def pageDirActivate (pgdir : Option ℕ) : MemM PUnit := do
  let pagedirPhyAddr ← match pgdir with
    | none => pure 0x100000
    | some va => addrV2p va
  modify fun m ↦ { m with cr3 := pagedirPhyAddr }

/-- `get_a_page_without_opvaddrbitmap`: `none` stands for `NULL`. -/
def getAPageWithoutOpvaddrbitmap (pf : PoolFlags) (vaddr : ℕ) : MemM (Option ℕ) := do
  match ← palloc pf with
  | none => pure none
  | some pa => do
    pageTableAdd vaddr pa
    pure (some vaddr)

/-- `create_page_dir`: `none` stands for `NULL`. -/
def createPageDir : MemM (Option ℕ) := do
  match ← getKernelPages 1 with
  | none => pure none
  | some pageDirVaddr => do
    memcpy (pageDirVaddr + 0x300 * 4) (0xfffff000 + 0x300 * 4) 1024
    let newPageDirPhyAddr ← addrV2p pageDirVaddr
    writeWord (pageDirVaddr + 1023 * 4) (entry newPageDirPhyAddr)
    pure (some pageDirVaddr)

/-- What `copy_body_stack3` does with a page. -/
def copyPage (parent child : Option ℕ) (bufPage progVaddr : ℕ) : MemM PUnit := do
  memcpy bufPage progVaddr pgSize
  pageDirActivate child
  let _ ← getAPageWithoutOpvaddrbitmap .user progVaddr
  memcpy progVaddr bufPage pgSize
  pageDirActivate parent

/-- The inner loop of `copy_body_stack3`, with the bits that are left. -/
def copyBits (parent child : Option ℕ) (bufPage idxByte : ℕ) : ℕ → ℕ → MemM PUnit
  | _, 0 => pure ()
  | idxBit, left + 1 => do
    let m ← get
    if (1 <<< idxBit) &&& (m.userprogVaddr.vaddrBitmap.bits idxByte).toNat ≠ 0 then
      copyPage parent child bufPage
        ((idxByte * 8 + idxBit) * pgSize + m.userprogVaddr.vaddrStart)
    copyBits parent child bufPage idxByte (idxBit + 1) left

/-- The outer loop, with the bytes that are left. -/
def copyBytes (parent child : Option ℕ) (bufPage : ℕ) : ℕ → ℕ → MemM PUnit
  | _, 0 => pure ()
  | idxByte, left + 1 => do
    let m ← get
    if m.userprogVaddr.vaddrBitmap.bits idxByte ≠ 0 then
      copyBits parent child bufPage idxByte 0 8
    copyBytes parent child bufPage (idxByte + 1) left

/-- `copy_body_stack3`, run by the parent: `parent` and `child` are the fields `pgdir`. -/
def copyBodyStack3 (parent child : Option ℕ) (bufPage : ℕ) : MemM PUnit := do
  let m ← get
  copyBytes parent child bufPage 0 m.userprogVaddr.vaddrBitmap.btmpBytesLen

/-! ## Copying between pages -/

section Copy

variable {m m' : Machine} {va pa pd ps dst src : ℕ} {x : UInt8}

theorem readByte_returns (h : m.walk va = some pa) : Returns (readByte va) m (m.phys pa) m :=
  returns_bind.mpr ⟨pa, m, returns_translate.mpr ⟨h, rfl⟩, returns_pure.mpr ⟨rfl, rfl⟩⟩

theorem writeByte_returns (h : m.walk va = some pa) :
    Returns (writeByte va x) m () { m with phys := Function.update m.phys pa x } :=
  returns_bind.mpr ⟨pa, m, returns_translate.mpr ⟨h, rfl⟩, returns_modify.mpr rfl⟩

/-- Nothing written between `lo` and `hi` is read by the translation of `va`. -/
def Machine.Avoids (m : Machine) (va lo hi : ℕ) : Prop := ∀ a, m.Reads va a → a + 4 ≤ lo ∨ hi ≤ a

/-- A write that a translation avoids does not change it. -/
theorem Machine.Avoids.walk_eq {lo hi : ℕ} (h : m.Avoids va lo hi) (hcr3 : m'.cr3 = m.cr3)
    (hd : DiffersIn lo hi m.phys m'.phys) : m'.walk va = m.walk va ∧ m'.Avoids va lo hi := by
  have hsame : ∀ a, m.Reads va a → le32 m'.phys a = le32 m.phys a := fun a ha ↦
    le32_congr fun i hi ↦ hd _ (by have := h a ha; omega)
  have hwalk := walk_congr hsame
  refine ⟨?_, ?_⟩
  · rw [Machine.walk, hcr3]
    exact hwalk.1
  · rintro a (rfl | ⟨hp, rfl⟩)
    · rw [hcr3]
      exact h _ (.inl rfl)
    · rw [hcr3] at hp ⊢
      have hp' : present (le32 m.phys (pdeAddr m.cr3 va)) = true := by
        rwa [hsame _ (.inl rfl)] at hp
      rw [hwalk.2 hp']
      exact h _ (.inr ⟨hp', rfl⟩)

/-- A part of a page is copied into a part of another page. -/
theorem copyLoop_returns {k l n : ℕ} (hdst : dst % 4096 = 0) (hsrc : src % 4096 = 0)
    (hk : k + n ≤ 4096) (hl : l + n ≤ 4096) (hwd : m.walk dst = some pd)
    (hws : m.walk src = some ps) (hne : pd + 4096 ≤ ps ∨ ps + 4096 ≤ pd)
    (had : m.Avoids dst pd (pd + 4096)) (has : m.Avoids src pd (pd + 4096)) :
    Returns (copyLoop (dst + k) (src + l) n) m ()
      { m with phys := splice m.phys (pd + k) n fun i ↦ m.phys (ps + l + i) } := by
  induction n generalizing k l m with
  | zero =>
    rw [splice_zero]
    exact returns_pure.mpr ⟨rfl, rfl⟩
  | succ n ih =>
    have hd : m.walk (dst + k) = some (pd + k) := by
      rw [Machine.walk, walk_add hdst (by omega)]
      exact congrArg (Option.map (· + k)) hwd
    have hs : m.walk (src + l) = some (ps + l) := by
      rw [Machine.walk, walk_add hsrc (by omega)]
      exact congrArg (Option.map (· + l)) hws
    set m₁ : Machine := { m with phys := Function.update m.phys (pd + k) (m.phys (ps + l)) }
    have hdiff : DiffersIn pd (pd + 4096) m.phys m₁.phys := fun i hi ↦
      Function.update_of_ne (by omega) ..
    obtain ⟨hwd₁, had₁⟩ := had.walk_eq (show m₁.cr3 = m.cr3 from rfl) hdiff
    obtain ⟨hws₁, has₁⟩ := has.walk_eq (show m₁.cr3 = m.cr3 from rfl) hdiff
    have hrest := ih (k := k + 1) (l := l + 1) (m := m₁) (by omega) (by omega) (hwd₁.trans hwd)
      (hws₁.trans hws) had₁ has₁
    have himage : splice m₁.phys (pd + (k + 1)) n (fun i ↦ m₁.phys (ps + (l + 1) + i)) =
        splice m.phys (pd + k) (n + 1) fun i ↦ m.phys (ps + l + i) := by
      funext i
      by_cases hi : i = pd + k
      · rw [hi, splice_of_lt (by omega), splice_of_mem (by omega) (by omega), Nat.sub_self]
        exact Function.update_self ..
      · by_cases hin : pd + (k + 1) ≤ i ∧ i < pd + (k + 1) + n
        · rw [splice_of_mem hin.1 hin.2, splice_of_mem (by omega) (by omega)]
          have hsrc' : m₁.phys (ps + (l + 1) + (i - (pd + (k + 1)))) =
              m.phys (ps + (l + 1) + (i - (pd + (k + 1)))) := Function.update_of_ne (by omega) ..
          rw [hsrc']
          exact congrArg m.phys (by omega)
        · rw [splice_of_disjoint (by omega), splice_of_disjoint (by omega)]
          exact Function.update_of_ne hi ..
    rw [← himage]
    exact returns_bind.mpr ⟨_, m, readByte_returns hs,
      returns_bind.mpr ⟨(), m₁, writeByte_returns hd, hrest⟩⟩

/-- `memcpy` of a page. -/
theorem memcpy_page (hdst : dst % 4096 = 0) (hsrc : src % 4096 = 0) (hd₀ : dst ≠ 0) (hs₀ : src ≠ 0)
    (hwd : m.walk dst = some pd) (hws : m.walk src = some ps)
    (hne : pd + 4096 ≤ ps ∨ ps + 4096 ≤ pd) (had : m.Avoids dst pd (pd + 4096))
    (has : m.Avoids src pd (pd + 4096)) :
    Returns (memcpy dst src pgSize) m ()
      { m with phys := splice m.phys pd 4096 fun i ↦ m.phys (ps + i) } :=
  returns_check_bind.mpr
    ⟨⟨hd₀, hs₀⟩, copyLoop_returns (k := 0) (l := 0) hdst hsrc (by decide) (by decide) hwd hws hne had has⟩

/-- `page_dir_activate`. -/
theorem pageDirActivate_returns (h : SelfMap m.phys m.cr3) (hidx : pdeIdx va < 1024)
    (hw : m.walk va = some pa) :
    Returns (pageDirActivate (some va)) m () { m with cr3 := pa } :=
  returns_bind.mpr ⟨pa, m, addrV2p_walk h hidx hw, returns_modify.mpr rfl⟩

end Copy

end GlowOS
