import Mathlib
import GlowOS.Fs.Reading
import GlowOS.Fs.Writing

/-!
# The round trip of a file

What `file_read` gives after any number of calls of `file_write`. One call is
`FileReady.returns_fileWrite`, and `round_trip` is the induction over the calls: as long as each of them
grows the file in a way that works, every call writes all its bytes, and every part of the file
reads back as that part of the concatenated buffers.
-/

namespace GlowOS

open Bytes Program

variable {E : Env} {s s' : Fs} {f a u : ℕ} {content : Image}

/-! ## The buffers of a call -/

/-- The file is still intact after steps that leave its parts alone. -/
theorem FileIntact.of_same (h : FileIntact E f a s u content) (hdisk : s'.disk = s.disk)
    (hblock : s'.blockBitmap = s.blockBitmap) (hinode : s'.inodeBitmap = s.inodeBitmap)
    (hfd : (s'.fileTable f).fdInode = (s.fileTable f).fdInode) (hlive : s'.heap a = s.heap a)
    (hino : s'.inode a = s.inode a) : FileIntact E f a s' u content := by
  refine ⟨⟨h.mounted.part, ?_, ?_⟩, ?_, hfd.trans h.fd, hlive.trans h.live, ?_⟩
  · rw [hblock]
    exact h.mounted.blockLen
  · rw [hinode]
    exact h.mounted.inodeLen
  · rw [hblock]
    exact h.rootBlock
  · rw [hdisk, hblock, hino]
    exact h.holds

/-- The open file `f` has the inode at `a`, which is in memory. -/
structure Fs.Opened (s : Fs) (f a : ℕ) : Prop where
  fd : (s.fileTable f).fdInode = some a
  live : s.heap a = some Blk.inode

theorem FileIntact.opened (h : FileIntact E f a s u content) : s.Opened f a := ⟨h.fd, h.live⟩

theorem Fs.Opened.inodeAt_run {α : Type} {k : Inode → FsM α} (h : s.Opened f a) :
    (inodeAt a >>= k) s = k (s.inode a) s :=
  (returns_inodeAt.mpr ⟨h.live, rfl, rfl⟩).bind_run

/-- The inode is not a block the heap may hand out. -/
theorem Fs.Opened.ne_of_heap {b : ℕ} (h : s.Opened f a) (hb : s.heap b = none) : a ≠ b := by
  rintro rfl
  rw [h.live] at hb
  cases hb

theorem FileIntact.alloc {b : ℕ} {k : Blk} (h : FileIntact E f a s u content)
    (hb : s.heap b = none) : FileIntact E f a (s.alloc b k) u content := by
  have hab := h.opened.ne_of_heap hb
  exact h.of_same rfl rfl rfl rfl (Function.update_of_ne hab ..) (Function.update_of_ne hab ..)

theorem FileIntact.free {b : ℕ} (h : FileIntact E f a s u content) (hab : a ≠ b) :
    FileIntact E f a (s.free E b) u content :=
  h.of_same rfl rfl rfl rfl (Function.update_of_ne hab ..) (Function.update_of_ne hab ..)

/-- The two buffers are no blocks of the file. -/
theorem FileIntact.buffers {b c : ℕ} (h : FileIntact E f a s u content)
    (hb : s.answer E 512 = some b) (hc : (s.alloc b .buffer).answer E 560 = some c) :
    FileIntact E f a ((s.alloc b .buffer).alloc c .buffer) u content ∧ a ≠ b ∧ a ≠ c ∧
      ((s.alloc b .buffer).alloc c .buffer).inode a = s.inode a := by
  have hb0 : s.heap b = none := E.malloc_fresh hb
  have hc0 : (s.alloc b .buffer).heap c = none := E.malloc_fresh hc
  have hab := h.opened.ne_of_heap hb0
  have hac := (h.alloc (k := .buffer) hb0).opened.ne_of_heap hc0
  exact ⟨(h.alloc hb0).alloc hc0, hab, hac,
    (Function.update_of_ne hac ..).trans (Function.update_of_ne hab ..)⟩

/-- The inode survives when the buffers are given back. -/
theorem Fs.free_free_inode {t : Fs} {b c : ℕ} (hab : a ≠ b) (hac : a ≠ c) :
    ((t.free E c).free E b).inode a = t.inode a :=
  (Function.update_of_ne hab ..).trans (Function.update_of_ne hac ..)

/-! ## One call of `file_write` -/

/-- The slots of the inode table lie below the data area. -/
theorem slotBase_le_dataStart (hp : E.part.Formatted) {n : ℕ} (hn : n < 4096) :
    slotBase E n + 76 ≤ 512 * E.part.sb.dataStartLba := by
  have := hp.dataStartLba_eq
  rw [slotBase]
  omega

/-- The inode is written to its slot. -/
theorem FileReady.sync (h : FileReady E f a s u content) :
    ∃ s', Returns (inodeSync E (s.inode a) 512) s PUnit.unit s' ∧
      FileReady E f a s' u content ∧ s.SameHeap s' ∧ s'.inode = s.inode := by
  have hbase := slotBase_le_dataStart h.mounted.part h.slot.number
  refine ⟨_, returns_inodeSync.mpr ⟨h.slot, rfl⟩, ?_, ⟨rfl, rfl, rfl, rfl, rfl⟩, rfl⟩
  refine ⟨⟨⟨h.mounted.part, h.mounted.blockLen, h.mounted.inodeLen⟩, h.rootBlock, h.fd, h.live, ?_⟩,
    h.slot⟩
  refine h.holds.congr (fun _ _ ↦ rfl) rfl (fun _ hi ↦ hi) fun p hp h0 ↦ ?_
  have hdata := h.holds.owns.inData p hp h0
  exact agree_splice (by omega)

/-- The free blocks `file_write` takes for `count` bytes. -/
def Fs.blocksForWrite (s : Fs) (a count : ℕ) : ℕ :=
  (if (s.inode a).iSectors 0 = 0 then 1 else 0) +
    blocksNeeded ((s.inode a).iSize / 512 + 1) (((s.inode a).iSize + count) / 512 + 1)

/-- The part of `file_write` behind the buffers comes down to writing the inode, with all the bytes
in place. -/
theorem FileIntact.fileWriteIn_run {count : ℕ} (h : FileIntact E f a s u content) (buf : Image)
    (hu : u = 0 ∧ (s.inode a).iSize = 0 ∨ u = (s.inode a).iSize / 512 + 1)
    (hroom : (s.inode a).iSize + count < 71680)
    (hgrow : GrowsWell ((s.inode a).iSize / 512 + 1) (((s.inode a).iSize + count) / 512 + 1))
    (hfree : s.blocksForWrite a count ≤ (freeBlocks E s.blockBitmap).card) :
    ∃ t, FileIntact E f a t (((s.inode a).iSize + count) / 512 + 1)
        (splice content (s.inode a).iSize count buf) ∧ s.SameHeap t ∧
      (t.inode a).iSize = (s.inode a).iSize + count ∧ (t.inode a).iNo = (s.inode a).iNo ∧
      fileWriteIn E f a buf count s =
        (inodeSync E (t.inode a) 512 >>= fun _ ↦ pure (some count)) t := by
  set size := (s.inode a).iSize with hsize
  rw [Fs.blocksForWrite, ← hsize, if_congr h.iSectors_zero_iff rfl rfl] at hfree
  have hmax : max u 1 = size / 512 + 1 := by omega
  obtain ⟨s₁, hr₁, h₁, hh₁, hs₁, hn₁, hf₁⟩ := h.returns_allocFirst (by split_ifs at hfree <;> omega)
  rw [hmax] at h₁
  have hmod : (size + count) % 2 ^ 32 = size + count := Nat.mod_eq_of_lt (by omega)
  obtain ⟨all, s₂, hr₂, h₂, hh₂, hs₂, hn₂, hall⟩ := allocates h₁ (by omega)
    (by omega : size / 512 + 1 ≤ (size + count) / 512 + 1) (by omega) hgrow (by omega)
  rw [Nat.add_sub_cancel] at hall
  -- `fd_pos` is set before the loop
  set s₃ := s₂.setFile f { s₂.fileTable f with
    fdPos := ((s₂.inode a).iSize + 2 ^ 32 - 1) % 2 ^ 32 } with hs₃
  have h₃ : FileIntact E f a s₃ ((size + count) / 512 + 1) content := by
    refine h₂.of_same rfl rfl rfl ?_ rfl rfl
    rw [hs₃, Fs.setFile_fileTable, Function.update_self]
  have hsize₃ : (s₃.inode a).iSize = size := by
    rw [hs₃, Fs.setFile_inode, hs₂, hs₁]
  obtain ⟨s₄, hr₄, h₄, hh₄, hs₄, hn₄⟩ := writeSectors_ready buf 0 h₃
    (le_refl count) (by omega) (by rwa [hsize₃]) (Or.inl rfl)
  rw [hsize₃] at h₄
  have hh₃ : s₂.SameHeap s₃ := ⟨rfl, rfl, rfl, rfl, rfl⟩
  have hn₃ : (s₃.inode a).iNo = (s₂.inode a).iNo := rfl
  refine ⟨s₄, by simpa only [Nat.zero_add] using h₄, ((hh₁.trans hh₂).trans hh₃).trans hh₄,
    by rw [hs₄, hsize₃], by rw [hn₄, hn₃, hn₂, hn₁], ?_⟩
  have hwill : (size + count) / 512 + 1 ≤ 140 := by omega
  rw [fileWriteIn, hr₁.bind_run, if_pos rfl, h₁.opened.inodeAt_run, hs₁, ← hsize, hmod,
    check_run hwill, hr₂.bind_run]
  change (inodeAt a >>= _) s₂ = _
  rw [h₂.opened.inodeAt_run, modify_run, hr₄.bind_run, h₄.opened.inodeAt_run]

/-- What `file_write` returns behind the buffers. -/
theorem FileIntact.returns_fileWriteIn {count : ℕ} (h : FileIntact E f a s u content) (buf : Image)
    (hu : u = 0 ∧ (s.inode a).iSize = 0 ∨ u = (s.inode a).iSize / 512 + 1)
    (hroom : (s.inode a).iSize + count < 71680)
    (hgrow : GrowsWell ((s.inode a).iSize / 512 + 1) (((s.inode a).iSize + count) / 512 + 1))
    (hfree : s.blocksForWrite a count ≤ (freeBlocks E s.blockBitmap).card) :
    ∃ t, FileIntact E f a t (((s.inode a).iSize + count) / 512 + 1)
        (splice content (s.inode a).iSize count buf) ∧ s.SameHeap t ∧
      (t.inode a).iSize = (s.inode a).iSize + count ∧ (t.inode a).iNo = (s.inode a).iNo ∧
      ∀ r s', Returns (fileWriteIn E f a buf count) s r s' ↔
        r = some count ∧ Returns (inodeSync E (t.inode a) 512) t PUnit.unit s' := by
  obtain ⟨t, ht, hh, hsize, hno, hrun⟩ := h.fileWriteIn_run buf hu hroom hgrow hfree
  refine ⟨t, ht, hh, hsize, hno, fun r s' ↦ ?_⟩
  rw [Returns, hrun, ← Returns, returns_bind]
  constructor
  · rintro ⟨_, t, hsync, hpure⟩
    obtain ⟨rfl, rfl⟩ := returns_pure.mp hpure
    exact ⟨rfl, hsync⟩
  · rintro ⟨rfl, hsync⟩
    exact ⟨PUnit.unit, s', hsync, returns_pure.mpr ⟨rfl, rfl⟩⟩

/-- The test in front of the buffers. -/
theorem Fs.Opened.returns_fileWrite_iff (h : s.Opened f a) {buf : Image} {count : ℕ}
    {r : Option ℕ} :
    Returns (fileWrite E f buf count) s r s' ↔
      Returns (
        if 512 * 140 < ((s.inode a).iSize + count) % 2 ^ 32 then pure none
        else do
          match ← sysMalloc E Blk.buffer 512 with
          | none => pure none
          | some ioBuf =>
            match ← sysMalloc E Blk.buffer 560 with
            | none => pure none
            | some allBlocks => do
              let r ← fileWriteIn E f a buf count
              sysFree E allBlocks
              sysFree E ioBuf
              pure r) s r s' := by
  have hfd : Returns (fdInodeOf f) s a s := returns_fdInodeOf.mpr ⟨h.fd, rfl⟩
  rw [fileWrite, hfd.bind_iff]
  exact returns_inodeAt_bind h.live

/-- **One call of `file_write`.** -/
theorem FileReady.returns_fileWrite {count : ℕ} (h : FileReady E f a s u content) (buf : Image)
    (hu : u = 0 ∧ (s.inode a).iSize = 0 ∨ u = (s.inode a).iSize / 512 + 1)
    (hroom : (s.inode a).iSize + count < 71680)
    (hgrow : GrowsWell ((s.inode a).iSize / 512 + 1) (((s.inode a).iSize + count) / 512 + 1))
    (hfree : s.blocksForWrite a count ≤ (freeBlocks E s.blockBitmap).card)
    (hheap : s.BuffersSupplied E) :
    ∃ s', Returns (fileWrite E f buf count) s (some count) s' ∧
      FileReady E f a s' (((s.inode a).iSize + count) / 512 + 1)
        (splice content (s.inode a).iSize count buf) ∧
      (s'.inode a).iSize = (s.inode a).iSize + count := by
  obtain ⟨b, c, hb, hc⟩ := hheap
  obtain ⟨h₁, hab, hac, hino⟩ := h.buffers hb hc
  obtain ⟨t, ht, hsame, hsize, hno, hret⟩ := h₁.returns_fileWriteIn buf
    (by rwa [hino]) (by rwa [hino]) (by rwa [hino]) (by rwa [Fs.blocksForWrite, hino])
  rw [hino] at ht hsize hno
  have hready : FileReady E f a t _ _ := ⟨ht, hno ▸ h.slot⟩
  obtain ⟨t', hsync, ht', hsame', hinode⟩ := hready.sync
  have hall := hsame.trans hsame'
  refine ⟨(t'.free E c).free E b, h.opened.returns_fileWrite_iff.mpr ?_,
    ⟨(ht'.toFileIntact.free hac).free hab, ?_⟩, ?_⟩
  · rw [Nat.mod_eq_of_lt (by omega), if_neg (by omega)]
    exact returns_buffers (pure none) hb hc ((hret _ _).mpr ⟨rfl, hsync⟩) hall.tasks hall.running
  · rw [Fs.free_free_inode hab hac]
    exact ht'.slot
  · rw [Fs.free_free_inode hab hac, hinode, hsize]

/-! ## One call of `file_read` -/

/-- A file that is ready can be read. -/
theorem FileReady.readable (h : FileReady E f a s u content) (hu : (s.inode a).iSize / 512 < u)
    (hpos : (s.fileTable f).fdPos ≤ (s.inode a).iSize) : FileReadable f a s where
  fd := h.fd
  live := h.live
  pos_le := hpos
  size_le := by
    have hle := h.holds.le
    omega
  blocks k hk hle := ⟨(h.holds.blocks k hk).mpr (by omega), h.holds.block_le (by omega)⟩
  table := Inode.held_table (d := s.disk) ▸ h.holds.onDisk 140 (le_refl _)

/-- **One call of `file_read`** inside the file. -/
theorem FileReady.returns_fileRead {n : ℕ} (h : FileReady E f a s u content)
    (hu : (s.inode a).iSize / 512 < u) (hsize : (s.inode a).iSize < 71168)
    (hpos : (s.fileTable f).fdPos + n ≤ (s.inode a).iSize) (hheap : s.BuffersSupplied E) :
    ∃ out t, Returns (fileRead E f n) s (some (n, out)) t ∧
      ∀ i < n, out i = content ((s.fileTable f).fdPos + i) := by
  have hread := h.readable hu (by omega)
  have hleft : s.bytesLeft f a n = n := Nat.min_eq_left (by omega)
  obtain ⟨out, t, hr, hout, -⟩ := @FileReadable.returns_fileRead _ _ _ _ n hread (by omega) (by omega) hheap
  rw [hleft] at hr hout
  exact ⟨out, t, hr, fun i hi ↦ (hout i hi).trans (h.holds.data _ (by omega))⟩

/-! ## Any number of calls -/

/-- The calls `file_write(file, buf, count)`, one after the other. -/
def writeAll (E : Env) (f : ℕ) : List (Image × ℕ) → FsM (List (Option ℕ))
  | [] => pure []
  | (buf, count) :: calls => do
    let r ← fileWrite E f buf count
    let rs ← writeAll E f calls
    pure (r :: rs)

/-- The concatenation of the buffers. -/
def concatBufs : List (Image × ℕ) → Image
  | [] => fun _ ↦ 0
  | (buf, count) :: calls => fun i ↦ if i < count then buf i else concatBufs calls (i - count)

/-- The number of bytes of all the buffers. -/
def totalCount (calls : List (Image × ℕ)) : ℕ := (calls.map Prod.snd).sum

/-- Every call finds enough free blocks and heap. -/
def WritesSupplied (E : Env) (f a : ℕ) : List (Image × ℕ) → Fs → Prop
  | [], _ => True
  | (buf, count) :: calls, s =>
    s.blocksForWrite a count ≤ (freeBlocks E s.blockBitmap).card ∧ s.BuffersSupplied E ∧
      ∀ r s', Returns (fileWrite E f buf count) s r s' → WritesSupplied E f a calls s'

/-- From `size` bytes on, every call grows the file in a way that works. -/
def GrowsWellFrom : ℕ → List (Image × ℕ) → Prop
  | _, [] => True
  | size, (_, count) :: calls =>
    GrowsWell (size / 512 + 1) ((size + count) / 512 + 1) ∧ GrowsWellFrom (size + count) calls

/-- The open file `f`, with the inode at `a`, starts empty. -/
structure EmptyFile (E : Env) (f a : ℕ) (s : Fs) : Prop where
  mounted : s.Mounted E
  rootBlock : s.blockBitmap.bit 0 = true
  fd : (s.fileTable f).fdInode = some a
  live : s.heap a = some Blk.inode
  iSize : (s.inode a).iSize = 0
  iSectors : ∀ k < 13, (s.inode a).iSectors k = 0

/-- Assign `fd_pos`. -/
def Fs.setPos (s : Fs) (f p : ℕ) : Fs := s.setFile f { s.fileTable f with fdPos := p }

/-- Every call writes all its bytes, and afterwards every part of the file reads back as that part
of the concatenated buffers. -/
def RoundTrip (E : Env) (f : ℕ) (s : Fs) (calls : List (Image × ℕ)) : Prop :=
  ∃ s', Returns (writeAll E f calls) s (calls.map fun c ↦ some c.2) s' ∧
    ∀ p n, 1 ≤ n → p + n ≤ totalCount calls → (s'.setPos f p).BuffersSupplied E →
      ∃ out t, Returns (fileRead E f n) (s'.setPos f p) (some (n, out)) t ∧
        ∀ i < n, out i = concatBufs calls (p + i)

/-- The run, from any point of it on. -/
theorem FileReady.returns_writeAll {calls : List (Image × ℕ)} (h : FileReady E f a s u content)
    (hu : u = 0 ∧ (s.inode a).iSize = 0 ∨ u = (s.inode a).iSize / 512 + 1)
    (hroom : (s.inode a).iSize + totalCount calls < 71168)
    (hsup : WritesSupplied E f a calls s) (hgrow : GrowsWellFrom (s.inode a).iSize calls) :
    ∃ s' u' content', Returns (writeAll E f calls) s (calls.map fun c ↦ some c.2) s' ∧
      FileReady E f a s' u' content' ∧
      (s'.inode a).iSize = (s.inode a).iSize + totalCount calls ∧
      (u' = 0 ∧ (s'.inode a).iSize = 0 ∨ u' = (s'.inode a).iSize / 512 + 1) ∧
      content' = splice content (s.inode a).iSize (totalCount calls) (concatBufs calls) := by
  -- on the calls: the file is ready again after the first one, with its bytes appended
  induction calls generalizing s u content with
  | nil =>
    refine ⟨s, u, content, returns_pure.mpr ⟨rfl, rfl⟩, h, rfl, hu, ?_⟩
    exact (splice_zero ..).symm
  | cons call calls ih =>
    obtain ⟨buf, count⟩ := call
    obtain ⟨hfree, hheap, hrest⟩ := hsup
    obtain ⟨hgrow, hgrows⟩ := hgrow
    have htotal : totalCount ((buf, count) :: calls) = count + totalCount calls := rfl
    rw [htotal] at hroom ⊢
    obtain ⟨s₁, hr, h₁, hs₁⟩ := h.returns_fileWrite buf hu (by omega) hgrow hfree hheap
    obtain ⟨s', u', content', hrs, h', hs', hu', hc'⟩ := ih h₁ (Or.inr (by rw [hs₁]))
      (by omega) (hrest _ _ hr) (by rwa [hs₁])
    refine ⟨s', u', content', ?_, h', by omega, hu', ?_⟩
    · refine returns_bind.mpr ⟨_, _, hr, returns_bind.mpr ⟨_, _, hrs, ?_⟩⟩
      exact returns_pure.mpr ⟨rfl, rfl⟩
    · have hbuf : ∀ i < count, buf i = concatBufs ((buf, count) :: calls) i := by
        intro i hi
        exact (if_pos hi).symm
      have hlater : concatBufs calls = fun i ↦ concatBufs ((buf, count) :: calls) (count + i) := by
        funext i
        have hnot : ¬count + i < count := by omega
        rw [concatBufs]
        dsimp only
        rw [if_neg hnot, Nat.add_sub_cancel_left]
      rw [hc', hs₁, splice_congr hbuf, hlater]
      exact splice_splice ..

/-- **The round trip**, for runs in which no call grows a file of fewer than twelve blocks beyond
the twelfth, or a file of more than twelve blocks by further blocks, and for an inode whose slot does
not cross a sector. -/
theorem round_trip {calls : List (Image × ℕ)} (hopen : EmptyFile E f a s)
    (hsum : totalCount calls < 71168) (hsup : WritesSupplied E f a calls s)
    (hslot : (s.inode a).iNo % 2 ^ 8 * 76 % 512 ≤ 436) (hgrow : GrowsWellFrom 0 calls) :
    RoundTrip E f s calls := by
  have hslot' : SlotAccess E ((s.inode a).iNo % 2 ^ 8) 512 := by
    have hall := slotAccess_of_formatted hopen.mounted.part
      (by omega : (s.inode a).iNo % 2 ^ 8 < 4096)
    refine ⟨hall.number, hall.inPart, hall.onDisk, ?_⟩
    have hone : (inodePosition E ((s.inode a).iNo % 2 ^ 8)).twoSec = false :=
      decide_eq_false (by omega)
    rw [InodePosition.sectors, hone]
    decide
  have hready : FileReady E f a s 0 fun _ ↦ 0 :=
    ⟨⟨hopen.mounted, hopen.rootBlock, hopen.fd, hopen.live,
      fileHolds_empty _ hopen.iSize hopen.iSectors⟩, hslot'⟩
  obtain ⟨s', u, content, hr, h, hsize, hu, hc⟩ := hready.returns_writeAll (Or.inl ⟨rfl, hopen.iSize⟩)
    (by rw [hopen.iSize]; omega) hsup (by rwa [hopen.iSize])
  rw [hopen.iSize, Nat.zero_add] at hsize
  refine ⟨s', hr, fun p n hn hpn hheap ↦ ?_⟩
  have hready' : FileReady E f a (s'.setPos f p) u content := by
    refine ⟨h.toFileIntact.of_same rfl rfl rfl ?_ rfl rfl, h.slot⟩
    rw [Fs.setPos, Fs.setFile_fileTable, Function.update_self]
  have hpos : ((s'.setPos f p).fileTable f).fdPos = p := by
    rw [Fs.setPos, Fs.setFile_fileTable, Function.update_self]
  have hino : (s'.setPos f p).inode = s'.inode := rfl
  obtain ⟨out, t, hout, hbytes⟩ := hready'.returns_fileRead (n := n) (by rw [hino]; omega)
    (by rw [hino]; omega) (by rw [hino, hpos]; omega) hheap
  refine ⟨out, t, hout, fun i hi ↦ ?_⟩
  rw [hbytes i hi, hpos, hc, hopen.iSize]
  exact splice_of_mem (Nat.zero_le _) (by omega)

/-! ## An empty file -/

/-- An open file without blocks, with inode 1 in the block at `kHeapStart`. -/
def Fs.oneFile : Fs :=
  { Fs.blank with
    blockBitmap := ⟨512, fun i ↦ if i = 0 then 1 else 0⟩
    inodeBitmap := ⟨512, fun i ↦ if i = 0 then 3 else 0⟩
    inode := fun _ ↦ Inode.init 1
    heap := fun i ↦ if i = kHeapStart then some Blk.inode else none
    tick := 1
    fileTable := fun _ ↦ ⟨0, oRdwr, some kHeapStart⟩ }

theorem oneFile_empty : EmptyFile (Env.bump samplePartition) 3 kHeapStart Fs.oneFile where
  mounted := ⟨samplePartition_formatted, by decide, by decide⟩
  rootBlock := by decide
  fd := rfl
  live := rfl
  iSize := rfl
  iSectors _ _ := rfl

/-- One call on this file, of at most 6144 bytes. -/
theorem oneFile_supplied {buf : Image} {count : ℕ} (h : count ≤ 6144) :
    WritesSupplied (Env.bump samplePartition) 3 kHeapStart [(buf, count)] Fs.oneFile := by
  refine ⟨?_, ⟨kHeapStart + 4096, kHeapStart + 8192, by decide, by decide⟩, fun _ _ _ ↦ trivial⟩
  have hfree : Finset.Icc 1 14 ⊆ freeBlocks (Env.bump samplePartition) Fs.oneFile.blockBitmap := by
    intro i hi
    obtain ⟨h1, h2⟩ := Finset.mem_Icc.mp hi
    have hbits : ∀ i < 15, 1 ≤ i → Fs.oneFile.blockBitmap.bit i = false := by decide
    have hstart : (Env.bump samplePartition).part.sb.dataStartLba = 675 := by decide
    have hmax : maxLba = 163839 := by decide
    have hlen : Fs.oneFile.blockBitmap.btmpBytesLen = 512 := rfl
    exact mem_freeBlocks.mpr ⟨by omega, hbits i (by omega) h1, by omega⟩
  have hcard := Finset.card_le_card hfree
  rw [Nat.card_Icc] at hcard
  have hsec : (Fs.oneFile.inode kHeapStart).iSectors 0 = 0 := rfl
  have hsize : (Fs.oneFile.inode kHeapStart).iSize = 0 := rfl
  rw [Fs.blocksForWrite, if_pos hsec, hsize, blocksNeeded]
  split_ifs <;> omega

theorem round_trip_6000 :
    RoundTrip (Env.bump samplePartition) 3 Fs.oneFile [(fun i ↦ UInt8.ofNat i, 6000)] :=
  round_trip (a := kHeapStart) oneFile_empty (by decide) (oneFile_supplied (by decide)) (by decide)
    ⟨Or.inr (Or.inl (by decide)), trivial⟩

/-- A first call that fills the direct blocks and goes one beyond stops in situation 2. -/
theorem not_round_trip_6144 :
    EmptyFile (Env.bump samplePartition) 3 kHeapStart Fs.oneFile ∧
      totalCount [((fun i ↦ UInt8.ofNat i : Image), 6144)] < 71168 ∧
      WritesSupplied (Env.bump samplePartition) 3 kHeapStart
        [(fun i ↦ UInt8.ofNat i, 6144)] Fs.oneFile ∧
      ¬RoundTrip (Env.bump samplePartition) 3 Fs.oneFile [(fun i ↦ UInt8.ofNat i, 6144)] := by
  refine ⟨oneFile_empty, by decide, oneFile_supplied (le_refl _), ?_⟩
  rintro ⟨s', h, -⟩
  exact not_returns_of_isNone (by decide +kernel) h

end GlowOS
