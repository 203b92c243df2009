import Mathlib
import GlowOS.Fs.File
import GlowOS.Fs.Slots

/-!
# Reading a file

`file_read` clips the number of bytes to the end of the file, but finds the last block by the number
it was asked for, which may lie far behind the end or, after a wrap at 32 bits, in front of the
position. The assertion on the block indices speaks about this block. It fails for block 139 and
every later one, although a file has blocks up to 139.
-/

namespace GlowOS

open Bytes Program

/-! ## The buffers of a call -/

section Buffers

variable {E : Env} {s s' : Fs} {α : Type} {m : FsM α} {r : α}

/-- The heap answers the two requests of a call. -/
def Fs.BuffersSupplied (E : Env) (s : Fs) : Prop :=
  ∃ b c, s.answer E 512 = some b ∧ (s.alloc b .buffer).answer E 560 = some c

/-- A block that the heap handed out can be given back by the same thread. -/
theorem kernel_of_answer {t : Fs} {size b : ℕ} (h : s.answer E size = some b)
    (htasks : t.tasks = s.tasks) (hrun : t.running = s.running) :
    t.cur.pgdir = none → kHeapStart ≤ b := by
  intro hnone
  rw [Fs.cur, htasks, hrun] at hnone
  refine (E.malloc_kernel h).mp ?_
  rw [Fs.cur, hnone]
  rfl

/-- Two buffers are allocated, and given back in reverse order. -/
theorem returns_buffers {t : Fs} {b c : ℕ} (none' : FsM α) (hb : s.answer E 512 = some b)
    (hc : (s.alloc b .buffer).answer E 560 = some c)
    (hm : Returns m ((s.alloc b .buffer).alloc c .buffer) r t) (htasks : t.tasks = s.tasks)
    (hrun : t.running = s.running) :
    Returns (do
        match ← sysMalloc E Blk.buffer 512 with
        | none => none'
        | some ioBuf =>
          match ← sysMalloc E Blk.buffer 560 with
          | none => none'
          | some allBlocks => do
            let r ← m
            sysFree E allBlocks
            sysFree E ioBuf
            pure r) s r ((t.free E c).free E b) := by
  refine returns_bind.mpr ⟨_, _, returns_sysMalloc.mpr ⟨hb.symm, rfl⟩, ?_⟩
  refine returns_bind.mpr ⟨_, _, returns_sysMalloc.mpr ⟨hc.symm, rfl⟩, ?_⟩
  refine returns_bind.mpr ⟨_, _, hm, ?_⟩
  refine returns_bind.mpr ⟨PUnit.unit, _, returns_sysFree.mpr
    ⟨kernel_of_answer hc htasks hrun, rfl⟩, ?_⟩
  exact returns_bind.mpr ⟨PUnit.unit, _, returns_sysFree.mpr
    ⟨kernel_of_answer hb htasks hrun, rfl⟩, returns_pure.mpr ⟨rfl, rfl⟩⟩

/-- How a call with two buffers ends: without the first one, without the second one, which loses the
first, or with both. -/
theorem buffers_cases {none' : FsM α} (h : Returns (do
        match ← sysMalloc E Blk.buffer 512 with
        | none => none'
        | some ioBuf =>
          match ← sysMalloc E Blk.buffer 560 with
          | none => none'
          | some allBlocks => do
            let r ← m
            sysFree E allBlocks
            sysFree E ioBuf
            pure r) s r s') :
    s.answer E 512 = none ∧ Returns none' (s.answered .buffer none) r s' ∨
      (∃ b, s.answer E 512 = some b ∧ (s.alloc b .buffer).answer E 560 = none ∧
        Returns none' ((s.alloc b .buffer).answered .buffer none) r s') ∨
      ∃ b c t, s.answer E 512 = some b ∧ (s.alloc b .buffer).answer E 560 = some c ∧
        Returns m ((s.alloc b .buffer).alloc c .buffer) r t ∧ s' = (t.free E c).free E b := by
  obtain ⟨ans, t, h1, h⟩ := returns_bind.mp h
  obtain ⟨rfl, rfl⟩ := returns_sysMalloc.mp h1
  cases hb : s.answer E 512 with
  | none =>
    rw [hb] at h
    exact Or.inl ⟨rfl, h⟩
  | some b =>
    have halloc : s.answered .buffer (some b) = s.alloc b .buffer := rfl
    rw [hb, halloc] at h
    obtain ⟨ans, t, h2, h⟩ := returns_bind.mp h
    obtain ⟨rfl, rfl⟩ := returns_sysMalloc.mp h2
    cases hc : (s.alloc b .buffer).answer E 560 with
    | none =>
      rw [hc] at h
      exact Or.inr (Or.inl ⟨b, rfl, hc, h⟩)
    | some c =>
      rw [hc] at h
      obtain ⟨r', t, h3, h⟩ := returns_bind.mp h
      obtain ⟨_, t', h4, h⟩ := returns_bind.mp h
      obtain ⟨-, rfl⟩ := returns_sysFree.mp h4
      obtain ⟨_, t', h5, h⟩ := returns_bind.mp h
      obtain ⟨-, rfl⟩ := returns_sysFree.mp h5
      obtain ⟨rfl, rfl⟩ := returns_pure.mp h
      exact Or.inr (Or.inr ⟨b, c, t, rfl, hc, h3, rfl⟩)

end Buffers

/-! ## The blocks and the sectors -/

section Sectors

variable {s s' : Fs} {f left fuel : ℕ} {all : ℕ → ℕ}

/-- Byte `i` of a file. -/
def fileByte (d : Image) (ino : Inode) (i : ℕ) : UInt8 := d (512 * ino.blocks d (i / 512) + i % 512)

/-- The blocks from `lo`, which is a block of the file, to `hi`. -/
theorem returns_readBlocks {ino : Inode} {lo hi : ℕ} (hle : lo ≤ hi) (hlo : ino.blocks s.disk lo ≠ 0)
    (htable : ino.iSectors 12 ≤ maxLba) (hhi : hi < 140) :
    ∃ all, Returns (readBlocks ino lo hi) s all s ∧
      ∀ k, lo ≤ k → k ≤ hi → k < 12 ∨ ino.iSectors 12 ≠ 0 → all k = ino.blocks s.disk k := by
  have hdirect : ∀ m n k, m ≤ k → k ≤ n → k < 12 →
      ino.directFrom m n k = ino.blocks s.disk k := by
    intro m n k h1 h2 h3
    rw [Inode.directFrom, if_pos ⟨h1, h2⟩, Inode.blocks_of_lt h3]
  -- the entries of the table, whatever the direct part is
  have hread : ∀ dir : ℕ → ℕ, ∃ all, Returns (readTable (ino.iSectors 12) dir) s all s ∧
      ∀ k ≤ hi, k < 12 ∨ ino.iSectors 12 ≠ 0 →
        all k = if k < 12 then dir k else ino.blocks s.disk k := by
    intro dir
    refine ⟨_, returns_bind.mpr ⟨_, _, (returns_ideRead (by decide)).mpr
      ⟨htable, by decide, by decide, rfl, rfl⟩, returns_pure.mpr ⟨rfl, rfl⟩⟩, fun k hk h0 ↦ ?_⟩
    by_cases hk12 : k < 12
    · rw [if_pos hk12, if_pos hk12]
    · rw [if_neg hk12, if_neg hk12, Inode.blocks_of_table (by omega) (h0.resolve_left hk12), tableAt]
      refine le32_congr fun j _ ↦ ?_
      rw [Nat.add_assoc]
  have htab : 12 ≤ lo → ino.iSectors 12 ≠ 0 := fun h12 h0 ↦
    hlo (Inode.blocks_of_no_table h12 h0)
  rw [readBlocks]
  by_cases h12 : hi < 12
  · -- only direct blocks
    by_cases heq : lo = hi
    · rw [if_pos heq, if_pos h12]
      exact ⟨_, returns_pure.mpr ⟨rfl, rfl⟩,
        fun k h1 h2 _ ↦ hdirect _ _ k (by omega) h2 (by omega)⟩
    · rw [if_neg heq, if_pos h12]
      exact ⟨_, returns_pure.mpr ⟨rfl, rfl⟩, fun k h1 h2 _ ↦ hdirect _ _ k h1 h2 (by omega)⟩
  · by_cases heq : lo = hi
    · obtain ⟨all, hr, hall⟩ := hread fun _ ↦ 0
      rw [if_pos heq, if_neg h12, exists_congr fun _ ↦ and_congr_left' returns_check_bind]
      refine ⟨all, ⟨htab (by omega), hr⟩, fun k h1 h2 h0 ↦ ?_⟩
      rw [hall k h2 h0, if_neg (by omega)]
    · rw [if_neg heq, if_neg h12]
      by_cases hlo12 : lo < 12
      · obtain ⟨all, hr, hall⟩ := hread (ino.directFrom lo 11)
        rw [if_pos hlo12]
        refine ⟨all, hr, fun k h1 h2 h0 ↦ ?_⟩
        rw [hall k h2 h0]
        split_ifs with hk12
        · exact hdirect _ _ k h1 (by omega) hk12
        · rfl
      · obtain ⟨all, hr, hall⟩ := hread fun _ ↦ 0
        rw [if_neg hlo12, exists_congr fun _ ↦ and_congr_left' returns_check_bind]
        refine ⟨all, ⟨htab (by omega), hr⟩, fun k h1 h2 h0 ↦ ?_⟩
        rw [hall k h2 h0, if_neg (by omega)]

/-- The blocks are found without any change. -/
theorem readBlocks_same {ino : Inode} {lo hi : ℕ} (h : Returns (readBlocks ino lo hi) s all s') :
    s' = s := by
  have htable : ∀ dir, Returns (readTable (ino.iSectors 12) dir) s all s' → s' = s := by
    intro dir ht
    obtain ⟨b, t, h1, h2⟩ := returns_bind.mp ht
    obtain ⟨-, -, -, -, rfl⟩ := (returns_ideRead (by decide)).mp h1
    exact (returns_pure.mp h2).2
  rw [readBlocks] at h
  split_ifs at h
  · exact (returns_pure.mp h).2
  · exact htable _ (returns_check_bind.mp h).2
  · exact (returns_pure.mp h).2
  · exact htable _ h
  · exact htable _ (returns_check_bind.mp h).2

theorem Fs.seek_fdPos (n : ℕ) :
    ((s.seek f n).fileTable f).fdPos = ((s.fileTable f).fdPos + n) % 2 ^ 32 := by
  rw [Fs.seek, Fs.setFile_fileTable, Function.update_self]

theorem Fs.seek_zero (h : (s.fileTable f).fdPos < 2 ^ 32) : s.seek f 0 = s := by
  rw [Fs.seek, Nat.add_zero, Nat.mod_eq_of_lt h, Fs.setFile, Function.update_eq_self]

theorem Fs.seek_seek (m n : ℕ) : (s.seek f m).seek f n = s.seek f (m + n) := by
  have hpos : ((s.seek f m).fileTable f).fdPos = _ := Fs.seek_fdPos m
  rw [Fs.seek, hpos, Nat.mod_add_mod, Nat.add_assoc]
  simp only [Fs.seek, Fs.setFile, Function.update_self, Function.update_idem]

/-- **The loop over the sectors** collects the bytes from `fd_pos` on. -/
theorem readSectors_complete (bytesRead : ℕ) (out : Image) (hfuel : left ≤ fuel)
    (hroom : (s.fileTable f).fdPos + left ≤ 71680)
    (hall : ∀ k, (s.fileTable f).fdPos / 512 ≤ k → 512 * k < (s.fileTable f).fdPos + left →
      all k ≤ maxLba) :
    Returns (readSectors f all fuel bytesRead left out) s
      (splice out bytesRead left fun i ↦ s.disk
        (512 * all (((s.fileTable f).fdPos + i) / 512) + ((s.fileTable f).fdPos + i) % 512))
      (s.seek f left) := by
  induction fuel generalizing s bytesRead left out with
  | zero =>
    obtain rfl : left = 0 := by omega
    rw [readSectors, if_pos rfl, splice_zero, Fs.seek_zero (by omega)]
    exact returns_pure.mpr ⟨rfl, rfl⟩
  | succ fuel ih =>
    by_cases hleft : left = 0
    · subst hleft
      rw [readSectors, if_pos rfl, splice_zero, Fs.seek_zero (by omega)]
      exact returns_pure.mpr ⟨rfl, rfl⟩
    · set pos := (s.fileTable f).fdPos with hpos
      have hmod := Nat.mod_lt pos (show 0 < 512 by decide)
      set n := min left (512 - pos % 512) with hn
      have hseek : ((s.seek f n).fileTable f).fdPos = pos + n := by
        rw [Fs.seek_fdPos, ← hpos]
        exact Nat.mod_eq_of_lt (by omega)
      have hr := @ih (s.seek f n) (left - n) (bytesRead + n)
        (splice out bytesRead n fun i ↦ s.disk (512 * all (pos / 512) + (pos % 512 + i)))
        (by omega) (by rw [hseek]; omega)
        (by
          rw [hseek]
          exact fun k h1 h2 ↦ hall k (by omega) (by omega))
      rw [readSectors, if_neg hleft, returns_get_bind, returns_check_bind]
      refine ⟨by omega, returns_bind.mpr ⟨_, _, (returns_ideRead (by decide)).mpr
        ⟨hall _ (le_refl _) (by omega), by decide, by decide, rfl, rfl⟩, ?_⟩⟩
      rw [returns_modify_bind]
      -- the bytes of this sector
      have hbytes : ∀ i < n, s.disk (512 * all (pos / 512) + (pos % 512 + i))
          = s.disk (512 * all ((pos + i) / 512) + (pos + i) % 512) := by
        intro i hi
        have h1 : (pos + i) / 512 = pos / 512 := by omega
        have h2 : (pos + i) % 512 = pos % 512 + i := by omega
        rw [h1, h2]
      have hcat := splice_splice out
        (fun i ↦ s.disk (512 * all ((pos + i) / 512) + (pos + i) % 512)) bytesRead n (left - n)
      rw [show n + (left - n) = left by omega] at hcat
      rw [← hcat, ← splice_congr hbytes]
      rw [Fs.seek_seek, show n + (left - n) = left by omega, hseek] at hr
      simp only [Nat.add_assoc] at hr ⊢
      exact hr

/-- The loop does not run past the end of `all_blocks`. -/
theorem readSectors_sound {bytesRead : ℕ} {out out' : Image}
    (h : Returns (readSectors f all fuel bytesRead left out) s out' s') :
    left = 0 ∨ (s.fileTable f).fdPos + left ≤ 71680 := by
  induction fuel generalizing s bytesRead left out with
  | zero =>
    rw [readSectors] at h
    split_ifs at h with hleft
    · exact Or.inl hleft
    · exact absurd h returns_throw
  | succ fuel ih =>
    by_cases hleft : left = 0
    · exact Or.inl hleft
    · rw [readSectors, if_neg hleft, returns_get_bind, returns_check_bind] at h
      obtain ⟨hin, h⟩ := h
      obtain ⟨buf, t, h1, h⟩ := returns_bind.mp h
      obtain ⟨-, -, -, -, rfl⟩ := (returns_ideRead (by decide)).mp h1
      rw [returns_modify_bind] at h
      have hseek : ((t.seek f (min left (512 - (t.fileTable f).fdPos % 512))).fileTable f).fdPos
          = (t.fileTable f).fdPos + min left (512 - (t.fileTable f).fdPos % 512) :=
        (Fs.seek_fdPos _).trans (Nat.mod_eq_of_lt (by omega))
      have := ih h
      rw [hseek] at this
      omega

end Sectors

/-! ## One call -/

/-- The open file `f`, with the inode at `a`, can be read: the blocks up to the one behind the last
byte are on the disk, and so is the indirect table if there is one. -/
structure FileReadable (f a : ℕ) (s : Fs) : Prop where
  fd : (s.fileTable f).fdInode = some a
  live : s.heap a = some Blk.inode
  pos_le : (s.fileTable f).fdPos ≤ (s.inode a).iSize
  size_le : (s.inode a).iSize ≤ 71680
  blocks : ∀ k < 140, k ≤ (s.inode a).iSize / 512 →
    (s.inode a).blocks s.disk k ≠ 0 ∧ (s.inode a).blocks s.disk k ≤ maxLba
  table : (s.inode a).iSectors 12 ≤ maxLba

/-- The bytes there are from `fd_pos` on, at most `count`. -/
def Fs.bytesLeft (s : Fs) (f a count : ℕ) : ℕ :=
  min count ((s.inode a).iSize - (s.fileTable f).fdPos)

/-- What is expected of `file_read`. -/
def ReadsAs (E : Env) (f a : ℕ) (s : Fs) (count : ℕ) : Prop :=
  if (s.fileTable f).fdPos = (s.inode a).iSize ∧ 0 < count then
    ∃ s', Returns (fileRead E f count) s none s' ∧ s' = { s with tick := s'.tick }
  else
    ∃ out s', Returns (fileRead E f count) s (some (s.bytesLeft f a count, out)) s' ∧
      (∀ i < s.bytesLeft f a count,
        out i = fileByte s.disk (s.inode a) ((s.fileTable f).fdPos + i)) ∧
      (s'.fileTable f).fdPos = (s.fileTable f).fdPos + s.bytesLeft f a count

section Call

variable {E : Env} {s s' : Fs} {f a count : ℕ}

theorem FileReadable.ne_of_heap {b : ℕ} (h : FileReadable f a s) (hb : s.heap b = none) :
    a ≠ b := by
  rintro rfl
  rw [h.live] at hb
  cases hb

/-- A new block is not the inode of the file. -/
theorem FileReadable.alloc {b : ℕ} {k : Blk} (h : FileReadable f a s) (hb : s.heap b = none) :
    FileReadable f a (s.alloc b k) ∧ (s.alloc b k).inode a = s.inode a := by
  have hab := h.ne_of_heap hb
  have hino : (s.alloc b k).inode a = s.inode a := Function.update_of_ne hab ..
  refine ⟨⟨h.fd, (Function.update_of_ne hab ..).trans h.live, ?_, ?_, ?_, ?_⟩, hino⟩
  · rw [hino]
    exact h.pos_le
  · rw [hino]
    exact h.size_le
  · rw [hino]
    exact h.blocks
  · rw [hino]
    exact h.table

/-- The part of the call behind the buffers. -/
theorem FileReadable.returns_fileReadIn (h : FileReadable f a s) {n : ℕ}
    (hroom : (s.fileTable f).fdPos + count < 71168) (hn : n ≤ count)
    (hsize : (s.fileTable f).fdPos + n ≤ (s.inode a).iSize) :
    ∃ out, Returns (fileReadIn f a n count) s (some (n, out)) (s.seek f n) ∧
      ∀ i < n, out i = fileByte s.disk (s.inode a) ((s.fileTable f).fdPos + i) := by
  set pos := (s.fileTable f).fdPos with hpos
  have hle := h.size_le
  have hmod : (pos + count) % 2 ^ 32 = pos + count := Nat.mod_eq_of_lt (by omega)
  obtain ⟨all, hr, hall⟩ := @returns_readBlocks s (s.inode a) _ _
    (by omega : pos / 512 ≤ (pos + count) / 512) (h.blocks _ (by omega) (by omega)).1 h.table
    (by omega)
  -- the blocks that are read are blocks of the file
  have hblk : ∀ k, pos / 512 ≤ k → 512 * k < pos + n → all k = (s.inode a).blocks s.disk k ∧
      (s.inode a).blocks s.disk k ≤ maxLba := by
    intro k h1 h2
    obtain ⟨h0, hlba⟩ := h.blocks k (by omega) (by omega)
    refine ⟨hall k h1 (by omega) ?_, hlba⟩
    by_contra hno
    rw [not_or, not_not] at hno
    exact h0 (Inode.blocks_of_no_table (by omega) hno.2)
  have hloop := @readSectors_complete s f _ _ all 0 (fun _ ↦ 0) (le_refl n)
    (by omega) fun k h1 h2 ↦ (hblk k h1 h2).1 ▸ (hblk k h1 h2).2
  refine ⟨splice (fun _ ↦ 0) 0 n fun i ↦ s.disk (512 * all ((pos + i) / 512) + (pos + i) % 512), ?_,
    fun i hi ↦ ?_⟩
  · rw [fileReadIn, returns_get_bind]
    simp only [← hpos, hmod, returns_check_bind]
    refine ⟨⟨by omega, by omega⟩, ?_⟩
    refine returns_bind.mpr ⟨_, _, returns_inodeAt.mpr ⟨h.live, rfl, rfl⟩, ?_⟩
    refine returns_bind.mpr ⟨_, _, hr, ?_⟩
    exact returns_bind.mpr ⟨_, _, hloop, returns_pure.mpr ⟨rfl, rfl⟩⟩
  · rw [splice_of_mem (Nat.zero_le i) (by omega), Nat.sub_zero,
      (hblk ((pos + i) / 512) (by omega) (by omega)).1]
    rfl

/-- The two tests in front of the buffers. -/
theorem FileReadable.returns_fileRead_iff (h : FileReadable f a s) {r : Option (ℕ × Image)} :
    Returns (fileRead E f count) s r s' ↔
      Returns (
        if (s.inode a).iSize < ((s.fileTable f).fdPos + count) % 2 ^ 32 ∧
            (if (s.inode a).iSize < ((s.fileTable f).fdPos + count) % 2 ^ 32 then
              ((s.inode a).iSize + 2 ^ 32 - (s.fileTable f).fdPos) % 2 ^ 32 else count) = 0 then
          pure none
        else do
          match ← sysMalloc E Blk.buffer 512 with
          | none => pure none
          | some ioBuf =>
            match ← sysMalloc E Blk.buffer 560 with
            | none => pure none
            | some allBlocks => do
              let r ← fileReadIn f a
                (if (s.inode a).iSize < ((s.fileTable f).fdPos + count) % 2 ^ 32 then
                  ((s.inode a).iSize + 2 ^ 32 - (s.fileTable f).fdPos) % 2 ^ 32 else count) count
              sysFree E allBlocks
              sysFree E ioBuf
              pure r) s r s' := by
  have hfd : Returns (fdInodeOf f) s a s := returns_fdInodeOf.mpr ⟨h.fd, rfl⟩
  rw [fileRead, hfd.bind_iff, returns_inodeAt_bind h.live]
  exact returns_get_bind

/-- Without a wrap, the number of bytes is clipped to the end of the file. -/
theorem FileReadable.clipped (h : FileReadable f a s)
    (hroom : (s.fileTable f).fdPos + count < 2 ^ 32) :
    (if (s.inode a).iSize < ((s.fileTable f).fdPos + count) % 2 ^ 32 then
      ((s.inode a).iSize + 2 ^ 32 - (s.fileTable f).fdPos) % 2 ^ 32 else count)
      = s.bytesLeft f a count := by
  have h1 := h.pos_le
  have h2 := h.size_le
  rw [Nat.mod_eq_of_lt hroom, Fs.bytesLeft]
  split_ifs with hlt
  · rw [show (s.inode a).iSize + 2 ^ 32 - (s.fileTable f).fdPos
      = (s.inode a).iSize - (s.fileTable f).fdPos + 2 ^ 32 by omega, Nat.add_mod_right,
      Nat.mod_eq_of_lt (by omega)]
    omega
  · omega

/-- A call reads what there is, unless it asks for bytes behind block 138. -/
theorem FileReadable.returns_fileRead (h : FileReadable f a s)
    (hroom : (s.fileTable f).fdPos + count < 71168)
    (hnot : ¬((s.fileTable f).fdPos = (s.inode a).iSize ∧ 0 < count))
    (hheap : s.BuffersSupplied E) :
    ∃ out s', Returns (fileRead E f count) s (some (s.bytesLeft f a count, out)) s' ∧
      (∀ i < s.bytesLeft f a count,
        out i = fileByte s.disk (s.inode a) ((s.fileTable f).fdPos + i)) ∧
      (s'.fileTable f).fdPos = (s.fileTable f).fdPos + s.bytesLeft f a count := by
  obtain ⟨b, c, hb, hc⟩ := hheap
  obtain ⟨h₁, hino₁⟩ := h.alloc (k := Blk.buffer) (E.malloc_fresh hb)
  obtain ⟨h₂, hino₂⟩ := h₁.alloc (k := Blk.buffer) (E.malloc_fresh hc)
  have hino := hino₂.trans hino₁
  have hpos := h.pos_le
  have hsize := h.size_le
  have hleft : s.bytesLeft f a count ≤ count := Nat.min_le_left ..
  have hend : (s.fileTable f).fdPos + s.bytesLeft f a count ≤ (s.inode a).iSize := by
    rw [Fs.bytesLeft]
    omega
  obtain ⟨out, hr, hout⟩ := @FileReadable.returns_fileReadIn _ _ _ count h₂ (s.bytesLeft f a count)
    hroom hleft (hino ▸ hend)
  rw [hino] at hout
  refine ⟨out, ((((s.alloc b .buffer).alloc c .buffer).seek f (s.bytesLeft f a count)).free E
    c).free E b, h.returns_fileRead_iff.mpr ?_, hout, ?_⟩
  · rw [h.clipped (by omega), Nat.mod_eq_of_lt (by omega), if_neg (by rw [Fs.bytesLeft]; omega)]
    exact returns_buffers (pure none) hb hc hr rfl rfl
  · change ((((s.alloc b .buffer).alloc c .buffer).seek f _).fileTable f).fdPos = _
    rw [Fs.seek_fdPos]
    exact Nat.mod_eq_of_lt
      (show (s.fileTable f).fdPos + s.bytesLeft f a count < 2 ^ 32 by omega)

/-- A call that returns bytes had both buffers, and asked for no byte behind block 138. -/
theorem FileReadable.room_of_returns (h : FileReadable f a s) {n : ℕ} {out : Image}
    (hcount : count < 2 ^ 32) (hret : Returns (fileRead E f count) s (some (n, out)) s') :
    (s.fileTable f).fdPos + count < 71168 ∧ s.BuffersSupplied E := by
  have hpos := h.pos_le
  have hsize := h.size_le
  have hret := h.returns_fileRead_iff.mp hret
  rcases returns_ite.mp hret with ⟨-, hret⟩ | ⟨hnot, hret⟩
  · cases (returns_pure.mp hret).1
  · rcases buffers_cases hret with ⟨-, hret⟩ | ⟨b, -, -, hret⟩ | ⟨b, c, t, hb, hc, hret, -⟩
    · cases (returns_pure.mp hret).1
    · cases (returns_pure.mp hret).1
    · refine ⟨?_, b, c, hb, hc⟩
      have hfile : ((s.alloc b .buffer).alloc c .buffer).fileTable = s.fileTable := rfl
      rw [fileReadIn, returns_get_bind, returns_check_bind, hfile] at hret
      obtain ⟨⟨-, hhi⟩, hret⟩ := hret
      by_cases hwrap : (s.fileTable f).fdPos + count < 2 ^ 32
      · rw [Nat.mod_eq_of_lt hwrap] at hhi
        omega
      · -- the loop would have to read all the bytes up to the wrap
        have hle : ¬(s.inode a).iSize < ((s.fileTable f).fdPos + count) % 2 ^ 32 := by omega
        obtain ⟨ino, t₁, h1, hret⟩ := returns_bind.mp hret
        obtain ⟨-, -, rfl⟩ := returns_inodeAt.mp h1
        obtain ⟨all, t₂, h2, hret⟩ := returns_bind.mp hret
        obtain ⟨out, t₃, h3, -⟩ := returns_bind.mp hret
        rw [if_neg hle] at h3
        obtain rfl := readBlocks_same h2
        have hend := readSectors_sound h3
        rw [hfile] at hend
        omega

/-- **Reading.** A call does what is expected exactly in two cases. At the end of the file, if the
position and the number of bytes have no 32-bit wrap, or the heap refuses the first buffer. Elsewhere,
if no byte behind block 138 is asked for and the heap supplies both buffers. -/
theorem readsAs_iff (h : FileReadable f a s) (hcount : count < 2 ^ 32) :
    ReadsAs E f a s count ↔
      if (s.fileTable f).fdPos = (s.inode a).iSize ∧ 0 < count then
        (s.fileTable f).fdPos + count < 2 ^ 32 ∨ s.answer E 512 = none
      else (s.fileTable f).fdPos + count < 71168 ∧ s.BuffersSupplied E := by
  have hpos := h.pos_le
  have hsize := h.size_le
  rw [ReadsAs]
  by_cases hend : (s.fileTable f).fdPos = (s.inode a).iSize ∧ 0 < count
  · rw [if_pos hend, if_pos hend]
    obtain ⟨heq, h0⟩ := hend
    by_cases hwrap : (s.fileTable f).fdPos + count < 2 ^ 32
    · refine iff_of_true ⟨s, h.returns_fileRead_iff.mpr ?_, rfl⟩ (Or.inl hwrap)
      rw [h.clipped hwrap, Nat.mod_eq_of_lt hwrap, if_pos (by rw [Fs.bytesLeft]; omega)]
      exact returns_pure.mpr ⟨rfl, rfl⟩
    · have hlt : ¬(s.inode a).iSize < ((s.fileTable f).fdPos + count) % 2 ^ 32 := by omega
      constructor
      · rintro ⟨s', hret, hsame⟩
        have hret := h.returns_fileRead_iff.mp hret
        rw [if_neg fun hc ↦ hlt hc.1, if_neg hlt] at hret
        rcases buffers_cases hret with ⟨hb, -⟩ | ⟨b, hb, -, hret⟩ | ⟨b, c, t, -, -, hret, -⟩
        · exact Or.inr hb
        · -- the first buffer is lost
          obtain ⟨-, rfl⟩ := returns_pure.mp hret
          have hheap := congrArg (fun t ↦ t.heap b) hsame
          change Function.update s.heap b (some Blk.buffer) b = s.heap b at hheap
          rw [Function.update_self, E.malloc_fresh hb] at hheap
          cases hheap
        · rw [fileReadIn, returns_get_bind, returns_check_bind] at hret
          obtain ⟨ino, t₁, -, hret⟩ := returns_bind.mp hret.2
          obtain ⟨all, t₂, -, hret⟩ := returns_bind.mp hret
          obtain ⟨out, t₃, -, hret⟩ := returns_bind.mp hret
          cases (returns_pure.mp hret).1
      · rintro (hlt | hnone)
        · exact absurd hlt hwrap
        · refine ⟨s.answered .buffer none, h.returns_fileRead_iff.mpr ?_, rfl⟩
          rw [if_neg fun hc ↦ hlt hc.1]
          refine returns_bind.mpr ⟨_, _, returns_sysMalloc.mpr ⟨hnone.symm, rfl⟩, ?_⟩
          exact returns_pure.mpr ⟨rfl, rfl⟩
  · rw [if_neg hend, if_neg hend]
    constructor
    · rintro ⟨out, s', hret, -⟩
      exact h.room_of_returns hcount hret
    · rintro ⟨hroom, hheap⟩
      exact h.returns_fileRead hroom hend hheap

end Call

/-! ## A file of five bytes -/

/-- An open file with five bytes in block 1 of the data area. -/
def Fs.shortFile : Fs :=
  { Fs.blank with
    inode := fun _ ↦ ⟨1, 5, 1, false, fun k ↦ if k = 0 then 676 else 0⟩
    heap := fun i ↦ if i = kHeapStart then some Blk.inode else none
    tick := 1
    fileTable := fun _ ↦ ⟨0, 0, some kHeapStart⟩ }

theorem shortFile_readable : FileReadable 3 kHeapStart Fs.shortFile where
  fd := rfl
  live := rfl
  pos_le := by decide
  size_le := by decide
  blocks k _ hk := by
    obtain rfl : k = 0 := by
      have hsize : (Fs.shortFile.inode kHeapStart).iSize = 5 := rfl
      omega
    exact ⟨by decide, by decide⟩
  table := by decide

theorem readsAs_iff_shortFile : ReadsAs (Env.bump samplePartition) 3 kHeapStart Fs.shortFile 100 ↔
    if (Fs.shortFile.fileTable 3).fdPos = (Fs.shortFile.inode kHeapStart).iSize ∧ 0 < 100 then
      (Fs.shortFile.fileTable 3).fdPos + 100 < 2 ^ 32 ∨
        Fs.shortFile.answer (Env.bump samplePartition) 512 = none
    else (Fs.shortFile.fileTable 3).fdPos + 100 < 71168 ∧
      Fs.shortFile.BuffersSupplied (Env.bump samplePartition) :=
  readsAs_iff shortFile_readable (by decide)

/-- Asked for 71168 bytes, a call on this file stops at the assertion on the block indices. -/
theorem shortFile_not_readsAs : FileReadable 3 kHeapStart Fs.shortFile ∧
    ¬ReadsAs (Env.bump samplePartition) 3 kHeapStart Fs.shortFile 71168 := by
  refine ⟨shortFile_readable, fun h ↦ ?_⟩
  rw [ReadsAs, if_neg (by decide)] at h
  obtain ⟨out, s', hret, -⟩ := h
  have := (shortFile_readable.room_of_returns (by decide) hret).1
  revert this
  decide

end GlowOS
