import Mathlib
import GlowOS.Fs.Inode
import GlowOS.Fs.Mount

/-!
# The file system that formatting lays out

The regions that the super block describes follow each other inside the partition, whatever the size
of the partition. The block bitmap on the disk is another matter. The bits behind the data area are
set by bytes and then cleared by bits up to and including the bit of the last sector count, so the
first bit behind the data area is free as well. Only where the data area fills the last sector of
the bitmap to its end is there no such bit.
-/

namespace GlowOS

open Bytes Program

/-! ## Regions -/

/-- The first sector and the length of each region, in the order of the super block: boot sector,
super block, block bitmap, inode bitmap, inode table, data area. -/
def Partition.regions (p : Partition) : List (ℕ × ℕ) :=
  [(p.startLba, 1), (p.startLba + 1, 1), (p.sb.blockBitmapLba, p.sb.blockBitmapSects),
    (p.sb.inodeBitmapLba, p.sb.inodeBitmapSects), (p.sb.inodeTableLba, p.sb.inodeTableSects),
    (p.sb.dataStartLba, blockBitmapBitLen p.secCnt)]

/-- The block bitmap as it stands on the disk, all sectors of it. -/
def Fs.formattedBitmap (p : Partition) (s : Fs) : Bitmap :=
  ⟨512 * p.sb.blockBitmapSects, fun k ↦ s.disk (512 * p.sb.blockBitmapLba + k)⟩

/-- A sound file system on the disk. -/
structure Fs.SoundFormat (p : Partition) (s : Fs) : Prop where
  /-- The regions are in order and disjoint. -/
  ordered : p.regions.Pairwise fun r r' ↦ r.1 + r.2 ≤ r'.1
  /-- They lie inside the partition. -/
  inside : ∀ r ∈ p.regions, p.startLba ≤ r.1 ∧ r.1 + r.2 ≤ p.startLba + p.secCnt
  /-- A bit is free if it stands for a sector of the data area other than the first. -/
  bitmap : ∀ i < 8 * (s.formattedBitmap p).btmpBytesLen,
    (s.formattedBitmap p).bit i = false ↔
      0 < i ∧ p.sb.dataStartLba + i < p.sb.dataStartLba + blockBitmapBitLen p.secCnt

section Regions

variable {p : Partition}

/-- The metadata and the data area are at most as long as the partition. -/
theorem dataStartLba_add_le (hsb : p.sb = formatSuperBlock p.startLba p.secCnt)
    (hroom : 8 ≤ blockBitmapBitLen p.secCnt) :
    p.sb.dataStartLba + blockBitmapBitLen p.secCnt ≤ p.startLba + p.secCnt := by
  have hstart : p.sb.dataStartLba =
      p.startLba + divRoundUp (blockBitmapBitLen p.secCnt) 4096 + usedSects := by
    rw [hsb, usedSects_eq]
    change p.startLba + 1 + 1 + _ + 1 + 608 = _
    omega
  rw [hstart]
  -- the second rounding is over fewer sectors than the first, so it can only give less
  simp only [blockBitmapBitLen, usedSects_eq, divRoundUp] at hroom ⊢
  omega

theorem regions_ordered (hsb : p.sb = formatSuperBlock p.startLba p.secCnt) :
    p.regions.Pairwise fun r r' ↦ r.1 + r.2 ≤ r'.1 := by
  simp only [Partition.regions, hsb, formatSuperBlock, List.pairwise_cons, List.mem_cons,
    List.not_mem_nil, or_false, forall_eq_or_imp, forall_eq, List.Pairwise.nil]
  refine ⟨?_, ?_, ?_, ?_, ?_, nofun, trivial⟩ <;> omega

theorem regions_inside (hsb : p.sb = formatSuperBlock p.startLba p.secCnt)
    (hroom : 8 ≤ blockBitmapBitLen p.secCnt) :
    ∀ r ∈ p.regions, p.startLba ≤ r.1 ∧ r.1 + r.2 ≤ p.startLba + p.secCnt := by
  have hend := dataStartLba_add_le hsb hroom
  rw [hsb] at hend
  simp only [formatSuperBlock] at hend
  simp only [Partition.regions, hsb, formatSuperBlock, List.mem_cons, List.not_mem_nil, or_false,
    forall_eq_or_imp, forall_eq]
  omega

end Regions

/-! ## The bitmap in the buffer -/

theorem testBit_ff {j : ℕ} (hj : j < 8) : (0xff : UInt8).toNat.testBit j = true := by
  have hff : (0xff : UInt8).toNat = 2 ^ 8 - 1 := rfl
  rw [hff, Nat.testBit_two_pow_sub_one]
  simpa using hj

/-- Clearing the bits below `n` one after the other. -/
theorem testBit_clearBits (x : UInt8) {n j : ℕ} (hn : n ≤ 8) (hj : j < 8) :
    ((List.range n).foldl (fun byte j ↦ byte &&& UInt8.ofNat (255 ^^^ 1 <<< j)) x).toNat.testBit j
      = (x.toNat.testBit j && decide (n ≤ j)) := by
  induction n with
  | zero => simp
  | succ n ih =>
    have h255 : (255 : ℕ).testBit j = true := testBit_ff hj
    have hmask : (UInt8.ofNat (255 ^^^ 1 <<< n)).toNat.testBit j = !decide (n = j) := by
      rw [UInt8.toNat_ofNat', Nat.testBit_mod_two_pow, Nat.testBit_xor, h255, Nat.shiftLeft_eq,
        one_mul, Nat.testBit_two_pow]
      simp [hj]
    rw [List.range_succ, List.foldl_append, List.foldl_cons, List.foldl_nil, UInt8.toNat_and,
      Nat.testBit_and, ih (by omega), hmask, Bool.and_assoc]
    congr 1
    rw [Bool.eq_iff_iff]
    simp only [Bool.and_eq_true, decide_eq_true_eq, Bool.not_eq_true', decide_eq_false_iff_not]
    omega

/-- The bits that `partition_format` leaves free: one more than there are sectors. -/
theorem formatBlockBitmap_bit {secCnt i : ℕ} (len : ℕ) (hroom : 8 ≤ blockBitmapBitLen secCnt)
    (hi : i < 4096 * divRoundUp (blockBitmapBitLen secCnt) 4096) :
    (⟨len, formatBlockBitmap secCnt⟩ : Bitmap).bit i = false ↔
      0 < i ∧ i ≤ blockBitmapBitLen secCnt := by
  rw [divRoundUp] at hi
  rw [Bitmap.bit]
  simp only [formatBlockBitmap]
  generalize blockBitmapBitLen secCnt = n at hroom hi ⊢
  rcases Nat.lt_trichotomy (i / 8) (n / 8) with hlt | heq | hgt
  · -- in front of the last byte only the bit of the root directory is set
    rw [Function.update_of_ne (by omega), splice_of_lt hlt]
    by_cases h0 : i / 8 = 0
    · rw [if_pos h0]
      change Nat.testBit 1 (i % 8) = false ↔ _
      rw [← Bool.not_eq_true, Nat.testBit_one_eq_true_iff_self_eq_zero]
      omega
    · rw [if_neg h0]
      simp
      omega
  · -- the last byte was filled and is cleared again up to the bit `n % 8`
    rw [heq, Function.update_self, testBit_clearBits _ (by omega) (by omega),
      splice_of_mem (by omega) (by omega)]
    have hff : (0xff : UInt8).toNat.testBit (i % 8) = true := testBit_ff (by omega)
    rw [hff, Bool.true_and, decide_eq_false_iff_not]
    omega
  · -- behind it everything is set, to the end of the sector
    have hff : (0xff : UInt8).toNat.testBit (i % 8) = true := testBit_ff (by omega)
    rw [Function.update_of_ne (by omega), splice_of_mem (by omega) (by omega), hff]
    simp only [Bool.true_eq_false, false_iff]
    omega

/-! ## The bitmap on the disk -/

section Formatting

variable {E : Env} {s s' : Fs} {u : PUnit}

theorem returns_ideWrite_iff {lba room cnt : ℕ} {b : Image} :
    Returns (ideWrite lba room cnt b) s u s' ↔
      lba ≤ maxLba ∧ 0 < cnt ∧ 512 * cnt ≤ room ∧ lba + (cnt - 1) / 256 * 256 ≤ maxLba ∧
        s' = s.store (512 * lba) (512 * cnt) b := by
  simp only [ideWrite, returns_check_bind, returns_modify]

/-- `ide_write` changes the sectors it writes. -/
theorem ideWrite_store {lba room cnt : ℕ} {b : Image}
    (h : Returns (ideWrite lba room cnt b) s u s') :
    s' = s.store (512 * lba) (512 * cnt) b :=
  (returns_ideWrite_iff.mp h).2.2.2.2

/-- What `partition_format` writes behind the block bitmap does not reach back into it. -/
theorem partitionFormat_disk (hsb : E.part.sb = formatSuperBlock E.part.startLba E.part.secCnt)
    (h : Returns (partitionFormat E) s u s') {k : ℕ} (hk : k < 512 * E.part.sb.blockBitmapSects) :
    s'.disk (512 * E.part.sb.blockBitmapLba + k) = formatBlockBitmap E.part.secCnt k := by
  have hib : E.part.sb.inodeBitmapLba = E.part.sb.blockBitmapLba + E.part.sb.blockBitmapSects := by
    rw [hsb]
    rfl
  have hit : E.part.sb.inodeBitmapLba ≤ E.part.sb.inodeTableLba := by
    rw [hsb]
    exact Nat.le_add_right ..
  have hdata : E.part.sb.inodeBitmapLba ≤ E.part.sb.dataStartLba := by
    rw [hsb]
    exact (Nat.le_add_right ..).trans (Nat.le_add_right ..)
  obtain ⟨u₁, t₁, -, h⟩ := returns_bind.mp h
  obtain ⟨a, t₂, -, h⟩ := returns_bind.mp h
  obtain ⟨-, h⟩ := returns_check_bind.mp h
  obtain ⟨u₃, t₃, h3, h⟩ := returns_bind.mp h
  obtain ⟨u₄, t₄, h4, h⟩ := returns_bind.mp h
  obtain ⟨u₅, t₅, h5, h⟩ := returns_bind.mp h
  obtain ⟨u₆, t₆, h6, h⟩ := returns_bind.mp h
  obtain ⟨-, rfl⟩ := returns_sysFree.mp h
  change t₆.disk _ = _
  rw [ideWrite_store h6, Fs.store_disk, splice_of_lt (by omega), ideWrite_store h5, Fs.store_disk,
    splice_of_lt (by omega), ideWrite_store h4, Fs.store_disk, splice_of_lt (by omega),
    ideWrite_store h3, Fs.store_disk, splice_add, if_pos hk]

/-- The free bits on the disk: one more than there are sectors. -/
theorem formattedBitmap_bit (hsb : E.part.sb = formatSuperBlock E.part.startLba E.part.secCnt)
    (hroom : 8 ≤ blockBitmapBitLen E.part.secCnt) (h : Returns (partitionFormat E) s u s') {i : ℕ}
    (hi : i < 8 * (s'.formattedBitmap E.part).btmpBytesLen) :
    (s'.formattedBitmap E.part).bit i = false ↔ 0 < i ∧ i ≤ blockBitmapBitLen E.part.secCnt := by
  have hsects : E.part.sb.blockBitmapSects =
      divRoundUp (blockBitmapBitLen E.part.secCnt) 4096 := by
    rw [hsb]
    rfl
  have hi' : i < 8 * (512 * E.part.sb.blockBitmapSects) := hi
  rw [← formatBlockBitmap_bit 0 hroom (by rw [← hsects]; omega), Bitmap.bit, Bitmap.bit]
  have hbyte : (s'.formattedBitmap E.part).bits (i / 8) = formatBlockBitmap E.part.secCnt (i / 8) :=
    partitionFormat_disk hsb h (by omega)
  rw [hbyte]

/-- **What formatting lays out.** The file system is sound exactly if the data area fills the last
sector of its bitmap. -/
theorem soundFormat_iff (hsb : E.part.sb = formatSuperBlock E.part.startLba E.part.secCnt)
    (hroom : 8 ≤ blockBitmapBitLen E.part.secCnt) (h : Returns (partitionFormat E) s u s') :
    s'.SoundFormat E.part ↔ blockBitmapBitLen E.part.secCnt % 4096 = 0 := by
  have hlen : 8 * (s'.formattedBitmap E.part).btmpBytesLen =
      4096 * divRoundUp (blockBitmapBitLen E.part.secCnt) 4096 := by
    change 8 * (512 * E.part.sb.blockBitmapSects) = _
    rw [hsb, ← Nat.mul_assoc]
    rfl
  rw [divRoundUp] at hlen
  constructor
  · intro hs
    by_contra hne
    -- otherwise the bitmap has a bit for the first sector behind the data area
    have hbehind := (hs.bitmap (blockBitmapBitLen E.part.secCnt) (by omega)).mp
      ((formattedBitmap_bit hsb hroom h (by omega)).mpr ⟨by omega, le_refl _⟩)
    omega
  · intro hfull
    refine ⟨regions_ordered hsb, regions_inside hsb hroom, fun i hi ↦ ?_⟩
    rw [formattedBitmap_bit hsb hroom h hi]
    omega

/-- Formatting returns on every partition of the disk for which the heap has a buffer. -/
theorem returns_partitionFormat {a : ℕ}
    (hsb : E.part.sb = formatSuperBlock E.part.startLba E.part.secCnt)
    (hroom : 8 ≤ blockBitmapBitLen E.part.secCnt)
    (hdisk : E.part.startLba + E.part.secCnt ≤ maxLba + 1)
    (ha : s.answer E (formatBufSize E.part.sb) = some a) :
    ∃ s', Returns (partitionFormat E) s () s' := by
  have hend := dataStartLba_add_le hsb hroom
  have hmax : maxLba = 163839 := rfl
  have hlen : blockBitmapBitLen E.part.secCnt ≤ E.part.secCnt := by
    rw [blockBitmapBitLen, Nat.sub_sub]
    exact Nat.sub_le ..
  have hsects : E.part.sb.blockBitmapSects = (blockBitmapBitLen E.part.secCnt + 4095) / 4096 := by
    rw [hsb]
    rfl
  have hbb : E.part.sb.blockBitmapLba = E.part.startLba + 1 + 1 := by
    rw [hsb]
    rfl
  have hib : E.part.sb.inodeBitmapLba = E.part.sb.blockBitmapLba + E.part.sb.blockBitmapSects := by
    rw [hsb]
    rfl
  have hit : E.part.sb.inodeTableLba = E.part.sb.inodeBitmapLba + 1 := by
    rw [hsb]
    rfl
  have hds : E.part.sb.dataStartLba = E.part.sb.inodeTableLba + 608 := by
    rw [hsb]
    rfl
  have hsizes : E.part.sb.inodeBitmapSects = 1 ∧ E.part.sb.inodeTableSects = 608 := by
    rw [hsb]
    exact ⟨rfl, rfl⟩
  have hbuf : formatBufSize E.part.sb = 608 * 512 := by
    rw [formatBufSize, hsizes.1, hsizes.2, max_eq_right]
    exact max_le (by omega) (by omega)
  have hfree : s.cur.pgdir = none → kHeapStart ≤ a := fun hnull ↦
    (E.malloc_kernel ha).mp (by rw [hnull]; rfl)
  -- every write ends below the last sector of the disk
  have hwrite : ∀ {lba room cnt : ℕ} {b : Image} {t : Fs}, 0 < cnt → 512 * cnt ≤ room →
      lba + (cnt - 1) / 256 * 256 ≤ maxLba →
      Returns (ideWrite lba room cnt b) t () (t.store (512 * lba) (512 * cnt) b) :=
    fun h1 h2 h3 ↦
      returns_ideWrite_iff.mpr ⟨le_trans (Nat.le_add_right ..) h3, h1, h2, h3, rfl⟩
  have hdata : E.part.sb.dataStartLba ≤ maxLba := by omega
  rw [hmax] at hwrite
  refine exists_returns_bind (hwrite (by omega) (by omega) (by omega)) ?_
  refine exists_returns_bind (returns_sysMallocUnchecked.mpr ⟨ha, rfl⟩) ?_
  refine exists_returns_bind (returns_check (u := ()).mpr ⟨by omega, rfl⟩) ?_
  refine exists_returns_bind (hwrite (by omega) (by omega) (by omega)) ?_
  refine exists_returns_bind (hwrite (by omega) (by omega) (by omega)) ?_
  refine exists_returns_bind (hwrite (by omega) (by omega) (by omega)) ?_
  refine exists_returns_bind (hwrite (by omega) (by omega) hdata) ?_
  exact ⟨_, returns_sysFree.mpr ⟨hfree, rfl⟩⟩

/-- A partition whose data area fills the only sector of its block bitmap. -/
def tightPartition : Partition := ⟨63, 4709, formatSuperBlock 63 4709⟩

theorem soundFormat_iff_tightPartition :
    ∃ s', Returns (partitionFormat (Env.bump tightPartition)) Fs.blank () s' ∧
      (s'.SoundFormat tightPartition ↔ blockBitmapBitLen 4709 % 4096 = 0) := by
  obtain ⟨s', h⟩ := returns_partitionFormat (E := Env.bump tightPartition) (s := Fs.blank) rfl
    (by decide) (by decide) (a := kHeapStart) (by decide)
  exact ⟨s', h, soundFormat_iff rfl (by decide) h⟩

/-- On the sample partition the bit behind the data area is free. -/
theorem partitionFormat_not_soundFormat :
    ∃ s', Returns (partitionFormat (Env.bump samplePartition)) Fs.blank () s' ∧
      ¬ s'.SoundFormat samplePartition := by
  obtain ⟨s', h⟩ := returns_partitionFormat (E := Env.bump samplePartition) (s := Fs.blank) rfl
    (by decide) (by decide) (a := kHeapStart) (by decide)
  have hlt : 1388 < 8 * (s'.formattedBitmap samplePartition).btmpBytesLen :=
    show 1388 < 8 * (512 * samplePartition.sb.blockBitmapSects) by decide
  have hfree := (formattedBitmap_bit (E := Env.bump samplePartition) rfl (by decide) h hlt).mpr
    (by decide)
  refine ⟨s', h, fun hs ↦ ?_⟩
  have hbehind := ((hs.bitmap 1388 hlt).mp hfree).2
  exact absurd hbehind (by decide)

end Formatting

end GlowOS
