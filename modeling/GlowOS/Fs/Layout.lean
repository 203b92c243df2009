import Mathlib
import GlowOS.Fs.State

/-!
# The layout of a partition

The super block that `partition_format` computes from the start and the size of a partition, and the
order of the regions it describes: boot sector, super block, block bitmap, inode bitmap, inode
table, data area.
-/

namespace GlowOS

/-- `DIV_ROUND_UP`. -/
def divRoundUp (x step : ℕ) : ℕ := (x + step - 1) / step

/-- The sectors of the inode table. -/
def inodeTableSects : ℕ := divRoundUp (76 * 4096) 512

/-- The sectors in use before the block bitmap is counted. -/
def usedSects : ℕ := 1 + 1 + divRoundUp 4096 4096 + inodeTableSects

/-- The number of bits of the block bitmap that stand for sectors of the partition. -/
def blockBitmapBitLen (secCnt : ℕ) : ℕ :=
  secCnt - usedSects - divRoundUp (secCnt - usedSects) 4096

/-- The super block written by `partition_format`. -/
def formatSuperBlock (startLba secCnt : ℕ) : SuperBlock :=
  let blockBitmapSects := divRoundUp (blockBitmapBitLen secCnt) 4096
  let inodeBitmapSects := divRoundUp 4096 4096
  { magic := 0x19590318
    secCnt := secCnt
    inodeCnt := 4096
    partLbaBase := startLba
    blockBitmapLba := startLba + 1 + 1
    blockBitmapSects := blockBitmapSects
    inodeBitmapLba := startLba + 1 + 1 + blockBitmapSects
    inodeBitmapSects := inodeBitmapSects
    inodeTableLba := startLba + 1 + 1 + blockBitmapSects + inodeBitmapSects
    inodeTableSects := inodeTableSects
    dataStartLba := startLba + 1 + 1 + blockBitmapSects + inodeBitmapSects + inodeTableSects
    rootInodeNo := 0
    dirEntrySize := 24 }

/-- A partition of the disk with room for the metadata and eight data sectors, mounted after
`partition_format`. -/
structure Partition.Formatted (p : Partition) : Prop where
  sb : p.sb = formatSuperBlock p.startLba p.secCnt
  start : 0 < p.startLba
  room : usedSects + 1 + 8 ≤ p.secCnt
  onDisk : p.startLba + p.secCnt ≤ maxLba + 1

/-- The least partition that can be formatted, behind the first track. -/
def smallPartition : Partition := ⟨63, 620, formatSuperBlock 63 620⟩

theorem inodeTableSects_eq : inodeTableSects = 608 := rfl

theorem usedSects_eq : usedSects = 611 := rfl

theorem smallPartition_formatted : smallPartition.Formatted :=
  ⟨rfl, by decide, by decide, by decide⟩

/-- A partition with 1388 data sectors, from sector 675 on. -/
def samplePartition : Partition := ⟨63, 2000, formatSuperBlock 63 2000⟩

theorem samplePartition_formatted : samplePartition.Formatted :=
  ⟨rfl, by decide, by decide, by decide⟩

namespace Partition.Formatted

variable {p : Partition} (h : p.Formatted)
include h

theorem dirEntrySize_eq : p.sb.dirEntrySize = 24 := by
  rw [h.sb]
  rfl

theorem blockBitmapLba_eq : p.sb.blockBitmapLba = p.startLba + 2 := by
  rw [h.sb]
  rfl

theorem inodeBitmapLba_eq :
    p.sb.inodeBitmapLba = p.startLba + 2 + p.sb.blockBitmapSects := by
  rw [h.sb]
  rfl

theorem inodeBitmapSects_eq : p.sb.inodeBitmapSects = 1 := by
  rw [h.sb]
  rfl

theorem inodeTableLba_eq : p.sb.inodeTableLba = p.sb.inodeBitmapLba + 1 := by
  rw [h.sb]
  rfl

theorem dataStartLba_eq : p.sb.dataStartLba = p.sb.inodeTableLba + 608 := by
  rw [h.sb]
  rfl

/-- The metadata ends inside the partition. -/
theorem dataStartLba_lt : p.sb.dataStartLba < p.startLba + p.secCnt := by
  have hbits : p.sb.blockBitmapSects = divRoundUp (blockBitmapBitLen p.secCnt) 4096 := by
    rw [h.sb]
    rfl
  have hroom := h.room
  rw [usedSects_eq] at hroom
  rw [h.dataStartLba_eq, h.inodeTableLba_eq, h.inodeBitmapLba_eq, hbits, blockBitmapBitLen,
    usedSects_eq]
  simp only [divRoundUp]
  omega

theorem dataStartLba_le_maxLba : p.sb.dataStartLba ≤ maxLba := by
  have h1 := h.dataStartLba_lt
  have h2 := h.onDisk
  omega

end Partition.Formatted

end GlowOS
