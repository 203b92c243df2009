import Mathlib
import GlowOS.Fs.State
import GlowOS.Lib.Program

/-!
# The partitions of a disk

`partition_scan` reads the master boot record of a disk and follows the chain of extended boot
records. It is recursive, and three global variables carry what one level tells another:
`ext_lba_base`, `p_no` and `l_no`. The caller `ide_init` clears the two counters behind each disk
but not the base, so a disk that has an extended entry leaves its base to the next one.

Sector numbers are 32-bit words. The buffer of a record is a value here; the heap has room for it.

`returns_partitionScan_chain` and `returns_partitionScan_extended` say when a scan comes back and in
which state.
-/

namespace GlowOS

open Program

/-! ## Data -/

/-- `struct partition_table_entry`, as far as it is read. -/
structure PartitionTableEntry where
  fsType : UInt8
  startLba : UInt32
  secCnt : UInt32

/-- A disk, with the partition table that each of its sectors holds. -/
structure Disk where
  /-- The number of the disk, which also tells its `prim_parts` and `logic_parts` from others. -/
  no : ℕ
  name : String
  partitionTable : UInt32 → Fin 4 → PartitionTableEntry

/-- The element `part_tag` of `prim_parts[i]` or `logic_parts[i]` of a disk. -/
inductive PartTag
  | prim (hd i : ℕ)
  | logic (hd i : ℕ)
  deriving DecidableEq, Repr

/-- What `partition_scan` writes to a `struct partition`. -/
structure PartInfo where
  startLba : UInt32
  secCnt : UInt32
  myDisk : ℕ
  name : String

/-- The global variables of `device/ide.c`, and the partitions of all disks. -/
structure Ide where
  extLbaBase : UInt32
  pNo : ℕ
  lNo : ℕ
  parts : PartTag → PartInfo
  partitionList : List PartTag

/-- Programs over the partitions. -/
abbrev IdeM := StateT Ide (Except Fault)

/-! ## The scan -/

/-- Fill in a partition and append it to `partition_list`. -/
def Ide.append (s : Ide) (t : PartTag) (i : PartInfo) : Ide :=
  { s with
    parts := Function.update s.parts t i
    partitionList := s.partitionList ++ [t] }

/-- The next primary partition, with its first sector and its size. -/
def Ide.addPrim (d : Disk) (s : Ide) (q : UInt32 × UInt32) : Ide :=
  { s.append (.prim d.no s.pNo) ⟨q.1, q.2, d.no, d.name ++ toString (s.pNo + 1)⟩ with
    pNo := s.pNo + 1 }

/-- The next logical partition, with its first sector and its size. -/
def Ide.addLogic (d : Disk) (s : Ide) (q : UInt32 × UInt32) : Ide :=
  { s.append (.logic d.no s.lNo) ⟨q.1, q.2, d.no, d.name ++ toString (s.lNo + 5)⟩ with
    lNo := s.lNo + 1 }

/-- The loop of `partition_scan` over the entries of the record at `extLba`; `scan` is the
recursive call. -/
def scanEntries (scan : UInt32 → IdeM PUnit) (d : Disk) (extLba : UInt32) :
    List PartitionTableEntry → IdeM PUnit
  | [] => pure ()
  | p :: ps => do
    if p.fsType = 5 then
      let s ← get
      if s.extLbaBase ≠ 0 then
        scan (p.startLba + s.extLbaBase)
        scanEntries scan d extLba ps
      else
        modify fun s ↦ { s with extLbaBase := p.startLba }
        scan p.startLba
        scanEntries scan d extLba ps
    else if p.fsType ≠ 0 then
      if extLba = 0 then
        let s ← get
        check Fault.bounds (s.pNo < 4)
        modify fun s ↦ s.addPrim d (extLba + p.startLba, p.secCnt)
        let s ← get
        check Fault.assert (s.pNo < 4)
        scanEntries scan d extLba ps
      else
        let s ← get
        check Fault.bounds (s.lNo < 8)
        modify fun s ↦ s.addLogic d (extLba + p.startLba, p.secCnt)
        let s ← get
        if 8 ≤ s.lNo then pure ()
        else scanEntries scan d extLba ps
    else
      scanEntries scan d extLba ps

/-- The four entries of the record at a sector. -/
def Disk.entries (d : Disk) (lba : UInt32) : List PartitionTableEntry :=
  List.ofFn (d.partitionTable lba)

/-- `partition_scan`, nested less than `fuel` deep. -/
def partitionScan (d : Disk) : ℕ → UInt32 → IdeM PUnit
  | 0, _ => throw Fault.hang
  | fuel + 1, extLba => do
    check Fault.assert (extLba.toNat ≤ maxLba)
    scanEntries (partitionScan d fuel) d extLba (d.entries extLba)

/-- What `ide_init` does with a disk: scan it and clear the counters. -/
def scanDisk (d : Disk) (fuel : ℕ) : IdeM PUnit := do
  partitionScan d fuel 0
  modify fun s ↦ { s with pNo := 0, lNo := 0 }

/-- The states in which `ide_init` comes to the disk number `hd`, with any disks behind it. -/
inductive Ide.Before (hd : ℕ) : Ide → Prop
  | init (s : Ide) : s.extLbaBase = 0 → s.pNo = 0 → s.lNo = 0 → s.partitionList = [] → Before hd s
  | disk {d : Disk} {fuel : ℕ} {s s' : Ide} :
      Before hd s → d.no ≠ hd → Returns (scanDisk d fuel) s () s' → Before hd s'

/-! ## What a disk describes -/

/-- The first sectors and the sizes of the partitions among the entries of the record at `lba`. -/
def found (lba : UInt32) (ps : List PartitionTableEntry) : List (UInt32 × UInt32) :=
  (ps.filter fun p ↦ p.fsType ≠ 0).map fun p ↦ (lba + p.startLba, p.secCnt)

/-- An extended boot record: its sector and its entries in front of and behind the link. -/
structure BootRecord where
  lba : UInt32
  front : List PartitionTableEntry
  back : List PartitionTableEntry

/-- The extended boot records from `lba` on. Sector 0 holds the master boot record and none of
them. -/
inductive Disk.Chain (d : Disk) (base : UInt32) : UInt32 → List BootRecord → Prop
  | last {lba : UInt32} : lba ≠ 0 → (∀ p ∈ d.entries lba, p.fsType ≠ 5) →
      Chain d base lba [⟨lba, d.entries lba, []⟩]
  | link {lba : UInt32} {front back : List PartitionTableEntry} {p : PartitionTableEntry}
      {rs : List BootRecord} : lba ≠ 0 → d.entries lba = front ++ p :: back → p.fsType = 5 →
      (∀ q ∈ front ++ back, q.fsType ≠ 5) → Chain d base (p.startLba + base) rs →
      Chain d base lba (⟨lba, front, back⟩ :: rs)

/-- The logical partitions of a chain, in the order of the slots. -/
def logicals : List BootRecord → List (UInt32 × UInt32)
  | [] => []
  | r :: rs => found r.lba r.front ++ logicals rs ++ found r.lba r.back

/-- The primary entries in front of the extended one, the chain it starts, and the primary entries
behind it. -/
inductive Disk.Describes (d : Disk) :
    List PartitionTableEntry → List BootRecord → List PartitionTableEntry → Prop
  | primary : (∀ p ∈ d.entries 0, p.fsType ≠ 5) → Describes d (d.entries 0) [] []
  | extended {front back : List PartitionTableEntry} {p : PartitionTableEntry}
      {rs : List BootRecord} : d.entries 0 = front ++ p :: back → p.fsType = 5 →
      (∀ q ∈ front ++ back, q.fsType ≠ 5) → d.Chain p.startLba p.startLba rs →
      Describes d front rs back

/-- An element of `prim_parts[0..3]` or `logic_parts[0..7]` of the disk `hd`. -/
def PartTag.InArrays (hd : ℕ) : PartTag → Prop
  | prim hd' i => hd' = hd ∧ i < 4
  | logic hd' i => hd' = hd ∧ i < 8

/-- The first sector and the size in a partition. -/
def Ide.place (s : Ide) (t : PartTag) : UInt32 × UInt32 :=
  ((s.parts t).startLba, (s.parts t).secCnt)

/-- The partitions `qs` were appended, in the elements `tags` and nowhere else. -/
structure Ide.Appended (s s' : Ide) (tags : List PartTag) (qs : List (UInt32 × UInt32)) :
    Prop where
  list : s'.partitionList = s.partitionList ++ tags
  nodup : tags.Nodup
  place : tags.map s'.place = qs
  rest : ∀ t ∉ tags, s'.parts t = s.parts t

/-- `partition_scan(hd, 0)` comes back and has appended the partitions `qs`, in elements of the
arrays. -/
def Disk.ScansAs (d : Disk) (s : Ide) (qs : List (UInt32 × UInt32)) : Prop :=
  ∃ fuel s' tags, Returns (partitionScan d fuel 0) s () s' ∧ s.Appended s' tags qs ∧
    ∀ t ∈ tags, t.InArrays d.no

/-- With `n` logical partitions still to be found, every record that is read lies in the range of
the driver, and no record above the one that has the last of them has another behind its link. -/
def Fits : ℕ → List BootRecord → Prop
  | _, [] => True
  | n, r :: rs => r.lba.toNat ≤ maxLba ∧
      (n ≤ (found r.lba r.front).length ∨
        Fits (n - (found r.lba r.front).length) rs ∧
          ((found r.lba r.front).length + (logicals rs).length < n ∨ found r.lba r.back = []))

/-! ## One entry -/

section Entries

variable {scan : UInt32 → IdeM PUnit} {d : Disk} {lba : UInt32} {p : PartitionTableEntry}
  {ps front rest back : List PartitionTableEntry} {s s' : Ide} {u : PUnit}

theorem scanEntries_unused (h : p.fsType = 0) :
    scanEntries scan d lba (p :: ps) = scanEntries scan d lba ps := by
  have h5 : p.fsType ≠ 5 := by
    rw [h]
    decide
  rw [scanEntries, if_neg h5, if_neg (not_not.mpr h)]

theorem returns_scanEntries_prim (h5 : p.fsType ≠ 5) (h0 : p.fsType ≠ 0) :
    Returns (scanEntries scan d 0 (p :: ps)) s u s' ↔ s.pNo + 1 < 4 ∧
      Returns (scanEntries scan d 0 ps) (s.addPrim d (0 + p.startLba, p.secCnt)) u s' := by
  rw [scanEntries, if_neg h5, if_pos h0, if_pos rfl, returns_get_bind, returns_check_bind,
    returns_modify_bind, returns_get_bind, returns_check_bind]
  constructor
  · rintro ⟨-, h⟩
    exact h
  · rintro ⟨h, h'⟩
    exact ⟨by omega, h, h'⟩

theorem returns_scanEntries_logic (hlba : lba ≠ 0) (h5 : p.fsType ≠ 5) (h0 : p.fsType ≠ 0) :
    Returns (scanEntries scan d lba (p :: ps)) s u s' ↔ s.lNo < 8 ∧
      (7 ≤ s.lNo ∧ s' = s.addLogic d (lba + p.startLba, p.secCnt) ∨
        s.lNo < 7 ∧ Returns (scanEntries scan d lba ps)
          (s.addLogic d (lba + p.startLba, p.secCnt)) u s') := by
  rw [scanEntries, if_neg h5, if_pos h0, if_neg hlba, returns_get_bind, returns_check_bind,
    returns_modify_bind, returns_get_bind, returns_ite, returns_pure]
  have hno : 8 ≤ (s.addLogic d (lba + p.startLba, p.secCnt)).lNo ↔ 7 ≤ s.lNo :=
    Nat.succ_le_succ_iff
  rw [hno, not_le]
  refine and_congr_right fun _ ↦ or_congr (and_congr_right fun _ ↦ ?_) Iff.rfl
  exact ⟨fun h ↦ h.2, fun h ↦ ⟨rfl, h⟩⟩

theorem returns_scanEntries_link (h5 : p.fsType = 5) (hbase : s.extLbaBase ≠ 0) :
    Returns (scanEntries scan d lba (p :: ps)) s u s' ↔
      ∃ t, Returns (scan (p.startLba + s.extLbaBase)) s () t ∧
        Returns (scanEntries scan d lba ps) t u s' := by
  rw [scanEntries, if_pos h5, returns_get_bind, if_pos hbase, returns_bind]
  exact ⟨fun ⟨_, t, h⟩ ↦ ⟨t, h⟩, fun ⟨t, h⟩ ↦ ⟨(), t, h⟩⟩

theorem returns_scanEntries_extended (h5 : p.fsType = 5) (hbase : s.extLbaBase = 0) :
    Returns (scanEntries scan d lba (p :: ps)) s u s' ↔
      ∃ t, Returns (scan p.startLba) { s with extLbaBase := p.startLba } () t ∧
        Returns (scanEntries scan d lba ps) t u s' := by
  rw [scanEntries, if_pos h5, returns_get_bind, if_neg (not_not.mpr hbase), returns_modify_bind,
    returns_bind]
  exact ⟨fun ⟨_, t, h⟩ ↦ ⟨t, h⟩, fun ⟨t, h⟩ ↦ ⟨(), t, h⟩⟩

/-! ## The entries of one record -/

theorem found_cons_unused (h : p.fsType = 0) : found lba (p :: ps) = found lba ps := by
  simp [found, h]

theorem found_cons (h : p.fsType ≠ 0) :
    found lba (p :: ps) = (lba + p.startLba, p.secCnt) :: found lba ps := by
  simp [found, h]

/-- Several primary partitions. -/
def Ide.addPrims (d : Disk) (s : Ide) (qs : List (UInt32 × UInt32)) : Ide :=
  qs.foldl (Ide.addPrim d) s

/-- Several logical partitions. -/
def Ide.addLogics (d : Disk) (s : Ide) (qs : List (UInt32 × UInt32)) : Ide :=
  qs.foldl (Ide.addLogic d) s

@[simp] theorem Ide.addPrims_pNo (qs : List (UInt32 × UInt32)) :
    (s.addPrims d qs).pNo = s.pNo + qs.length := by
  induction qs generalizing s with
  | nil => rfl
  | cons q qs ih =>
    change ((s.addPrim d q).addPrims d qs).pNo = _
    rw [ih, List.length_cons]
    change s.pNo + 1 + qs.length = _
    omega

@[simp] theorem Ide.addPrims_lNo (qs : List (UInt32 × UInt32)) :
    (s.addPrims d qs).lNo = s.lNo := by
  induction qs generalizing s with
  | nil => rfl
  | cons q qs ih => exact ih

@[simp] theorem Ide.addPrims_extLbaBase (qs : List (UInt32 × UInt32)) :
    (s.addPrims d qs).extLbaBase = s.extLbaBase := by
  induction qs generalizing s with
  | nil => rfl
  | cons q qs ih => exact ih

@[simp] theorem Ide.addLogics_lNo (qs : List (UInt32 × UInt32)) :
    (s.addLogics d qs).lNo = s.lNo + qs.length := by
  induction qs generalizing s with
  | nil => rfl
  | cons q qs ih =>
    change ((s.addLogic d q).addLogics d qs).lNo = _
    rw [ih, List.length_cons]
    change s.lNo + 1 + qs.length = _
    omega

@[simp] theorem Ide.addLogics_pNo (qs : List (UInt32 × UInt32)) :
    (s.addLogics d qs).pNo = s.pNo := by
  induction qs generalizing s with
  | nil => rfl
  | cons q qs ih => exact ih

@[simp] theorem Ide.addLogics_extLbaBase (qs : List (UInt32 × UInt32)) :
    (s.addLogics d qs).extLbaBase = s.extLbaBase := by
  induction qs generalizing s with
  | nil => rfl
  | cons q qs ih => exact ih

theorem Ide.addLogics_append (qs qs' : List (UInt32 × UInt32)) :
    s.addLogics d (qs ++ qs') = (s.addLogics d qs).addLogics d qs' := List.foldl_append

/-- The primary entries in front of the extended one, or all of them. -/
theorem returns_scanEntries_prims (hp : s.pNo < 4) (hfront : ∀ q ∈ front, q.fsType ≠ 5) :
    Returns (scanEntries scan d 0 (front ++ rest)) s u s' ↔
      s.pNo + (found 0 front).length < 4 ∧
        Returns (scanEntries scan d 0 rest) (s.addPrims d (found 0 front)) u s' := by
  induction front generalizing s with
  | nil => exact ⟨fun h ↦ ⟨hp, h⟩, fun h ↦ h.2⟩
  | cons p ps ih =>
    obtain ⟨h5, hps⟩ := List.forall_mem_cons.mp hfront
    rw [List.cons_append]
    by_cases h0 : p.fsType = 0
    · rw [scanEntries_unused h0, found_cons_unused h0, ih hp hps]
    · rw [returns_scanEntries_prim h5 h0, found_cons h0, List.length_cons]
      constructor
      · rintro ⟨hlt, h⟩
        obtain ⟨hlen, h⟩ := (ih (s := s.addPrim d _) hlt hps).mp h
        change s.pNo + 1 + _ < 4 at hlen
        exact ⟨by omega, h⟩
      · rintro ⟨hlen, h⟩
        refine ⟨by omega, (ih (s := s.addPrim d _) ?_ hps).mpr ⟨?_, h⟩⟩
        · change s.pNo + 1 < 4
          omega
        · change s.pNo + 1 + _ < 4
          omega

/-- The logical entries in front of the link, if there are not enough to fill `logic_parts`. -/
theorem returns_scanEntries_few (hlba : lba ≠ 0) (hfront : ∀ q ∈ front, q.fsType ≠ 5)
    (hlen : s.lNo + (found lba front).length < 8) :
    Returns (scanEntries scan d lba (front ++ rest)) s u s' ↔
      Returns (scanEntries scan d lba rest) (s.addLogics d (found lba front)) u s' := by
  induction front generalizing s with
  | nil => rfl
  | cons p ps ih =>
    obtain ⟨h5, hps⟩ := List.forall_mem_cons.mp hfront
    rw [List.cons_append]
    by_cases h0 : p.fsType = 0
    · rw [found_cons_unused h0] at hlen ⊢
      rw [scanEntries_unused h0, ih hps hlen]
    · rw [found_cons h0, List.length_cons] at hlen
      rw [returns_scanEntries_logic hlba h5 h0, found_cons h0, ih (s := s.addLogic d _) hps
        (by change s.lNo + 1 + _ < 8; omega)]
      constructor
      · rintro ⟨-, ⟨h, -⟩ | ⟨-, h⟩⟩
        · omega
        · exact h
      · intro h
        exact ⟨by omega, .inr ⟨by omega, h⟩⟩

/-- The logical entries of a record that fill `logic_parts`: the scan of the record ends there. -/
theorem returns_scanEntries_full (hlba : lba ≠ 0) (hfront : ∀ q ∈ front, q.fsType ≠ 5)
    (hl : s.lNo < 8) (hlen : 8 ≤ s.lNo + (found lba front).length) :
    Returns (scanEntries scan d lba (front ++ rest)) s u s' ↔
      s' = s.addLogics d ((found lba front).take (8 - s.lNo)) := by
  induction front generalizing s with
  | nil =>
    change 8 ≤ s.lNo + 0 at hlen
    omega
  | cons p ps ih =>
    obtain ⟨h5, hps⟩ := List.forall_mem_cons.mp hfront
    rw [List.cons_append]
    by_cases h0 : p.fsType = 0
    · rw [found_cons_unused h0] at hlen ⊢
      rw [scanEntries_unused h0, ih hps hl hlen]
    · rw [found_cons h0, List.length_cons] at hlen
      obtain ⟨k, hk⟩ : ∃ k, 8 - s.lNo = k + 1 := ⟨7 - s.lNo, by omega⟩
      rw [returns_scanEntries_logic hlba h5 h0, found_cons h0, hk, List.take_succ_cons]
      change _ ↔ s' = (s.addLogic d _).addLogics d _
      rcases Nat.lt_or_ge s.lNo 7 with hlt | hge
      · have hk' : 8 - (s.addLogic d (lba + p.startLba, p.secCnt)).lNo = k := by
          change 8 - (s.lNo + 1) = k
          omega
        rw [ih (s := s.addLogic d _) hps (by change s.lNo + 1 < 8; omega)
          (by change 8 ≤ s.lNo + 1 + _; omega), hk']
        constructor
        · rintro ⟨-, ⟨h, -⟩ | ⟨-, h⟩⟩
          · omega
          · exact h
        · intro h
          exact ⟨hl, .inr ⟨hlt, h⟩⟩
      · have hk0 : k = 0 := by omega
        subst hk0
        constructor
        · rintro ⟨-, ⟨-, h⟩ | ⟨h, -⟩⟩
          · exact h
          · omega
        · intro h
          exact ⟨hl, .inl ⟨hge, h⟩⟩

/-- Behind a full `logic_parts` a record may have no logical entry. -/
theorem returns_scanEntries_behind (hlba : lba ≠ 0) (hback : ∀ q ∈ back, q.fsType ≠ 5)
    (hl : 8 ≤ s.lNo) :
    Returns (scanEntries scan d lba back) s u s' ↔ found lba back = [] ∧ s' = s := by
  induction back with
  | nil => simp [scanEntries, found]
  | cons p ps ih =>
    obtain ⟨h5, hps⟩ := List.forall_mem_cons.mp hback
    by_cases h0 : p.fsType = 0
    · rw [scanEntries_unused h0, found_cons_unused h0, ih hps]
    · rw [returns_scanEntries_logic hlba h5 h0, found_cons h0]
      simp only [reduceCtorEq, false_and, iff_false]
      omega

/-- A record without link, or the rest of one behind its link. -/
theorem returns_scanEntries_back (hlba : lba ≠ 0) (hback : ∀ q ∈ back, q.fsType ≠ 5) :
    Returns (scanEntries scan d lba back) s u s' ↔
      (s.lNo < 8 ∨ found lba back = []) ∧
        s' = s.addLogics d ((found lba back).take (8 - s.lNo)) := by
  rcases Nat.lt_or_ge s.lNo 8 with hlt | hge
  · rw [← List.append_nil back]
    rcases Nat.lt_or_ge (s.lNo + (found lba back).length) 8 with hfew | hfull
    · rw [returns_scanEntries_few hlba hback hfew, List.append_nil,
        List.take_of_length_le (by omega)]
      simp [scanEntries, hlt]
    · rw [returns_scanEntries_full hlba hback hlt hfull, List.append_nil]
      simp [hlt]
  · rw [returns_scanEntries_behind hlba hback hge, Nat.sub_eq_zero_of_le hge, List.take_zero]
    simp [hge, Ide.addLogics]

end Entries

/-! ## A chain of records -/

section Chains

variable {d : Disk} {base lba : UInt32} {rs : List BootRecord} {s s' : Ide} {u : PUnit} {fuel : ℕ}

theorem Disk.Chain.lba_ne (h : d.Chain base lba rs) : lba ≠ 0 := by
  cases h with
  | last h0 _ => exact h0
  | link h0 _ _ _ _ => exact h0

theorem returns_partitionScan :
    Returns (partitionScan d (fuel + 1) lba) s u s' ↔ lba.toNat ≤ maxLba ∧
      Returns (scanEntries (partitionScan d fuel) d lba (d.entries lba)) s u s' := by
  rw [partitionScan, returns_check_bind]

/-- What comes behind the link of a record, once the records below it are done. -/
theorem take_logicals {n : ℕ} {r : BootRecord} (h : (found r.lba r.front).length < n) :
    (logicals (r :: rs)).take n = found r.lba r.front ++
      (logicals rs).take (n - (found r.lba r.front).length) ++ (found r.lba r.back).take
        (n - (found r.lba r.front).length - (logicals rs).length) := by
  rw [logicals, List.take_append, List.take_append, List.take_of_length_le h.le, List.append_assoc,
    List.append_assoc, List.length_append, Nat.sub_sub]

/-- The state behind a record whose link was followed. -/
theorem addLogics_logicals {r : BootRecord} (h : s.lNo + (found r.lba r.front).length < 8) :
    s.addLogics d ((logicals (r :: rs)).take (8 - s.lNo)) =
      (((s.addLogics d (found r.lba r.front)).addLogics d ((logicals rs).take
        (8 - (s.addLogics d (found r.lba r.front)).lNo))).addLogics d
          ((found r.lba r.back).take (8 - ((s.addLogics d (found r.lba r.front)).addLogics d
            ((logicals rs).take (8 - (s.addLogics d (found r.lba r.front)).lNo))).lNo))) := by
  have hfront : (s.addLogics d (found r.lba r.front)).lNo = s.lNo + (found r.lba r.front).length :=
    Ide.addLogics_lNo _
  have hrest : ((s.addLogics d (found r.lba r.front)).addLogics d
      ((logicals rs).take (8 - (s.addLogics d (found r.lba r.front)).lNo))).lNo =
        s.lNo + (found r.lba r.front).length +
          min (8 - s.lNo - (found r.lba r.front).length) (logicals rs).length := by
    rw [Ide.addLogics_lNo, List.length_take, hfront, Nat.sub_sub]
  have hback : 8 - (s.lNo + (found r.lba r.front).length +
      min (8 - s.lNo - (found r.lba r.front).length) (logicals rs).length) =
        8 - s.lNo - (found r.lba r.front).length - (logicals rs).length := by omega
  rw [hrest, hback, take_logicals (by omega), Ide.addLogics_append, Ide.addLogics_append, hfront,
    Nat.sub_sub]

/-- A chain is scanned to the end, or to its eighth logical partition, exactly if it fits. The
levels above pass on what the levels below did, so the induction is over the chain. -/
theorem returns_partitionScan_chain (hc : d.Chain base lba rs) (hbase : base ≠ 0)
    (he : s.extLbaBase = base) (hl : s.lNo < 8) (hfuel : rs.length ≤ fuel) :
    Returns (partitionScan d fuel lba) s u s' ↔
      Fits (8 - s.lNo) rs ∧ s' = s.addLogics d ((logicals rs).take (8 - s.lNo)) := by
  induction hc generalizing s s' u fuel with
  | @last lba h0 hlast =>
    obtain ⟨fuel, rfl⟩ := Nat.exists_eq_succ_of_ne_zero (Nat.one_le_iff_ne_zero.mp hfuel)
    have hlogicals : logicals [⟨lba, d.entries lba, []⟩] = found lba (d.entries lba) := by
      simp [logicals, found]
    rw [returns_partitionScan, returns_scanEntries_back h0 hlast, hlogicals]
    simp only [Fits, true_and, hl, true_or]
    have hback : found lba [] = [] := rfl
    simp only [hback, or_true, and_true]
  | @link lba front back p rs h0 hentries h5 hno hc ih =>
    obtain ⟨fuel, rfl⟩ := Nat.exists_eq_succ_of_ne_zero (Nat.ne_of_gt (Nat.lt_of_lt_of_le
      (Nat.succ_pos _) hfuel))
    have hfront : ∀ q ∈ front, q.fsType ≠ 5 := fun q hq ↦ hno q (List.mem_append_left _ hq)
    have hback : ∀ q ∈ back, q.fsType ≠ 5 := fun q hq ↦ hno q (List.mem_append_right _ hq)
    rw [returns_partitionScan, hentries]
    rcases Nat.lt_or_ge (s.lNo + (found lba front).length) 8 with hfew | hfull
    · have hfuel' : rs.length ≤ fuel := Nat.le_of_succ_le_succ hfuel
      have hlNo : (s.addLogics d (found lba front)).lNo = s.lNo + (found lba front).length :=
        Ide.addLogics_lNo _
      have hext : (s.addLogics d (found lba front)).extLbaBase = base :=
        (Ide.addLogics_extLbaBase _).trans he
      have hsub : 8 - s.lNo - (found lba front).length =
          8 - (s.addLogics d (found lba front)).lNo := by omega
      rw [returns_scanEntries_few h0 hfront hfew, returns_scanEntries_link h5 (hext ▸ hbase), hext,
        addLogics_logicals (r := ⟨lba, front, back⟩) hfew]
      simp only [ih hext (by omega) hfuel', returns_scanEntries_back h0 hback, Fits, hsub]
      have hle : ¬8 - s.lNo ≤ (found lba front).length := by omega
      simp only [hle, false_or]
      constructor
      · rintro ⟨hlba, t, ⟨hfits, rfl⟩, hroom, rfl⟩
        rw [Ide.addLogics_lNo, List.length_take, hlNo] at hroom
        exact ⟨⟨hlba, hfits, hroom.imp_left fun h ↦ by omega⟩, rfl⟩
      · rintro ⟨⟨hlba, hfits, hroom⟩, rfl⟩
        refine ⟨hlba, _, ⟨hfits, rfl⟩, hroom.imp_left fun h ↦ ?_, rfl⟩
        rw [Ide.addLogics_lNo, List.length_take, hlNo]
        omega
    · have hle : 8 - s.lNo ≤ (found lba front).length := by omega
      rw [returns_scanEntries_full h0 hfront hl hfull, logicals, List.append_assoc,
        List.take_append_of_le_length hle]
      simp only [Fits, hle, true_or, and_true]

/-- A loop that ends with one recursive call ends the same way with a call that ends more often. -/
theorem scanEntries_mono {scan scan' : UInt32 → IdeM PUnit} {ps : List PartitionTableEntry}
    (hscan : ∀ {lba : UInt32} {s s' : Ide} {u : PUnit},
      Returns (scan lba) s u s' → Returns (scan' lba) s u s')
    (h : Returns (scanEntries scan d lba ps) s u s') :
    Returns (scanEntries scan' d lba ps) s u s' := by
  induction ps generalizing s u with
  | nil => exact h
  | cons p ps ih =>
    by_cases h5 : p.fsType = 5
    · by_cases hbase : s.extLbaBase = 0
      · rw [returns_scanEntries_extended h5 hbase] at h ⊢
        obtain ⟨t, h1, h2⟩ := h
        exact ⟨t, hscan h1, ih h2⟩
      · rw [returns_scanEntries_link h5 hbase] at h ⊢
        obtain ⟨t, h1, h2⟩ := h
        exact ⟨t, hscan h1, ih h2⟩
    · by_cases h0 : p.fsType = 0
      · rw [scanEntries_unused h0] at h ⊢
        exact ih h
      · by_cases hlba : lba = 0
        · subst hlba
          rw [returns_scanEntries_prim h5 h0] at h ⊢
          exact ⟨h.1, ih h.2⟩
        · rw [returns_scanEntries_logic hlba h5 h0] at h ⊢
          exact ⟨h.1, h.2.imp_right fun hrest ↦ ⟨hrest.1, ih hrest.2⟩⟩

/-- A scan that ends with little fuel ends the same way with more. -/
theorem partitionScan_mono {fuel' : ℕ} (hle : fuel ≤ fuel')
    (h : Returns (partitionScan d fuel lba) s u s') :
    Returns (partitionScan d fuel' lba) s u s' := by
  induction fuel generalizing fuel' lba s s' u with
  | zero => exact absurd h returns_throw
  | succ fuel ih =>
    obtain ⟨k, rfl⟩ := Nat.exists_eq_succ_of_ne_zero (Nat.ne_of_gt (Nat.lt_of_lt_of_le
      (Nat.succ_pos _) hle))
    rw [returns_partitionScan] at h ⊢
    exact ⟨h.1, scanEntries_mono (ih (Nat.le_of_succ_le_succ hle)) h.2⟩

end Chains

end GlowOS
