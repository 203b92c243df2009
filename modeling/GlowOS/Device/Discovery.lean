import Mathlib
import GlowOS.Device.Partitions

/-!
# Partition discovery

What a scan of a disk appends to `partition_list`, for the disks that describe a finite chain of
extended boot records. The elements are collected with the partitions they hold, and one scan after
the other adds to them; the rest of the arrays stays as it is.

A disk with an extended entry leaves `ext_lba_base` behind. `exists_before_far` gives a history
whose base leads the next such disk out of the range of the driver.
-/

namespace GlowOS

open Program

/-! ## What is appended -/

section Appending

variable {d : Disk} {s s₁ s₂ : Ide} {t₁ t₂ : List PartTag} {q₁ q₂ : List (UInt32 × UInt32)}

theorem Ide.Appended.refl (s : Ide) : s.Appended s [] [] :=
  ⟨(List.append_nil _).symm, List.nodup_nil, rfl, fun _ _ ↦ rfl⟩

theorem Ide.Appended.trans (h₁ : s.Appended s₁ t₁ q₁) (h₂ : s₁.Appended s₂ t₂ q₂)
    (hd : List.Disjoint t₁ t₂) : s.Appended s₂ (t₁ ++ t₂) (q₁ ++ q₂) where
  list := by rw [h₂.list, h₁.list, List.append_assoc]
  nodup := List.nodup_append'.mpr ⟨h₁.nodup, h₂.nodup, hd⟩
  place := by
    have hkeep : t₁.map s₂.place = t₁.map s₁.place :=
      List.map_congr_left fun t ht ↦ by rw [Ide.place, Ide.place, h₂.rest t fun h ↦ hd ht h]
    rw [List.map_append, hkeep, h₁.place, h₂.place]
  rest t ht := by
    rw [List.mem_append, not_or] at ht
    rw [h₂.rest t ht.2, h₁.rest t ht.1]

theorem appended_append (s : Ide) (t : PartTag) (i : PartInfo) :
    s.Appended (s.append t i) [t] [(i.startLba, i.secCnt)] where
  list := rfl
  nodup := List.nodup_singleton t
  place := by
    have hparts : (s.append t i).parts t = i := Function.update_self ..
    rw [List.map_singleton, Ide.place, hparts]
  rest t' ht := Function.update_of_ne (List.mem_singleton.not.mp ht) ..

theorem appended_addPrim (d : Disk) (s : Ide) (q : UInt32 × UInt32) :
    s.Appended (s.addPrim d q) [.prim d.no s.pNo] [q] :=
  have h := appended_append s (.prim d.no s.pNo)
    ⟨q.1, q.2, d.no, d.name ++ toString (s.pNo + 1)⟩
  ⟨h.list, h.nodup, h.place, h.rest⟩

theorem appended_addLogic (d : Disk) (s : Ide) (q : UInt32 × UInt32) :
    s.Appended (s.addLogic d q) [.logic d.no s.lNo] [q] :=
  have h := appended_append s (.logic d.no s.lNo)
    ⟨q.1, q.2, d.no, d.name ++ toString (s.lNo + 5)⟩
  ⟨h.list, h.nodup, h.place, h.rest⟩

theorem appended_addPrims (d : Disk) (s : Ide) (qs : List (UInt32 × UInt32)) :
    s.Appended (s.addPrims d qs) ((List.range' s.pNo qs.length).map (PartTag.prim d.no)) qs := by
  induction qs generalizing s with
  | nil => exact Ide.Appended.refl s
  | cons q qs ih =>
    refine (appended_addPrim d s q).trans (ih (s.addPrim d q)) ?_
    rw [List.singleton_disjoint]
    intro hmem
    obtain ⟨i, hi, heq⟩ := List.mem_map.mp hmem
    have hlt : s.pNo + 1 ≤ i := (List.mem_range'_1.mp hi).1
    injection heq with _ hno
    omega

theorem appended_addLogics (d : Disk) (s : Ide) (qs : List (UInt32 × UInt32)) :
    s.Appended (s.addLogics d qs) ((List.range' s.lNo qs.length).map (PartTag.logic d.no)) qs := by
  induction qs generalizing s with
  | nil => exact Ide.Appended.refl s
  | cons q qs ih =>
    refine (appended_addLogic d s q).trans (ih (s.addLogic d q)) ?_
    rw [List.singleton_disjoint]
    intro hmem
    obtain ⟨i, hi, heq⟩ := List.mem_map.mp hmem
    have hlt : s.lNo + 1 ≤ i := (List.mem_range'_1.mp hi).1
    injection heq with _ hno
    omega

end Appending

/-! ## The whole disk -/

section Disks

variable {d : Disk} {front back : List PartitionTableEntry} {rs : List BootRecord} {s s' : Ide}
  {u : PUnit} {fuel : ℕ}

/-- A disk without extended entry. -/
theorem returns_partitionScan_primary (h : ∀ p ∈ d.entries 0, p.fsType ≠ 5) (hp : s.pNo < 4) :
    Returns (partitionScan d (fuel + 1) 0) s u s' ↔
      s.pNo + (found 0 (d.entries 0)).length < 4 ∧ s' = s.addPrims d (found 0 (d.entries 0)) := by
  rw [returns_partitionScan, ← List.append_nil (d.entries 0), returns_scanEntries_prims hp h,
    List.append_nil]
  simp [scanEntries]

/-- A disk with an extended entry, scanned before any other. -/
theorem returns_partitionScan_extended {p : PartitionTableEntry}
    (hentries : d.entries 0 = front ++ p :: back) (h5 : p.fsType = 5)
    (hno : ∀ q ∈ front ++ back, q.fsType ≠ 5) (hc : d.Chain p.startLba p.startLba rs)
    (hp : s.pNo < 4) (hl : s.lNo < 8) (he : s.extLbaBase = 0) (hfuel : rs.length ≤ fuel) :
    Returns (partitionScan d (fuel + 1) 0) s u s' ↔
      s.pNo + (found 0 front).length + (found 0 back).length < 4 ∧ Fits (8 - s.lNo) rs ∧
        s' = (Ide.addLogics d { s.addPrims d (found 0 front) with extLbaBase := p.startLba }
          ((logicals rs).take (8 - s.lNo))).addPrims d (found 0 back) := by
  have hfront : ∀ q ∈ front, q.fsType ≠ 5 := fun q hq ↦ hno q (List.mem_append_left _ hq)
  have hback : ∀ q ∈ back, q.fsType ≠ 5 := fun q hq ↦ hno q (List.mem_append_right _ hq)
  have hbase : (s.addPrims d (found 0 front)).extLbaBase = 0 :=
    (Ide.addPrims_extLbaBase _).trans he
  have hlNo : (s.addPrims d (found 0 front)).lNo = s.lNo := Ide.addPrims_lNo _
  have hpNo : (s.addPrims d (found 0 front)).pNo = s.pNo + (found 0 front).length :=
    Ide.addPrims_pNo _
  rw [returns_partitionScan, hentries, returns_scanEntries_prims hp hfront,
    returns_scanEntries_extended h5 hbase]
  have hchain : ∀ {t : Ide} {v : PUnit}, Returns (partitionScan d fuel p.startLba)
      { s.addPrims d (found 0 front) with extLbaBase := p.startLba } v t ↔ Fits (8 - s.lNo) rs ∧
        t = Ide.addLogics d { s.addPrims d (found 0 front) with extLbaBase := p.startLba }
          ((logicals rs).take (8 - s.lNo)) := by
    intro t v
    have hl' : ({ s.addPrims d (found 0 front) with extLbaBase := p.startLba } : Ide).lNo =
        s.lNo := hlNo
    have h : Returns (partitionScan d fuel p.startLba) _ v t ↔ _ := returns_partitionScan_chain
      (s := { s.addPrims d (found 0 front) with extLbaBase := p.startLba }) hc hc.lba_ne rfl
      (hl'.trans_lt hl) hfuel
    rwa [hl'] at h
  have hrest : ∀ {t : Ide}, t.pNo < 4 →
      (Returns (scanEntries (partitionScan d fuel) d 0 back) t u s' ↔
        t.pNo + (found 0 back).length < 4 ∧ s' = t.addPrims d (found 0 back)) := by
    intro t ht
    rw [← List.append_nil back, returns_scanEntries_prims ht hback, List.append_nil]
    simp [scanEntries]
  simp only [hchain]
  constructor
  · rintro ⟨-, hlt, t, ⟨hfits, rfl⟩, h⟩
    have hpNo' : (Ide.addLogics d { s.addPrims d (found 0 front) with extLbaBase := p.startLba }
        ((logicals rs).take (8 - s.lNo))).pNo = s.pNo + (found 0 front).length :=
      (Ide.addLogics_pNo _).trans hpNo
    obtain ⟨hlen, rfl⟩ := (hrest (hpNo'.trans_lt hlt)).mp h
    rw [hpNo'] at hlen
    exact ⟨hlen, hfits, rfl⟩
  · rintro ⟨hlen, hfits, rfl⟩
    have hpNo' : (Ide.addLogics d { s.addPrims d (found 0 front) with extLbaBase := p.startLba }
        ((logicals rs).take (8 - s.lNo))).pNo = s.pNo + (found 0 front).length :=
      (Ide.addLogics_pNo _).trans hpNo
    refine ⟨by decide, by omega, _, ⟨hfits, rfl⟩, (hrest (hpNo'.trans_lt (by omega))).mpr ⟨?_, rfl⟩⟩
    rw [hpNo']
    exact hlen

theorem scansAs_primary (h : ∀ p ∈ d.entries 0, p.fsType ≠ 5) (hp : s.pNo = 0) :
    d.ScansAs s (found 0 (d.entries 0)) ↔ (found 0 (d.entries 0)).length < 4 := by
  constructor
  · rintro ⟨fuel, s', tags, hret, -⟩
    have hlen := ((returns_partitionScan_primary h (by omega)).mp
      (partitionScan_mono (Nat.le_succ fuel) hret)).1
    omega
  · intro hlen
    refine ⟨1, _, _, (returns_partitionScan_primary h (by omega)).mpr ⟨by omega, rfl⟩,
      appended_addPrims d s _, ?_⟩
    intro t ht
    obtain ⟨i, hi, rfl⟩ := List.mem_map.mp ht
    rw [List.mem_range'_1] at hi
    exact ⟨rfl, by omega⟩

theorem scansAs_extended {p : PartitionTableEntry} (hentries : d.entries 0 = front ++ p :: back)
    (h5 : p.fsType = 5) (hno : ∀ q ∈ front ++ back, q.fsType ≠ 5)
    (hc : d.Chain p.startLba p.startLba rs) (hp : s.pNo = 0) (hl : s.lNo = 0)
    (he : s.extLbaBase = 0) :
    d.ScansAs s (found 0 front ++ (logicals rs).take 8 ++ found 0 back) ↔
      (found 0 front).length + (found 0 back).length < 4 ∧ Fits 8 rs := by
  have hret : ∀ {fuel : ℕ} {s' : Ide} {u : PUnit}, rs.length ≤ fuel → (Returns
      (partitionScan d (fuel + 1) 0) s u s' ↔ _) :=
    returns_partitionScan_extended hentries h5 hno hc (by omega) (by omega) he
  simp only [hp, hl, Nat.sub_zero, Nat.zero_add] at hret
  constructor
  · rintro ⟨fuel, s', tags, h, -⟩
    have h' := (hret (Nat.le_add_left rs.length fuel)).mp
      (partitionScan_mono (by omega : fuel ≤ fuel + rs.length + 1) h)
    exact ⟨h'.1, h'.2.1⟩
  · rintro ⟨hlen, hfits⟩
    have h1 := appended_addPrims d s (found 0 front)
    rw [hp] at h1
    -- assigning the base is no step of its own for the list and the arrays
    have h2 : (s.addPrims d (found 0 front)).Appended
        (Ide.addLogics d { s.addPrims d (found 0 front) with extLbaBase := p.startLba }
          ((logicals rs).take 8))
        ((List.range' 0 ((logicals rs).take 8).length).map (PartTag.logic d.no))
        ((logicals rs).take 8) := by
      have h := appended_addLogics d
        { s.addPrims d (found 0 front) with extLbaBase := p.startLba } ((logicals rs).take 8)
      rw [show ({ s.addPrims d (found 0 front) with extLbaBase := p.startLba } : Ide).lNo = 0 from
        (Ide.addPrims_lNo _).trans hl] at h
      exact ⟨h.list, h.nodup, h.place, h.rest⟩
    have h3 := appended_addPrims d (Ide.addLogics d
      { s.addPrims d (found 0 front) with extLbaBase := p.startLba } ((logicals rs).take 8))
      (found 0 back)
    have hpNo : (Ide.addLogics d { s.addPrims d (found 0 front) with extLbaBase := p.startLba }
        ((logicals rs).take 8)).pNo = (found 0 front).length := by
      rw [Ide.addLogics_pNo]
      change (s.addPrims d (found 0 front)).pNo = _
      rw [Ide.addPrims_pNo, hp, Nat.zero_add]
    rw [hpNo] at h3
    refine ⟨rs.length + 1, _, _, (hret (le_refl _)).mpr ⟨hlen, hfits, rfl⟩,
      (h1.trans h2 ?_).trans h3 ?_, ?_⟩
    · intro t ht ht'
      obtain ⟨i, -, rfl⟩ := List.mem_map.mp ht
      obtain ⟨j, -, heq⟩ := List.mem_map.mp ht'
      cases heq
    · intro t ht ht'
      obtain ⟨j, hj, rfl⟩ := List.mem_map.mp ht'
      rw [List.mem_range'_1] at hj
      rcases List.mem_append.mp ht with h | h
      · obtain ⟨i, hi, heq⟩ := List.mem_map.mp h
        rw [List.mem_range'_1] at hi
        injection heq with _ hij
        omega
      · obtain ⟨i, -, heq⟩ := List.mem_map.mp h
        cases heq
    · intro t ht
      rw [List.mem_append, List.mem_append] at ht
      rcases ht with (h | h) | h
      · obtain ⟨i, hi, rfl⟩ := List.mem_map.mp h
        rw [List.mem_range'_1] at hi
        exact ⟨rfl, by omega⟩
      · obtain ⟨i, hi, rfl⟩ := List.mem_map.mp h
        rw [List.mem_range'_1, List.length_take] at hi
        exact ⟨rfl, by omega⟩
      · obtain ⟨i, hi, rfl⟩ := List.mem_map.mp h
        rw [List.mem_range'_1] at hi
        exact ⟨rfl, by omega⟩

/-! ## The disks that were scanned before -/

theorem Ide.Before.counters {hd : ℕ} (h : Ide.Before hd s) : s.pNo = 0 ∧ s.lNo = 0 := by
  cases h with
  | init _ _ hp hl _ => exact ⟨hp, hl⟩
  | disk _ _ hret =>
    obtain ⟨u, t, -, h⟩ := returns_bind.mp hret
    rw [returns_modify] at h
    subst h
    exact ⟨rfl, rfl⟩

/-- The state in which `ide_init` starts. -/
def Ide.start : Ide := ⟨0, 0, 0, fun _ ↦ ⟨0, 0, 0, ""⟩, []⟩

/-- A disk whose extended partition starts at the last sector of the driver's range. -/
def farDisk (no : ℕ) : Disk :=
  ⟨no, "sdb", fun lba i ↦ if lba = 0 ∧ i = 0 then ⟨5, 163839, 0⟩ else ⟨0, 0, 0⟩⟩

/-- Such a disk leaves its base behind. -/
theorem exists_before_far (hd : ℕ) : ∃ s, Ide.Before hd s ∧ s.extLbaBase = 163839 := by
  have hret : Returns (scanDisk (farDisk (hd + 1)) 2) Ide.start ()
      { Ide.start with extLbaBase := 163839 } := rfl
  exact ⟨_, .disk (.init Ide.start rfl rfl rfl rfl) (by simp [farDisk]) hret, rfl⟩

/-- With that base the scan of a disk with an extended entry leaves the range of the driver. -/
theorem not_scansAs_far {p : PartitionTableEntry} {qs : List (UInt32 × UInt32)}
    (hentries : d.entries 0 = front ++ p :: back) (h5 : p.fsType = 5)
    (hfront : ∀ q ∈ front, q.fsType ≠ 5) (hp : s.pNo = 0) (he : s.extLbaBase = 163839)
    (h0 : p.startLba ≠ 0) (hle : p.startLba.toNat ≤ maxLba) : ¬d.ScansAs s qs := by
  rintro ⟨fuel, s', tags, hret, -⟩
  have hret' := partitionScan_mono (by omega : fuel ≤ fuel + 1 + 1) hret
  have hbase : (s.addPrims d (found 0 front)).extLbaBase = 163839 :=
    (Ide.addPrims_extLbaBase _).trans he
  rw [returns_partitionScan, hentries, returns_scanEntries_prims (by omega) hfront,
    returns_scanEntries_link h5 (by rw [hbase]; decide), hbase] at hret'
  obtain ⟨-, -, t, hlink, -⟩ := hret'
  have hread := (returns_partitionScan.mp hlink).1
  have hmax : maxLba = 163839 := rfl
  have hpos : 0 < p.startLba.toNat := Nat.pos_of_ne_zero fun h ↦ h0 (UInt32.toNat_inj.mp h)
  have hsum : (p.startLba + 163839).toNat = p.startLba.toNat + 163839 := by
    rw [UInt32.toNat_add, Nat.mod_eq_of_lt]
    · rfl
    · change p.startLba.toNat + 163839 < _
      omega
  omega

theorem scansAs_first (hd : d.Describes front rs back) (hp : s.pNo = 0) (hl : s.lNo = 0)
    (he : s.extLbaBase = 0 ∨ ∀ p ∈ d.entries 0, p.fsType ≠ 5) :
    d.ScansAs s (found 0 front ++ (logicals rs).take 8 ++ found 0 back) ↔
      (found 0 front).length + (found 0 back).length < 4 ∧ Fits 8 rs := by
  cases hd with
  | primary h =>
    have hback : found 0 [] = [] := rfl
    simp only [logicals, List.take_nil, List.append_nil, hback, List.length_nil, Nat.add_zero,
      Fits, and_true]
    exact scansAs_primary h hp
  | @extended front back p rs hentries h5 hno hc =>
    have hext : ¬∀ p ∈ d.entries 0, p.fsType ≠ 5 := fun h ↦
      h p (hentries ▸ List.mem_append_right _ (List.mem_cons_self ..)) h5
    exact scansAs_extended hentries h5 hno hc hp hl (he.resolve_right hext)

/-- **Partition discovery.** Whatever was scanned before, the partitions that the disk describes
are appended exactly if it has fewer than four primary partitions and no extended one. Where no
earlier disk had an extended entry, or this one has none, they are appended exactly if there are
fewer than four primary ones and the chain fits. -/
theorem partitionScan_iff (hd : d.Describes front rs back) :
    ((∀ s, Ide.Before d.no s →
        d.ScansAs s (found 0 front ++ (logicals rs).take 8 ++ found 0 back)) ↔
      (∀ p ∈ d.entries 0, p.fsType ≠ 5) ∧
        (found 0 front).length + (found 0 back).length < 4) ∧
    ∀ s, Ide.Before d.no s → (s.extLbaBase = 0 ∨ ∀ p ∈ d.entries 0, p.fsType ≠ 5) →
      (d.ScansAs s (found 0 front ++ (logicals rs).take 8 ++ found 0 back) ↔
        (found 0 front).length + (found 0 back).length < 4 ∧ Fits 8 rs) := by
  have hfirst : ∀ s, Ide.Before d.no s → (s.extLbaBase = 0 ∨ ∀ p ∈ d.entries 0, p.fsType ≠ 5) →
      (d.ScansAs s (found 0 front ++ (logicals rs).take 8 ++ found 0 back) ↔
        (found 0 front).length + (found 0 back).length < 4 ∧ Fits 8 rs) :=
    fun s hs he ↦ scansAs_first hd hs.counters.1 hs.counters.2 he
  refine ⟨⟨fun hall ↦ ?_, fun ⟨hext, hlen⟩ s hs ↦ ?_⟩, hfirst⟩
  · have hstart := (hfirst Ide.start (.init _ rfl rfl rfl rfl) (.inl rfl)).mp
      (hall _ (.init _ rfl rfl rfl rfl))
    refine ⟨fun p hp h5 ↦ ?_, hstart.1⟩
    cases hd with
    | primary h => exact h p hp h5
    | @extended front back e rs hentries he5 hno hc =>
      obtain ⟨s, hs, hbase⟩ := exists_before_far d.no
      have hle : e.startLba.toNat ≤ maxLba := by
        cases hc with
        | last _ _ => exact hstart.2.1
        | link _ _ _ _ _ => exact hstart.2.1
      exact not_scansAs_far hentries he5 (fun q hq ↦ hno q (List.mem_append_left _ hq))
        hs.counters.1 hbase hc.lba_ne hle (hall s hs)
  · refine (hfirst s hs (.inr hext)).mpr ⟨hlen, ?_⟩
    cases hd with
    | primary h => exact trivial
    | @extended front back e rs hentries he5 hno hc =>
      exact absurd he5 (hext e (hentries ▸ List.mem_append_right _ (List.mem_cons_self ..)))

/-- A disk with one primary partition. -/
def plainDisk : Disk :=
  ⟨1, "sdb", fun lba i ↦ if lba = 0 ∧ i = 0 then ⟨0x83, 63, 2000⟩ else ⟨0, 0, 0⟩⟩

theorem partitionScan_iff_plainDisk :
    (∀ s, Ide.Before 1 s → plainDisk.ScansAs s [(63, 2000)]) ↔
      (∀ p ∈ plainDisk.entries 0, p.fsType ≠ 5) ∧ 1 + 0 < 4 := by
  have hd : plainDisk.Describes (plainDisk.entries 0) [] [] :=
    .primary (by simp [plainDisk, Disk.entries])
  exact (partitionScan_iff hd).1

/-- A disk with four primary partitions. -/
def fullDisk : Disk :=
  ⟨1, "sdb", fun lba i ↦ if lba = 0 then ⟨0x83, 63 + 2000 * UInt32.ofNat i, 2000⟩ else ⟨0, 0, 0⟩⟩

/-- The scan of the first disk stops at the fourth primary partition. -/
theorem fullDisk_not_scansAs : fullDisk.Describes (fullDisk.entries 0) [] [] ∧
    Ide.Before 1 Ide.start ∧ ¬fullDisk.ScansAs Ide.start (found 0 (fullDisk.entries 0)) := by
  have hno : ∀ p ∈ fullDisk.entries 0, p.fsType ≠ 5 := by simp [fullDisk, Disk.entries]
  refine ⟨.primary hno, .init _ rfl rfl rfl rfl, fun h ↦ ?_⟩
  have hlen := (scansAs_primary hno rfl).mp h
  exact absurd hlen (by decide)

end Disks

end GlowOS
