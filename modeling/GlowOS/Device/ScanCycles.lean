import Mathlib
import GlowOS.Device.Discovery
import GlowOS.Lib.Fuel

/-!
# Does a partition scan end?

`partition_scan` follows the links between boot records without remembering where it has been. What
a record leads to depends on the disk and on the three global variables, which is little: the
partitions that were found so far play no part. `Disk.Walk` is the scan of a list of entries as far
as these variables are concerned, and `Disk.Links` says with which of their values a scan comes to
a link.

The two counters do not go down and stop at 4 and 8, and the base is set once. So a scan comes to
finitely many records with finitely many values, and it ends exactly if it does not come back to one
of them with the same values.
-/

namespace GlowOS

open Program Relation

/-! ## The links of a record -/

/-- The global variables that tell the scan where to go. -/
structure ScanVars where
  extLbaBase : UInt32
  pNo : ℕ
  lNo : ℕ

def Ide.scanVars (s : Ide) : ScanVars := ⟨s.extLbaBase, s.pNo, s.lNo⟩

/-- The record an extended entry leads to. -/
def ScanVars.target (c : ScanVars) (p : PartitionTableEntry) : UInt32 :=
  if c.extLbaBase ≠ 0 then p.startLba + c.extLbaBase else p.startLba

/-- The variables when it is scanned: the first extended entry gives the base. -/
def ScanVars.follow (c : ScanVars) (p : PartitionTableEntry) : ScanVars :=
  if c.extLbaBase ≠ 0 then c else { c with extLbaBase := p.startLba }

/-- The entries `ps` of the record at `lba`, scanned to the end with the variables `c`, leave them
as `c'`. -/
inductive Disk.Walk (d : Disk) : UInt32 → List PartitionTableEntry → ScanVars → ScanVars → Prop
  | nil {lba : UInt32} {c : ScanVars} : Walk d lba [] c c
  | unused {lba : UInt32} {p : PartitionTableEntry} {ps : List PartitionTableEntry}
      {c c' : ScanVars} : p.fsType = 0 → Walk d lba ps c c' → Walk d lba (p :: ps) c c'
  | prim {p : PartitionTableEntry} {ps : List PartitionTableEntry} {c c' : ScanVars} :
      p.fsType ≠ 5 → p.fsType ≠ 0 → c.pNo + 1 < 4 → Walk d 0 ps { c with pNo := c.pNo + 1 } c' →
      Walk d 0 (p :: ps) c c'
  | logic {lba : UInt32} {p : PartitionTableEntry} {ps : List PartitionTableEntry}
      {c c' : ScanVars} : lba ≠ 0 → p.fsType ≠ 5 → p.fsType ≠ 0 → c.lNo < 7 →
      Walk d lba ps { c with lNo := c.lNo + 1 } c' → Walk d lba (p :: ps) c c'
  | full {lba : UInt32} {p : PartitionTableEntry} {ps : List PartitionTableEntry} {c : ScanVars} :
      lba ≠ 0 → p.fsType ≠ 5 → p.fsType ≠ 0 → c.lNo = 7 →
      Walk d lba (p :: ps) c { c with lNo := c.lNo + 1 }
  | link {lba : UInt32} {p : PartitionTableEntry} {ps : List PartitionTableEntry}
      {c c₁ c' : ScanVars} : p.fsType = 5 → (c.target p).toNat ≤ maxLba →
      Walk d (c.target p) (d.entries (c.target p)) (c.follow p) c₁ → Walk d lba ps c₁ c' →
      Walk d lba (p :: ps) c c'

/-- Among the entries `ps` of the record at `lba` the scan comes to a link to the record at `y`,
with the variables `c'`. -/
inductive Disk.Links (d : Disk) (y : UInt32) (c' : ScanVars) :
    UInt32 → List PartitionTableEntry → ScanVars → Prop
  | here {lba : UInt32} {p : PartitionTableEntry} {ps : List PartitionTableEntry}
      {c : ScanVars} : p.fsType = 5 → y = c.target p → c' = c.follow p →
      Links d y c' lba (p :: ps) c
  | unused {lba : UInt32} {p : PartitionTableEntry} {ps : List PartitionTableEntry}
      {c : ScanVars} : p.fsType = 0 → Links d y c' lba ps c → Links d y c' lba (p :: ps) c
  | prim {p : PartitionTableEntry} {ps : List PartitionTableEntry} {c : ScanVars} :
      p.fsType ≠ 5 → p.fsType ≠ 0 → c.pNo + 1 < 4 →
      Links d y c' 0 ps { c with pNo := c.pNo + 1 } → Links d y c' 0 (p :: ps) c
  | logic {lba : UInt32} {p : PartitionTableEntry} {ps : List PartitionTableEntry}
      {c : ScanVars} : lba ≠ 0 → p.fsType ≠ 5 → p.fsType ≠ 0 → c.lNo < 7 →
      Links d y c' lba ps { c with lNo := c.lNo + 1 } → Links d y c' lba (p :: ps) c
  | behind {lba : UInt32} {p : PartitionTableEntry} {ps : List PartitionTableEntry}
      {c c₁ : ScanVars} : p.fsType = 5 → (c.target p).toNat ≤ maxLba →
      d.Walk (c.target p) (d.entries (c.target p)) (c.follow p) c₁ → Links d y c' lba ps c₁ →
      Links d y c' lba (p :: ps) c

/-- A record and the variables with which it is scanned. -/
abbrev ScanPoint := UInt32 × ScanVars

/-- The scan of one record leads to that of another one. -/
def Disk.Leads (d : Disk) (v w : ScanPoint) : Prop :=
  v.1.toNat ≤ maxLba ∧ d.Links w.1 w.2 v.1 (d.entries v.1) v.2

/-- Wherever the scan comes from sector 0, it does not come back to the same record with nothing
found in between. -/
def Disk.Acyclic (d : Disk) (c : ScanVars) : Prop :=
  ∀ v : ScanPoint, ReflTransGen d.Leads (0, c) v → ¬TransGen d.Leads v v

/-- `partition_scan(hd, 0)` ends, in a return or at a failed assertion. -/
def Disk.ScanEnds (d : Disk) (s : Ide) : Prop :=
  ∃ fuel, partitionScan d fuel 0 s ≠ .error Fault.hang

/-! ## The scan follows the links -/

section Walks

variable {d : Disk} {lba y : UInt32} {p : PartitionTableEntry} {ps : List PartitionTableEntry}
  {c c' : ScanVars} {s s' : Ide} {u : PUnit} {fuel : ℕ}

/-- The state in which the record of an extended entry is scanned. -/
def Ide.follow (s : Ide) (p : PartitionTableEntry) : Ide :=
  if s.extLbaBase ≠ 0 then s else { s with extLbaBase := p.startLba }

theorem Ide.scanVars_follow (s : Ide) (p : PartitionTableEntry) :
    (s.follow p).scanVars = s.scanVars.follow p := by
  by_cases hbase : s.extLbaBase = 0
  · have hvars : s.scanVars.follow p = { s.scanVars with extLbaBase := p.startLba } :=
      if_neg (not_not.mpr hbase)
    rw [hvars, Ide.follow, if_neg (not_not.mpr hbase)]
    rfl
  · have hvars : s.scanVars.follow p = s.scanVars := if_pos hbase
    rw [hvars, Ide.follow, if_pos hbase]

/-- An extended entry, with either base. -/
theorem scanEntries_five {scan : UInt32 → IdeM PUnit} (h5 : p.fsType = 5) :
    scanEntries scan d lba (p :: ps) s =
      (scan (s.scanVars.target p) >>= fun _ ↦ scanEntries scan d lba ps) (s.follow p) := by
  rw [scanEntries, if_pos h5]
  change (if s.extLbaBase ≠ 0 then _ else _ : IdeM PUnit) s = _
  by_cases hbase : s.extLbaBase = 0
  · have htarget : s.scanVars.target p = p.startLba := if_neg (not_not.mpr hbase)
    rw [htarget, Ide.follow, if_neg (not_not.mpr hbase), if_neg (not_not.mpr hbase)]
    rfl
  · have htarget : s.scanVars.target p = p.startLba + s.extLbaBase := if_pos hbase
    rw [htarget, Ide.follow, if_pos hbase, if_pos hbase]

/-- An entry of another kind: the loop goes on behind it, or it ends there and comes to no more
links. -/
theorem scanEntries_used (h5 : p.fsType ≠ 5) (h0 : p.fsType ≠ 0) :
    (∃ t : Ide, (∀ y c, d.Links y c lba (p :: ps) s.scanVars ↔ d.Links y c lba ps t.scanVars) ∧
      ∀ scan, scanEntries scan d lba (p :: ps) s = scanEntries scan d lba ps t) ∨
    ((∀ y c, ¬d.Links y c lba (p :: ps) s.scanVars) ∧
      ∀ scan, scanEntries scan d lba (p :: ps) s ≠ .error Fault.hang) := by
  have hfault : ∀ {e : Fault} {m : IdeM PUnit} {t : Ide}, m t = .error e → e ≠ Fault.hang →
      m t ≠ .error Fault.hang := by
    intro e m t hm hne hr
    exact hne (Except.error.inj (hm.symm.trans hr))
  by_cases hlba : lba = 0
  · subst hlba
    by_cases hlt : s.pNo + 1 < 4
    · refine .inl ⟨s.addPrim d (0 + p.startLba, p.secCnt), fun y c ↦ ⟨fun hl ↦ ?_, ?_⟩, ?_⟩
      · cases hl with
        | here h _ _ => exact absurd h h5
        | unused h _ => exact absurd h h0
        | prim _ _ _ hl => exact hl
        | logic h _ _ _ _ => exact absurd rfl h
        | behind h _ _ _ => exact absurd h h5
      · exact .prim (c := s.scanVars) h5 h0 hlt
      · intro scan
        rw [scanEntries, if_neg h5, if_pos h0, if_pos rfl, get_run, check_run (by omega),
          modify_run, get_run]
        exact check_run hlt
    · refine .inr ⟨fun y c hl ↦ ?_, fun scan ↦ ?_⟩
      · cases hl with
        | here h _ _ => exact absurd h h5
        | unused h _ => exact absurd h h0
        | prim _ _ h _ => exact hlt h
        | logic h _ _ _ _ => exact absurd rfl h
        | behind h _ _ _ => exact absurd h h5
      · rw [scanEntries, if_neg h5, if_pos h0, if_pos rfl, get_run]
        by_cases hroom : s.pNo < 4
        · rw [check_run hroom, modify_run, get_run]
          exact hfault (check_stop hlt) (by decide)
        · exact hfault (check_stop hroom) (by decide)
  · by_cases hlt : s.lNo < 7
    · refine .inl ⟨s.addLogic d (lba + p.startLba, p.secCnt), fun y c ↦ ⟨fun hl ↦ ?_, ?_⟩, ?_⟩
      · cases hl with
        | here h _ _ => exact absurd h h5
        | unused h _ => exact absurd h h0
        | prim _ _ _ _ => exact absurd rfl hlba
        | logic _ _ _ _ hl => exact hl
        | behind h _ _ _ => exact absurd h h5
      · exact .logic (c := s.scanVars) hlba h5 h0 hlt
      · intro scan
        rw [scanEntries, if_neg h5, if_pos h0, if_neg hlba, get_run, check_run (by omega),
          modify_run, get_run, if_neg (by change ¬8 ≤ s.lNo + 1; omega)]
    · refine .inr ⟨fun y c hl ↦ ?_, fun scan ↦ ?_⟩
      · cases hl with
        | here h _ _ => exact absurd h h5
        | unused h _ => exact absurd h h0
        | prim _ _ _ _ => exact absurd rfl hlba
        | logic _ _ _ h _ => exact hlt h
        | behind h _ _ _ => exact absurd h h5
      · rw [scanEntries, if_neg h5, if_pos h0, if_neg hlba, get_run]
        by_cases hroom : s.lNo < 8
        · rw [check_run hroom, modify_run, get_run, if_pos (by change 8 ≤ s.lNo + 1; omega)]
          exact fun h ↦ by cases h
        · exact hfault (check_stop hroom) (by decide)

theorem scanEntries_approx {scan scan' : UInt32 → IdeM PUnit}
    (h : ∀ y, Approx Fault.hang (scan y) (scan' y)) :
    Approx Fault.hang (scanEntries scan d lba ps) (scanEntries scan' d lba ps) := by
  induction ps with
  | nil => exact .refl _ _
  | cons p ps ih =>
    rw [scanEntries, scanEntries]
    refine .ite (.bind (.refl _ _) fun s ↦ .ite (.bind (h _) fun _ ↦ ih) ?_) (.ite (.ite ?_ ?_) ih)
    · exact .bind (.refl _ _) fun _ ↦ .bind (h _) fun _ ↦ ih
    · exact .bind (.refl _ _) fun _ ↦ .bind (.refl _ _) fun _ ↦ .bind (.refl _ _) fun _ ↦
        .bind (.refl _ _) fun _ ↦ .bind (.refl _ _) fun _ ↦ ih
    · exact .bind (.refl _ _) fun _ ↦ .bind (.refl _ _) fun _ ↦ .bind (.refl _ _) fun _ ↦
        .bind (.refl _ _) fun _ ↦ .ite (.refl _ _) ih

/-- More fuel changes nothing but the fault at its end. -/
theorem partitionScan_approx {fuel' : ℕ} (hle : fuel ≤ fuel') :
    Approx Fault.hang (partitionScan d fuel y) (partitionScan d fuel' y) := by
  induction fuel generalizing fuel' y with
  | zero => exact .throw _ _
  | succ fuel ih =>
    obtain ⟨k, rfl⟩ := Nat.exists_eq_succ_of_ne_zero (Nat.ne_of_gt (Nat.lt_of_lt_of_le
      (Nat.succ_pos _) hle))
    exact .bind (.refl _ _) fun _ ↦ scanEntries_approx fun _ ↦ ih (Nat.le_of_succ_le_succ hle)

/-- What a scan of entries returns is a walk, if that holds of the calls in it. -/
theorem walk_of_scanEntries {scan : UInt32 → IdeM PUnit}
    (hscan : ∀ {y : UInt32} {s s' : Ide} {u : PUnit}, Returns (scan y) s u s' →
      y.toNat ≤ maxLba ∧ d.Walk y (d.entries y) s.scanVars s'.scanVars)
    (h : Returns (scanEntries scan d lba ps) s u s') : d.Walk lba ps s.scanVars s'.scanVars := by
  induction ps generalizing s with
  | nil =>
    rw [scanEntries, returns_pure] at h
    obtain ⟨-, rfl⟩ := h
    exact .nil
  | cons p ps ih =>
    by_cases h5 : p.fsType = 5
    · rw [Returns, scanEntries_five h5] at h
      obtain ⟨_, t, h1, h2⟩ := returns_bind.mp h
      obtain ⟨hle, hwalk⟩ := hscan h1
      rw [Ide.scanVars_follow] at hwalk
      exact .link h5 hle hwalk (ih h2)
    · by_cases h0 : p.fsType = 0
      · rw [scanEntries_unused h0] at h
        exact .unused h0 (ih h)
      · by_cases hlba : lba = 0
        · subst hlba
          rw [returns_scanEntries_prim h5 h0] at h
          exact .prim h5 h0 h.1 (ih h.2)
        · rw [returns_scanEntries_logic hlba h5 h0] at h
          obtain ⟨hlt, ⟨hge, rfl⟩ | ⟨hfew, h⟩⟩ := h
          · exact .full hlba h5 h0 (show s.lNo = 7 by omega)
          · exact .logic hlba h5 h0 hfew (ih h)

theorem walk_of_partitionScan (h : Returns (partitionScan d fuel y) s u s') :
    y.toNat ≤ maxLba ∧ d.Walk y (d.entries y) s.scanVars s'.scanVars := by
  induction fuel generalizing y s s' u with
  | zero => exact absurd h returns_throw
  | succ fuel ih =>
    rw [returns_partitionScan] at h
    exact ⟨h.1, walk_of_scanEntries ih h.2⟩

/-- A walk is what a scan with enough fuel returns. -/
theorem scanEntries_of_walk (h : d.Walk lba ps c c') (hs : s.scanVars = c) :
    ∃ fuel s', Returns (scanEntries (partitionScan d fuel) d lba ps) s () s' ∧
      s'.scanVars = c' := by
  induction h generalizing s with
  | nil => exact ⟨0, s, returns_pure.mpr ⟨rfl, rfl⟩, hs⟩
  | unused h0 _ ih =>
    obtain ⟨fuel, s', hret, hs'⟩ := ih hs
    rw [← scanEntries_unused h0] at hret
    exact ⟨fuel, s', hret, hs'⟩
  | @prim p ps c c' h5 h0 hlt _ ih =>
    subst hs
    obtain ⟨fuel, s', hret, hs'⟩ := ih (s := s.addPrim d (0 + p.startLba, p.secCnt)) rfl
    exact ⟨fuel, s', (returns_scanEntries_prim h5 h0).mpr ⟨hlt, hret⟩, hs'⟩
  | @logic lba p ps c c' hlba h5 h0 hlt _ ih =>
    subst hs
    have hlt' : s.lNo < 7 := hlt
    obtain ⟨fuel, s', hret, hs'⟩ := ih (s := s.addLogic d (lba + p.startLba, p.secCnt)) rfl
    exact ⟨fuel, s', (returns_scanEntries_logic hlba h5 h0).mpr ⟨by omega, .inr ⟨hlt, hret⟩⟩, hs'⟩
  | full hlba h5 h0 hlast =>
    subst hs
    have hlast' : s.lNo = 7 := hlast
    exact ⟨0, _, (returns_scanEntries_logic hlba h5 h0).mpr ⟨by omega, .inl ⟨by omega, rfl⟩⟩, rfl⟩
  | @link lba p ps c c₁ c' h5 hle _ _ ih₁ ih₂ =>
    subst hs
    obtain ⟨fuel₁, t, hret₁, ht⟩ := ih₁ (s.scanVars_follow p)
    obtain ⟨fuel₂, s', hret₂, hs'⟩ := ih₂ ht
    refine ⟨max (fuel₁ + 1) fuel₂, s', ?_, hs'⟩
    have hcall : Returns (partitionScan d (max (fuel₁ + 1) fuel₂) (s.scanVars.target p))
        (s.follow p) () t :=
      partitionScan_mono (le_max_left _ _) (returns_partitionScan.mpr ⟨hle, hret₁⟩)
    have hrest := (scanEntries_approx fun _ ↦ partitionScan_approx
      (le_max_right (fuel₁ + 1) fuel₂)).returns hret₂
    rw [Returns, scanEntries_five h5]
    exact returns_bind.mpr ⟨(), t, hcall, hrest⟩

/-! ## Ends -/

/-- A loop over entries ends if the scans it comes to do. -/
theorem scanEntries_ends (h : ∀ y c s', d.Links y c lba ps s.scanVars → s'.scanVars = c →
      ∃ fuel, partitionScan d fuel y s' ≠ .error Fault.hang) :
    ∃ fuel, scanEntries (partitionScan d fuel) d lba ps s ≠ .error Fault.hang := by
  induction ps generalizing s with
  | nil => exact ⟨0, fun h ↦ by cases h⟩
  | cons p ps ih =>
    by_cases h5 : p.fsType = 5
    · obtain ⟨fuel₁, hcall⟩ := h _ _ (s.follow p) (.here h5 rfl rfl) (s.scanVars_follow p)
      cases hrun : partitionScan d fuel₁ (s.scanVars.target p) (s.follow p) with
      | error e =>
        refine ⟨fuel₁, fun hstop ↦ hcall ?_⟩
        rw [scanEntries_five h5, bind_stop hrun] at hstop
        rw [hrun, Except.error.inj hstop]
      | ok r =>
        have hret : Returns (partitionScan d fuel₁ (s.scanVars.target p)) (s.follow p) r.1 r.2 :=
          hrun
        obtain ⟨hle, hwalk⟩ := walk_of_partitionScan hret
        rw [Ide.scanVars_follow] at hwalk
        obtain ⟨fuel₂, hrest⟩ := ih fun y c s' hl hs' ↦ h y c s' (.behind h5 hle hwalk hl) hs'
        have hret' := partitionScan_mono (le_max_left fuel₁ fuel₂) hret
        have happrox : Approx Fault.hang (scanEntries (partitionScan d fuel₂) d lba ps)
            (scanEntries (partitionScan d (max fuel₁ fuel₂)) d lba ps) :=
          scanEntries_approx fun _ ↦ partitionScan_approx (le_max_right fuel₁ fuel₂)
        refine ⟨max fuel₁ fuel₂, ?_⟩
        rw [scanEntries_five h5, hret'.bind_run, happrox _ hrest]
        exact hrest
    · by_cases h0 : p.fsType = 0
      · obtain ⟨fuel, hrest⟩ := ih fun y c s' hl hs' ↦ h y c s' (.unused h0 hl) hs'
        exact ⟨fuel, by rwa [scanEntries_unused h0]⟩
      · rcases @scanEntries_used d lba p ps s h5 h0 with
          ⟨t, hlinks, hrun⟩ | ⟨-, hstop⟩
        · obtain ⟨fuel, hrest⟩ := ih (s := t) fun y c s' hl hs' ↦
            h y c s' ((hlinks y c).mpr hl) hs'
          exact ⟨fuel, by rwa [hrun]⟩
        · exact ⟨0, hstop _⟩

/-- Where the links are well founded, the scan ends. -/
theorem ends_of_acc {v : ScanPoint} (h : Acc (Function.swap d.Leads) v) (hs : s.scanVars = v.2) :
    ∃ fuel, partitionScan d fuel v.1 s ≠ .error Fault.hang := by
  induction h generalizing s with
  | intro v _ ih =>
    by_cases hle : v.1.toNat ≤ maxLba
    · obtain ⟨fuel, hrun⟩ := @scanEntries_ends d v.1 (d.entries v.1) s
        fun y c s' hl hs' ↦ ih (y, c) ⟨hle, hs ▸ hl⟩ hs'
      refine ⟨fuel + 1, ?_⟩
      rwa [partitionScan, check_run hle]
    · refine ⟨1, ?_⟩
      rw [partitionScan, check_stop hle]
      exact fun h ↦ by cases h

/-- A loop that ends comes to scans that end with the same fuel. -/
theorem ends_of_links (hl : d.Links y c lba ps s.scanVars)
    (h : scanEntries (partitionScan d fuel) d lba ps s ≠ .error Fault.hang) :
    ∃ s', s'.scanVars = c ∧ partitionScan d fuel y s' ≠ .error Fault.hang := by
  induction ps generalizing s with
  | nil => cases hl
  | cons p ps ih =>
    by_cases h5 : p.fsType = 5
    · have hcall : partitionScan d fuel (s.scanVars.target p) (s.follow p) ≠ .error Fault.hang :=
        fun hstop ↦ h (by rw [scanEntries_five h5, bind_stop hstop])
      have hskip : ∀ {c₁ : ScanVars}, (s.scanVars.target p).toNat ≤ maxLba →
          d.Walk (s.scanVars.target p) (d.entries (s.scanVars.target p)) (s.scanVars.follow p) c₁ →
          d.Links y c lba ps c₁ →
          ∃ s', s'.scanVars = c ∧ partitionScan d fuel y s' ≠ .error Fault.hang := by
        intro c₁ hle hwalk hl
        obtain ⟨fuel', t, hret, ht⟩ := scanEntries_of_walk hwalk (s.scanVars_follow p)
        have hret' := partitionScan_mono (le_max_right fuel (fuel' + 1))
          (returns_partitionScan.mpr ⟨hle, hret⟩)
        have hret₁ := (partitionScan_approx (le_max_left _ _)).returns_of_ne hcall hret'
        rw [scanEntries_five h5, hret₁.bind_run] at h
        exact ih (ht ▸ hl) h
      cases hl with
      | here _ hy hc =>
        subst hy hc
        exact ⟨s.follow p, s.scanVars_follow p, hcall⟩
      | unused h0 _ => exact absurd (h0.symm.trans h5) (by decide)
      | prim hne _ _ _ => exact absurd h5 hne
      | logic _ hne _ _ _ => exact absurd h5 hne
      | behind _ hle hwalk hl => exact hskip hle hwalk hl
    · by_cases h0 : p.fsType = 0
      · rw [scanEntries_unused h0] at h
        cases hl with
        | here hfive _ _ => exact absurd hfive h5
        | unused _ hl => exact ih hl h
        | prim _ hne _ _ => exact absurd h0 hne
        | logic _ _ hne _ _ => exact absurd h0 hne
        | behind hfive _ _ _ => exact absurd hfive h5
      · rcases @scanEntries_used d lba p ps s h5 h0 with
          ⟨t, hlinks, hrun⟩ | ⟨hnone, -⟩
        · rw [hrun] at h
          exact ih ((hlinks y c).mp hl) h
        · exact absurd hl (hnone y c)

/-- Where the scan ends, the links are well founded. -/
theorem acc_of_ends (h : partitionScan d fuel y s ≠ .error Fault.hang) :
    Acc (Function.swap d.Leads) (y, s.scanVars) := by
  induction fuel generalizing y s with
  | zero => exact absurd rfl h
  | succ fuel ih =>
    refine .intro _ fun w hw ↦ ?_
    obtain ⟨hle, hl⟩ := hw
    rw [partitionScan, check_run hle] at h
    obtain ⟨s', hs', hends⟩ := ends_of_links hl h
    have hacc := ih hends
    rwa [hs'] at hacc

end Walks

/-! ## Finitely many points -/

/-- The counters of a scan that goes on. -/
def ScanVars.InRange (c : ScanVars) : Prop := c.pNo < 4 ∧ c.lNo ≤ 8

theorem finite_inRange : {v : ScanPoint | v.2.InRange}.Finite := by
  have : Finite UInt32 := Finite.of_injective UInt32.toBitVec fun _ _ ↦ UInt32.toBitVec_inj.mp
  let point (q : UInt32 × UInt32 × Fin 4 × Fin 9) : ScanPoint := (q.1, ⟨q.2.1, q.2.2.1, q.2.2.2⟩)
  refine (Set.finite_range point).subset ?_
  rintro ⟨y, base, pNo, lNo⟩ ⟨hp, hl⟩
  exact ⟨(y, base, ⟨pNo, hp⟩, ⟨lNo, Nat.lt_succ_of_le hl⟩), rfl⟩

section Counters

variable {d : Disk} {lba y : UInt32} {p : PartitionTableEntry} {ps : List PartitionTableEntry}
  {c c' : ScanVars} {v w : ScanPoint} {s : Ide}

theorem ScanVars.InRange.follow (h : c.InRange) : (c.follow p).InRange := by
  rw [ScanVars.follow]
  split
  · exact h
  · exact h

theorem Disk.Walk.inRange (h : d.Walk lba ps c c') (hc : c.InRange) : c'.InRange := by
  induction h with
  | nil => exact hc
  | unused _ _ ih => exact ih hc
  | prim _ _ hlt _ ih => exact ih ⟨hlt, hc.2⟩
  | logic _ _ _ hlt _ ih => exact ih ⟨hc.1, by dsimp only; omega⟩
  | full _ _ _ hlast => exact ⟨hc.1, by dsimp only; omega⟩
  | link _ _ _ _ ih₁ ih₂ => exact ih₂ (ih₁ hc.follow)

theorem Disk.Links.inRange (h : d.Links y c' lba ps c) (hc : c.InRange) : c'.InRange := by
  induction h with
  | here _ _ heq => exact heq ▸ hc.follow
  | unused _ _ ih => exact ih hc
  | prim _ _ hlt _ ih => exact ih ⟨hlt, hc.2⟩
  | logic _ _ _ hlt _ ih => exact ih ⟨hc.1, by dsimp only; omega⟩
  | behind _ _ hwalk _ ih => exact ih (hwalk.inRange hc.follow)

theorem Disk.Leads.inRange (h : ReflTransGen d.Leads v w) (hv : v.2.InRange) : w.2.InRange := by
  induction h with
  | refl => exact hv
  | tail _ hstep ih => exact hstep.2.inRange ih

theorem scanEnds_of_acyclic (hs : s.scanVars.InRange) (h : d.Acyclic s.scanVars) : d.ScanEnds s :=
  ends_of_acc (v := (0, s.scanVars))
    (acc_of_acyclic (finite_inRange.subset fun _ hv ↦ Disk.Leads.inRange hv hs) h) rfl

theorem Disk.ScanEnds.acyclic (h : d.ScanEnds s) : d.Acyclic s.scanVars := by
  obtain ⟨_, hends⟩ := h
  exact fun _ hv ↦ not_transGen_of_acc (acc_of_ends hends) hv

theorem Ide.Before.inRange {hd : ℕ} (h : Ide.Before hd s) : s.scanVars.InRange := by
  obtain ⟨hp, hl⟩ := h.counters
  exact ⟨show s.pNo < 4 by omega, show s.lNo ≤ 8 by omega⟩

end Counters

/-- A disk whose extended boot record holds the entry `e` and a link back to itself. -/
def loopDisk (e : PartitionTableEntry) : Disk :=
  ⟨1, "sdb", fun lba i ↦ if lba = 0 then if i.val = 0 then ⟨5, 1, 0⟩ else ⟨0, 0, 0⟩
    else if i.val = 0 then e else if i.val = 1 then ⟨5, 0, 0⟩ else ⟨0, 0, 0⟩⟩

theorem loopDisk_entries_zero (e : PartitionTableEntry) :
    (loopDisk e).entries 0 = [⟨5, 1, 0⟩, ⟨0, 0, 0⟩, ⟨0, 0, 0⟩, ⟨0, 0, 0⟩] := rfl

theorem loopDisk_entries_one (e : PartitionTableEntry) :
    (loopDisk e).entries 1 = [e, ⟨5, 0, 0⟩, ⟨0, 0, 0⟩, ⟨0, 0, 0⟩] := rfl

/-- Behind the link of such a record there is nothing. -/
theorem not_links_of_unused {d : Disk} {lba y : UInt32} {c c' : ScanVars}
    {ps : List PartitionTableEntry} (hps : ∀ p ∈ ps, p.fsType = 0) : ¬d.Links y c' lba ps c := by
  intro hl
  induction hl with
  | here h5 _ _ => exact absurd ((hps _ (List.mem_cons_self ..)).symm.trans h5) (by decide)
  | unused _ _ ih => exact ih fun p hp ↦ hps p (List.mem_cons_of_mem _ hp)
  | prim _ h0 _ _ _ => exact h0 (hps _ (List.mem_cons_self ..))
  | logic _ _ h0 _ _ _ => exact h0 (hps _ (List.mem_cons_self ..))
  | behind h5 _ _ _ _ => exact absurd ((hps _ (List.mem_cons_self ..)).symm.trans h5) (by decide)

/-- A link with nothing behind it. -/
theorem links_last {d : Disk} {lba y : UInt32} {c c' : ScanVars} {p : PartitionTableEntry}
    {ps : List PartitionTableEntry} (h5 : p.fsType = 5) (hps : ∀ p ∈ ps, p.fsType = 0)
    (h : d.Links y c' lba (p :: ps) c) : y = c.target p ∧ c' = c.follow p := by
  cases h with
  | here _ hy hc => exact ⟨hy, hc⟩
  | unused h0 _ => exact absurd (h0.symm.trans h5) (by decide)
  | prim hne _ _ _ => exact absurd h5 hne
  | logic _ hne _ _ _ => exact absurd h5 hne
  | behind _ _ _ hl => exact absurd hl (not_links_of_unused hps)

/-- With a partition in the record the counter goes up each time. -/
theorem loopDisk_acyclic : (loopDisk ⟨0x83, 63, 100⟩).Acyclic ⟨0, 0, 0⟩ := by
  let d := loopDisk ⟨0x83, 63, 100⟩
  let rank (v : ScanPoint) : ℕ := if v.1 = 0 then 0 else v.2.lNo + 1
  let Met (v : ScanPoint) : Prop := v = (0, ⟨0, 0, 0⟩) ∨ ∃ k, v = (1, ⟨1, 0, k⟩)
  have hunused : ∀ p ∈ ([⟨0, 0, 0⟩, ⟨0, 0, 0⟩, ⟨0, 0, 0⟩] : List PartitionTableEntry),
      p.fsType = 0 := by simp
  have hstep : ∀ {v w : ScanPoint}, Met v → d.Leads v w → Met w ∧ rank v < rank w := by
    rintro v ⟨y, c⟩ (rfl | ⟨k, rfl⟩) ⟨-, hl⟩
    · obtain ⟨rfl, rfl⟩ := links_last rfl hunused hl
      exact ⟨.inr ⟨0, rfl⟩, Nat.zero_lt_one⟩
    · cases hl with
      | here h5 _ _ => exact absurd h5 (show (0x83 : UInt8) ≠ 5 by decide)
      | unused h0 _ => exact absurd h0 (show (0x83 : UInt8) ≠ 0 by decide)
      | logic _ _ _ _ hl =>
        obtain ⟨rfl, rfl⟩ := links_last rfl (fun p hp ↦ hunused p (List.mem_cons_of_mem _ hp)) hl
        exact ⟨.inr ⟨k + 1, rfl⟩, Nat.lt_succ_self (k + 1)⟩
      | behind h5 _ _ _ => exact absurd h5 (show (0x83 : UInt8) ≠ 5 by decide)
  have hmet : ∀ {v w : ScanPoint}, Met v → ReflTransGen d.Leads v w → Met w := by
    intro v w hv h
    induction h with
    | refl => exact hv
    | tail _ hlast ih => exact (hstep ih hlast).1
  have hrank : ∀ {v w : ScanPoint}, Met v → TransGen d.Leads v w → rank v < rank w := by
    intro v w hv h
    induction h with
    | single hlast => exact (hstep hv hlast).2
    | tail hfront hlast ih =>
      exact ih.trans (hstep (hmet hv hfront.to_reflTransGen) hlast).2
  exact fun v hv hcycle ↦ (hrank (hmet (.inl rfl) hv) hcycle).false

end GlowOS
