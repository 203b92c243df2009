import Mathlib
import GlowOS.Fs.Insertion
import GlowOS.Fs.Creation

/-!
# Names that can be looked up

`create_dir_entry` admits names of up to 16 bytes, as many as the field of the entry has room for. A
name of 16 bytes leaves no room for a terminator, and `strcmp` runs on into the inode number behind
it. Such an entry is found exactly if the lowest byte of this number is zero.

`search_dir_entry` does not look at the type of an entry. It finds the first slot of a block that
exists whose name compares equal, so an insertion changes what it finds under a name only if the slot
that is filled comes in front of all others with this name.
-/

namespace GlowOS

open Bytes Program Scan

/-! ## The first slot with a name -/

/-- The position of a slot in the order of the search. -/
def place (p : ℕ × ℕ) : ℕ := 21 * p.1 + p.2

/-- A string compares equal with the name in a slot. -/
def SlotMatch (d : Image) (ino : Inode) (name : List UInt8) (p : ℕ × ℕ) : Prop :=
  InSlots d ino p ∧ strEq d (512 * ino.blocks d p.1 + 24 * p.2) name = true

/-- The first slot whose name compares equal with a string. -/
def FirstMatch (d : Image) (ino : Inode) (name : List UInt8) (p : ℕ × ℕ) : Prop :=
  SlotMatch d ino name p ∧ ∀ p', SlotMatch d ino name p' → place p ≤ place p'

section Order

variable {d d' : Image} {ino ino' : Inode} {name : List UInt8} {p p' : ℕ × ℕ} {e : DirEntry}

theorem InSlots.place_inj (h : InSlots d ino p) (h' : InSlots d' ino' p')
    (heq : place p = place p') : p = p' := by
  have h2 := h.2.1
  have h2' := h'.2.1
  rw [place, place] at heq
  exact Prod.ext (by omega) (by omega)

theorem FirstMatch.unique (h : FirstMatch d ino name p) (h' : FirstMatch d ino name p') : p = p' :=
  h.1.1.place_inj h'.1.1 (le_antisymm (h.2 p' h'.1) (h'.2 p h.1))

/-- A search finds nothing if no slot compares equal. -/
theorem lookup_eq_none_iff : lookup d ino name = none ↔ ∀ p, ¬SlotMatch d ino name p := by
  constructor
  · rintro h p ⟨hin, hs⟩
    exact not_match_of_lookup h hin.1 ((match_iff hin.1).mpr ⟨hin, hs⟩)
  · intro h
    cases hl : lookup d ino name with
    | none => rfl
    | some e =>
      obtain ⟨k, j, hk, hm, -⟩ := exists_match_of_lookup hl
      exact absurd ((match_iff hk).mp hm) (h (k, j))

/-- A search finds the entry in the first slot that compares equal. -/
theorem lookup_eq_some_iff :
    lookup d ino name = some e ↔ ∃ p, FirstMatch d ino name p ∧ e = slotEntry d ino p := by
  have hsome : ∀ {e}, lookup d ino name = some e →
      ∃ p, FirstMatch d ino name p ∧ e = slotEntry d ino p := by
    intro e h
    obtain ⟨k, j, -, hk, hm, he, hblocks, hentries⟩ := exists_firstMatch_of_lookupFrom h
    have hk140 : k < 140 := by omega
    refine ⟨(k, j), ⟨(match_iff hk140).mp hm, fun p' hp' ↦ ?_⟩, he⟩
    have hm' := (match_iff hp'.1.1).mpr hp'
    have hj := hm.1
    have hk' : k ≤ p'.1 := by
      by_contra hlt
      exact hblocks p'.1 (Nat.zero_le _) (by omega) p'.2 hm'
    rw [place, place]
    rcases Nat.eq_or_lt_of_le hk' with heq | hlt
    · have hj' : j ≤ p'.2 := by
        by_contra hlt
        exact hentries p'.2 (by omega) (heq ▸ hm')
      omega
    · omega
  refine ⟨hsome, ?_⟩
  rintro ⟨p, hp, rfl⟩
  cases hl : lookup d ino name with
  | none => exact absurd hp.1 (lookup_eq_none_iff.mp hl p)
  | some e =>
    obtain ⟨p', hp', rfl⟩ := hsome hl
    rw [hp'.unique hp]

/-- A search depends on the slots that compare equal only. -/
theorem lookup_congr (hiff : ∀ p, SlotMatch d' ino' name p ↔ SlotMatch d ino name p)
    (hentry : ∀ p, SlotMatch d ino name p → slotEntry d' ino' p = slotEntry d ino p) :
    lookup d' ino' name = lookup d ino name := by
  cases hl : lookup d ino name with
  | none => exact lookup_eq_none_iff.mpr fun p hp ↦ lookup_eq_none_iff.mp hl p ((hiff p).mp hp)
  | some e =>
    obtain ⟨p, hp, rfl⟩ := lookup_eq_some_iff.mp hl
    refine lookup_eq_some_iff.mpr ⟨p, ⟨(hiff p).mpr hp.1, fun p' hp' ↦ ?_⟩, (hentry p hp.1).symm⟩
    exact hp.2 p' ((hiff p').mp hp')

end Order

/-! ## The names that match an entry -/

section Compare

variable {d d' : Image} {lba lba' j j' : ℕ} {name : List UInt8}

/-- A type of one byte ends every comparison inside of the entry. -/
theorem strEq_entryAt_congr (h : entryAt d' lba' j' = entryAt d lba j)
    (hty : (entryAt d lba j).fType.word < 256) (hz : (0 : UInt8) ∉ name) :
    strEq d' (512 * lba' + 24 * j') name = strEq d (512 * lba + 24 * j) name := by
  have hbyte : d (512 * lba + 24 * j + 20 + 1) = 0 := by
    have hword : (entryAt d lba j).fType.word = le32 d (512 * lba + 24 * j + 20) :=
      DirEntry.word_ofWord _
    rw [hword, le32] at hty
    refine UInt8.toNat_inj.mp ?_
    change _ = 0
    omega
  exact (strEq_congr_of_zero (fun i hi ↦ (DirEntry.decode_inj h i hi).symm)
    (show 21 < 24 by decide) hbyte hz).symm

/-- An entry with the empty name is not found under any other name. -/
theorem strEq_of_unnamed (h : (entryAt d lba j).name = []) (hne : name ≠ [])
    (hz : (0 : UInt8) ∉ name) : strEq d (512 * lba + 24 * j) name = false := by
  have hlen := congrArg List.length h
  rw [DirEntry.length_name] at hlen
  have ht : (entryAt d lba j).Terminated := Or.inl (by rw [hlen]; decide)
  by_contra hs
  have := (DirEntry.strEq_iff_name ht hz).mp (Bool.not_eq_false _ ▸ hs)
  exact hne (this.symm.trans h)

theorem newEntry_nameLen {c : List UInt8} (hlen : c.length ≤ 16) (hz : (0 : UInt8) ∉ c) (n : ℕ)
    (fType : FileType) : (newEntry c n fType).nameLen = c.length := by
  have hchar : ∀ i < c.length, (c.getD i 0 == 0) = false := by
    intro i hi
    rw [List.getD_eq_getElem _ _ hi]
    exact beq_false_of_ne fun h ↦ hz (h ▸ List.getElem_mem hi)
  by_cases h16 : c.length < 16
  · have hfirst : firstFrom (fun i ↦ c.getD i 0 == 0) 16 0 = some c.length := by
      refine firstFrom_eq_some.mpr ⟨Nat.zero_le _, by omega, ?_, fun i _ hi ↦ hchar i hi⟩
      rw [List.getD_eq_default _ _ (le_refl _)]
      rfl
    rw [DirEntry.nameLen]
    exact congrArg (Option.getD · 16) hfirst
  · have hfirst : firstFrom (fun i ↦ c.getD i 0 == 0) 16 0 = none :=
      firstFrom_eq_none.mpr fun i _ hi ↦ hchar i (by omega)
    rw [DirEntry.nameLen]
    exact (congrArg (Option.getD · 16) hfirst).trans (show 16 = c.length by omega)

theorem newEntry_name {c : List UInt8} (hlen : c.length ≤ 16) (hz : (0 : UInt8) ∉ c) (n : ℕ)
    (fType : FileType) : (newEntry c n fType).name = c := by
  refine List.ext_getElem ?_ fun i h1 h2 ↦ ?_
  · rw [DirEntry.length_name, newEntry_nameLen hlen hz]
  · rw [DirEntry.getElem_name _ h1]
    exact List.getD_eq_getElem _ _ h2

theorem newEntry_fits {c : List UInt8} (hlen : c.length ≤ 16) {n t : ℕ} (hn : n < 2 ^ 32)
    (ht : t < 256) : (newEntry c n (FileType.ofWord t)).Fits where
  filename i hi := List.getD_eq_default _ _ (hlen.trans hi)
  iNo := hn
  fType := by
    change (FileType.ofWord t).word < _
    rw [DirEntry.word_ofWord]
    omega
  other v hv := by
    change FileType.ofWord t = _ at hv
    rw [FileType.ofWord] at hv
    split_ifs at hv with h0 h1 h2
    obtain rfl : t = v := FileType.other.inj hv
    omega

end Compare

/-! ## What an insertion changes -/

/-- A directory that uses only direct blocks. The types are bytes, as `create_dir_entry` takes
them. -/
structure DirectDir (E : Env) (d : Image) (bm : Bitmap) (ino : Inode) : Prop
    extends DirBlocks E d bm ino where
  noTable : ino.iSectors 12 = 0
  types : ∀ p, InSlots d ino p → (slotEntry d ino p).fType.word < 256

/-- An entry in front of slot `q` is found under a name before one in the slot itself. All the same,
a search answers with the number and the type given. -/
def FoundBefore (d : Image) (ino : Inode) (q : ℕ × ℕ) (name : List UInt8) (n : ℕ)
    (fType : FileType) : Prop :=
  ∀ p, FirstMatch d ino name p → place p < place q →
    (slotEntry d ino p).iNo = n ∧ (slotEntry d ino p).fType = fType

section Effect

variable {E : Env} {d d' : Image} {bm : Bitmap} {ino ino' : Inode} {e : DirEntry} {q : ℕ × ℕ}
  {name : List UInt8}

theorem DirectDir.kept (hd : DirectDir E d bm ino) {p : ℕ × ℕ} (h : InSlots d ino p) :
    Kept d ino p := by
  intro _
  by_contra hge
  exact h.2.2 (Inode.blocks_of_no_table (by omega) hd.noTable)

/-- A slot with a name is in use. -/
theorem DirectDir.live (hd : DirectDir E d bm ino) {p : ℕ × ℕ} (h : SlotMatch d ino name p)
    (hne : name ≠ []) (hz : (0 : UInt8) ∉ name) : LiveSlot d ino p := by
  by_contra hdead
  have := strEq_of_unnamed (hd.dead p h.1 hdead) hne hz
  exact Bool.false_ne_true (this.symm.trans h.2)

/-- The slot that is filled had no name. -/
theorem AddsSlot.ne_of_match (h : AddsSlot d ino d' ino' e q) (hd : DirectDir E d bm ino)
    {p : ℕ × ℕ} (hp : SlotMatch d ino name p) (hne : name ≠ []) (hz : (0 : UInt8) ∉ name) :
    p ≠ q := by
  rintro rfl
  exact h.fresh ⟨hd.live hp hne hz, hd.kept hp.1⟩

/-- Another slot matches as before. -/
theorem AddsSlot.slotMatch_iff (h : AddsSlot d ino d' ino' e q) (hd : DirectDir E d bm ino)
    {p : ℕ × ℕ} (hpq : p ≠ q) (hne : name ≠ []) (hz : (0 : UInt8) ∉ name) :
    SlotMatch d' ino' name p ↔ SlotMatch d ino name p := by
  constructor
  · intro hp
    have hlive : LiveSlot d' ino' p := by
      by_contra hdead
      have := strEq_of_unnamed (h.dead p hpq hp.1 hdead) hne hz
      exact Bool.false_ne_true (this.symm.trans hp.2)
    have hold := ((h.live_iff p hpq).mp hlive).1.1
    refine ⟨hold, ?_⟩
    rw [← strEq_entryAt_congr (h.same p hpq hlive) (hd.types p hold) hz]
    exact hp.2
  · intro hp
    have hlive := (h.live_iff p hpq).mpr ⟨hd.live hp hne hz, hd.kept hp.1⟩
    refine ⟨hlive.1, ?_⟩
    rw [strEq_entryAt_congr (h.same p hpq hlive) (hd.types p hp.1) hz]
    exact hp.2

theorem AddsSlot.same_of_match (h : AddsSlot d ino d' ino' e q) (hd : DirectDir E d bm ino)
    {p : ℕ × ℕ} (hp : SlotMatch d ino name p) (hne : name ≠ []) (hz : (0 : UInt8) ∉ name) :
    slotEntry d' ino' p = slotEntry d ino p := by
  have hpq := h.ne_of_match hd hp hne hz
  exact h.same p hpq ((h.live_iff p hpq).mpr ⟨hd.live hp hne hz, hd.kept hp.1⟩)

/-- The new slot matches the name of a terminated entry. -/
theorem AddsSlot.slotMatch_new_iff (h : AddsSlot d ino d' ino' e q) (ht : e.Terminated)
    (hz : (0 : UInt8) ∉ name) : SlotMatch d' ino' name q ↔ e.name = name := by
  have hentry : entryAt d' (ino'.blocks d' q.1) q.2 = e := h.entry
  have hiff := DirEntry.strEq_iff_name (hentry.symm ▸ ht) hz
  rw [← hentry]
  exact (and_iff_right h.inSlots).trans hiff

/-- A search for another name has the same result. -/
theorem AddsSlot.lookup_of_ne (h : AddsSlot d ino d' ino' e q) (hd : DirectDir E d bm ino)
    (ht : e.Terminated) (hname : name ≠ e.name) (hne : name ≠ []) (hz : (0 : UInt8) ∉ name) :
    lookup d' ino' name = lookup d ino name := by
  refine lookup_congr (fun p ↦ ?_) fun p hp ↦ h.same_of_match hd hp hne hz
  by_cases hpq : p = q
  · subst hpq
    rw [h.slotMatch_new_iff ht hz]
    exact ⟨fun heq ↦ absurd heq.symm hname, fun hp ↦ absurd rfl (h.ne_of_match hd hp hne hz)⟩
  · exact h.slotMatch_iff hd hpq hne hz

/-- A search for the new name ends at the new entry, or at an older one in front of it. -/
theorem AddsSlot.lookup_new (h : AddsSlot d ino d' ino' e q) (hd : DirectDir E d bm ino)
    (ht : e.Terminated) (hne : e.name ≠ []) :
    (∃ f, lookup d' ino' e.name = some f ∧ f.iNo = e.iNo ∧ f.fType = e.fType) ↔
      FoundBefore d ino q e.name e.iNo e.fType := by
  have hz := DirEntry.zero_notMem_name e
  have hq : SlotMatch d' ino' e.name q := (h.slotMatch_new_iff ht hz).mpr rfl
  constructor
  · rintro ⟨f, hf, hno, hty⟩ p hp hlt
    have hpq := h.ne_of_match hd hp.1 hne hz
    have hfirst : FirstMatch d' ino' e.name p := by
      refine ⟨(h.slotMatch_iff hd hpq hne hz).mpr hp.1, fun p' hp' ↦ ?_⟩
      by_cases hp'q : p' = q
      · rw [hp'q]
        exact hlt.le
      · exact hp.2 p' ((h.slotMatch_iff hd hp'q hne hz).mp hp')
    have hsome := lookup_eq_some_iff.mpr ⟨p, hfirst, rfl⟩
    rw [h.same_of_match hd hp.1 hne hz] at hsome
    obtain rfl := Option.some.inj (hsome.symm.trans hf)
    exact ⟨hno, hty⟩
  · intro hbefore
    cases hl : lookup d' ino' e.name with
    | none => exact absurd hq (lookup_eq_none_iff.mp hl q)
    | some f =>
      refine ⟨f, rfl, ?_⟩
      obtain ⟨p, hp, rfl⟩ := lookup_eq_some_iff.mp hl
      by_cases hpq : p = q
      · rw [hpq, h.entry]
        exact ⟨rfl, rfl⟩
      · have hold := (h.slotMatch_iff hd hpq hne hz).mp hp.1
        have hlt : place p < place q :=
          lt_of_le_of_ne (hp.2 q hq) fun heq ↦ hpq (hp.1.1.place_inj h.inSlots heq)
        rw [h.same_of_match hd hold hne hz]
        refine hbefore p ⟨hold, fun p' hp' ↦ ?_⟩ hlt
        have hp'q := h.ne_of_match hd hp' hne hz
        exact hp.2 p' ((h.slotMatch_iff hd hp'q hne hz).mpr hp')

/-- An entry whose name is not terminated is not found, and no other entry with its number is found
under this name. -/
theorem terminated_of_lookup {f : DirEntry} (hf : lookup d ino e.name = some f)
    (hno : f.iNo = e.iNo) : e.Terminated := by
  by_contra ht
  have hlen : e.name.length ≤ 16 := (DirEntry.length_name e).trans_le (DirEntry.nameLen_le e)
  obtain ⟨p, hp, rfl⟩ := lookup_eq_some_iff.mp hf
  have hp' : (slotEntry d ino p).Terminated := by
    by_contra hnot
    have := DirEntry.strEq_of_not_terminated hnot hlen
    exact Bool.false_ne_true (this.symm.trans hp.1.2)
  have hname := (DirEntry.strEq_iff_name hp' (DirEntry.zero_notMem_name e)).mp hp.1.2
  have hnameLen : (slotEntry d ino p).nameLen = e.nameLen := by
    rw [← DirEntry.length_name, ← DirEntry.length_name]
    exact congrArg List.length hname
  refine ht ?_
  rw [DirEntry.Terminated, ← hnameLen, ← hno]
  exact hp'

end Effect

/-! ## The law of naming -/

/-- What is expected of an insertion under a name: a search for this name answers with the number and
the type given, and a search for any other name answers as before. -/
structure Findable (E : Env) (dir : Dir) (s : Fs) (name : List UInt8) (n : ℕ) (fType : FileType)
    (s' : Fs) : Prop where
  found : ∃ f t, Returns (searchDirEntry E dir name) s' (some f) t ∧ f.iNo = n ∧ f.fType = fType
  others : ∀ name', name' ≠ name → name' ≠ [] → (0 : UInt8) ∉ name' → ∃ r t t',
    Returns (searchDirEntry E dir name') s r t ∧ Returns (searchDirEntry E dir name') s' r t'

section Law

variable {E : Env} {s s₁ s' : Fs} {dir : Dir} {name : List UInt8} {e : DirEntry} {q : ℕ × ℕ}

theorem Placed.supplied_iff {a : ℕ} (h : Placed E s a e q s') :
    s'.SearchSupplied E ↔ s.SearchSupplied E := by
  cases h <;> exact Iff.rfl

theorem DirectDir.search (hp : E.part.Formatted)
    (hd : DirectDir E s.disk s.blockBitmap (s.inode dir.inode))
    (hlive : s.heap dir.inode = some Blk.inode) (hheap : s.SearchSupplied E) (name : List UInt8) :
    ∃ t, Returns (searchDirEntry E dir name) s (lookup s.disk (s.inode dir.inode) name) t :=
  searchDirEntry_complete hp hlive (hd.noTable ▸ Nat.zero_le _)
    (fun k hk ↦ Inode.held_of_lt hk ▸ hd.onDisk k hk.le) hheap

/-- **The law of naming.** An entry can be looked up under its name, and nothing else changes, exactly
if the heap supplies the two buffers of the search, the name has less than 16 bytes or the number has
a zero in its lowest byte, and no other entry has the name already. -/
theorem findable_iff {n t ioBuf : ℕ} (hm : s.Mounted E)
    (hd : DirectDir E s.disk s.blockBitmap (s.inode dir.inode)) (hne : name ≠ [])
    (hz : (0 : UInt8) ∉ name) (hn : n < 2 ^ 32) (ht : t < 256)
    (hcreate : Returns (createDirEntry name n (FileType.ofWord t)) s e s₁)
    (hret : Returns (syncDirEntry E dir e ioBuf) s₁ true s') :
    Findable E dir s name n (FileType.ofWord t) s' ↔
      s.SearchSupplied E ∧ (name.length < 16 ∨ n % 256 = 0) ∧
        FoundBefore s.disk (s.inode dir.inode) (freeSlot s.disk (s.inode dir.inode)) name n
          (FileType.ofWord t) := by
  obtain ⟨hlen, hcreate⟩ := returns_check_bind.mp hcreate
  obtain ⟨rfl, rfl⟩ := returns_pure.mp hcreate
  change Returns (syncDirEntry E dir (newEntry name n (FileType.ofWord t)) ioBuf) s₁ true s' at hret
  have hname := newEntry_name hlen hz n (FileType.ofWord t)
  have hterm : (newEntry name n (FileType.ofWord t)).Terminated ↔
      name.length < 16 ∨ n % 256 = 0 := by
    rw [DirEntry.Terminated, newEntry_nameLen hlen hz]
    exact Iff.rfl
  have hlive := (syncDirEntry_outcome hm hret).1
  have hplaced := syncDirEntry_placed hm hret
  have hadd := hplaced.addsSlot hm (newEntry_fits hlen hn ht) hd.toDirBlocks
  constructor
  · rintro ⟨⟨f, t', hf, hno, hty⟩, -⟩
    rcases searchDirEntry_sound hm.part hf with ⟨-, h, -⟩ | ⟨b, c, hb, hc, -, h, -⟩
    · cases h
    · have hlook := h.symm
      rw [← hname] at hlook
      have hterm' := terminated_of_lookup hlook hno
      refine ⟨hplaced.supplied_iff.mp ⟨b, c, hb, hc⟩, hterm.mp hterm', ?_⟩
      have hbefore := (hadd.lookup_new hd hterm' (ne_of_eq_of_ne hname hne)).mp ⟨f, hlook, hno, hty⟩
      rwa [hname] at hbefore
  · rintro ⟨hheap, hshort, hbefore⟩
    have hterm' := hterm.mpr hshort
    have hsearch : ∀ name', ∃ t', Returns (searchDirEntry E dir name') s'
        (lookup s'.disk (s'.inode dir.inode) name') t' := fun name' ↦
      searchDirEntry_complete hm.part (hplaced.outcome.heap_eq ▸ hlive)
        (Inode.held_table ▸ hadd.onDisk 140 (le_refl _))
        (fun k hk ↦ Inode.held_of_lt hk ▸ hadd.onDisk k hk.le) (hplaced.supplied_iff.mpr hheap)
    constructor
    · rw [← hname] at hbefore
      obtain ⟨f, hf, hno, hty⟩ := (hadd.lookup_new hd hterm' (ne_of_eq_of_ne hname hne)).mpr hbefore
      obtain ⟨t', h⟩ := hsearch name
      rw [hname] at hf
      exact ⟨f, t', hf ▸ h, hno, hty⟩
    · intro name' hdiff hne' hz'
      obtain ⟨t', h⟩ := hd.search hm.part hlive hheap name'
      obtain ⟨t'', h'⟩ := hsearch name'
      rw [hadd.lookup_of_ne hd hterm' (hname.symm ▸ hdiff) hne' hz'] at h'
      exact ⟨_, t', t'', h, h'⟩

end Law

/-! ## A root directory with a file -/

/-- The root directory with the file `f`, on a mounted partition. -/
def Fs.rootWithFile : Fs :=
  { Fs.singleFile with
    blockBitmap := ⟨512, fun k ↦ if k = 0 then 1 else 0⟩
    inodeBitmap := ⟨512, fun k ↦ if k = 0 then 3 else 0⟩
    tick := 1 }

/-- The name `aaaaaaaaaaaaaaaa`. -/
def longName : List UInt8 := List.replicate 16 97

theorem rootWithFile_mounted : Fs.rootWithFile.Mounted (Env.bump samplePartition) :=
  ⟨samplePartition_formatted, by decide, by decide⟩

theorem rootWithFile_held {p : ℕ} (hp : p ≤ 140) :
    (Fs.rootWithFile.inode kHeapStart).held singleFileDisk p = if p = 0 then 675 else 0 := by
  by_cases h140 : p = 140
  · subst h140
    rfl
  · rw [Inode.held_of_lt (by omega)]
    exact singleFile_blocks

theorem rootWithFile_unused {j : ℕ} (h3 : 3 ≤ j) (hj : j < 21) :
    entryAt singleFileDisk 675 j = DirEntry.decode (fun _ ↦ 0) 0 :=
  DirEntry.decode_congr fun i hi ↦ by
    rw [singleFileDisk, splice_of_disjoint (by omega), splice_of_disjoint (by omega)]

theorem rootWithFile_inSlots {p : ℕ × ℕ}
    (h : InSlots singleFileDisk (Fs.rootWithFile.inode kHeapStart) p) :
    p.2 < 21 ∧ slotEntry singleFileDisk (Fs.rootWithFile.inode kHeapStart) p
      = entryAt singleFileDisk 675 p.2 := by
  obtain ⟨-, hj, hb⟩ := h
  have hblk : (Fs.rootWithFile.inode kHeapStart).blocks singleFileDisk p.1
      = if p.1 = 0 then 675 else 0 := singleFile_blocks
  rw [hblk] at hb
  refine ⟨hj, ?_⟩
  rw [slotEntry, hblk, if_pos]
  by_contra h0
  exact hb (if_neg h0)

theorem rootWithFile_directDir : DirectDir (Env.bump samplePartition) Fs.rootWithFile.disk
    Fs.rootWithFile.blockBitmap (Fs.rootWithFile.inode kHeapStart) where
  owns :=
    { inData := by
        intro p hp h0
        have hstart : (Env.bump samplePartition).part.sb.dataStartLba = 675 := by decide
        have hheld := rootWithFile_held hp
        change (Fs.rootWithFile.inode kHeapStart).held singleFileDisk p ≠ 0 at h0
        change _ ≤ (Fs.rootWithFile.inode kHeapStart).held singleFileDisk p
        rw [hheld] at h0 ⊢
        rw [hstart]
        split_ifs at h0 ⊢ <;> omega
      used := by
        intro p hp h0
        have hstart : (Env.bump samplePartition).part.sb.dataStartLba = 675 := by decide
        have hbit : Fs.rootWithFile.blockBitmap.bit 0 = true := by decide
        have hheld := rootWithFile_held hp
        change (Fs.rootWithFile.inode kHeapStart).held singleFileDisk p ≠ 0 at h0
        change Fs.rootWithFile.blockBitmap.bit
          ((Fs.rootWithFile.inode kHeapStart).held singleFileDisk p - _) = true
        rw [hheld] at h0 ⊢
        rw [hstart]
        split_ifs at h0 ⊢
        · exact hbit
        · exact absurd rfl h0
      inj := by
        intro p hp q hq h0 heq
        have hheld := rootWithFile_held hp
        have hheld' := rootWithFile_held hq
        change (Fs.rootWithFile.inode kHeapStart).held singleFileDisk p ≠ 0 at h0
        change (Fs.rootWithFile.inode kHeapStart).held singleFileDisk p
          = (Fs.rootWithFile.inode kHeapStart).held singleFileDisk q at heq
        rw [hheld] at h0 heq
        rw [hheld'] at heq
        split_ifs at h0 heq <;> omega }
  onDisk p hp := by
    change (Fs.rootWithFile.inode kHeapStart).held singleFileDisk p ≤ maxLba
    rw [rootWithFile_held hp]
    split_ifs <;> decide
  dead p hin hnot := by
    obtain ⟨hj, heq⟩ := rootWithFile_inSlots hin
    have hlive : ∀ j < 3, (entryAt singleFileDisk 675 j).fType ≠ .unknown := by decide +kernel
    have h3 : 3 ≤ p.2 := by
      by_contra hlt
      exact hnot ⟨hin, ne_of_eq_of_ne (congrArg DirEntry.fType heq) (hlive p.2 (by omega))⟩
    refine (congrArg DirEntry.name (heq.trans (rootWithFile_unused h3 hj))).trans ?_
    rfl
  noTable := rfl
  types p hin := by
    obtain ⟨hj, heq⟩ := rootWithFile_inSlots hin
    have hlive : ∀ j < 3, (entryAt singleFileDisk 675 j).fType.word < 256 := by decide +kernel
    refine (congrArg (fun e ↦ e.fType.word) heq).trans_lt ?_
    by_cases h3 : p.2 < 3
    · exact hlive p.2 h3
    · refine (congrArg (fun e ↦ e.fType.word) (rootWithFile_unused (by omega) hj)).trans_lt ?_
      decide

theorem rootWithFile_supplied : Fs.rootWithFile.SearchSupplied (Env.bump samplePartition) :=
  ⟨kHeapStart + 4096, kHeapStart + 8192, by decide, by decide⟩

theorem returns_rootWithFile (c : List UInt8) (hc : c = [103] ∨ c = longName) :
    ∃ s', Returns (syncDirEntry (Env.bump samplePartition) ⟨kHeapStart, none⟩
      (newEntry c 2 (FileType.ofWord 1)) 1024) Fs.rootWithFile true s' := by
  rcases hc with rfl | rfl
  · exact exists_returns (by decide +kernel)
  · exact exists_returns (by decide +kernel)

theorem findable_iff_rootWithFile : ∃ s', Returns (syncDirEntry (Env.bump samplePartition)
      ⟨kHeapStart, none⟩ (newEntry [103] 2 (FileType.ofWord 1)) 1024) Fs.rootWithFile true s' ∧
    (Findable (Env.bump samplePartition) ⟨kHeapStart, none⟩ Fs.rootWithFile [103] 2
        (FileType.ofWord 1) s' ↔
      Fs.rootWithFile.SearchSupplied (Env.bump samplePartition) ∧
        ([103].length < 16 ∨ 2 % 256 = 0) ∧
        FoundBefore Fs.rootWithFile.disk (Fs.rootWithFile.inode kHeapStart)
          (freeSlot Fs.rootWithFile.disk (Fs.rootWithFile.inode kHeapStart)) [103] 2
          (FileType.ofWord 1)) := by
  obtain ⟨s', h⟩ := returns_rootWithFile [103] (Or.inl rfl)
  exact ⟨s', h, findable_iff rootWithFile_mounted rootWithFile_directDir (by decide) (by decide)
    (by decide) (by decide) (returns_check_bind.mpr ⟨by decide, returns_pure.mpr ⟨rfl, rfl⟩⟩) h⟩

/-- A file with a name of 16 bytes and the number 2 is not found. -/
theorem longName_not_findable :
    Fs.rootWithFile.Mounted (Env.bump samplePartition) ∧
      DirectDir (Env.bump samplePartition) Fs.rootWithFile.disk Fs.rootWithFile.blockBitmap
        (Fs.rootWithFile.inode kHeapStart) ∧
      ∃ e s', Returns (createDirEntry longName 2 .regular) Fs.rootWithFile e Fs.rootWithFile ∧
        Returns (syncDirEntry (Env.bump samplePartition) ⟨kHeapStart, none⟩ e 1024)
          Fs.rootWithFile true s' ∧
        ¬Findable (Env.bump samplePartition) ⟨kHeapStart, none⟩ Fs.rootWithFile longName 2
          .regular s' := by
  have hlong : longName.length ≤ 16 := by decide
  obtain ⟨s', h⟩ := returns_rootWithFile longName (Or.inr rfl)
  refine ⟨rootWithFile_mounted, rootWithFile_directDir, newEntry longName 2 .regular, s',
    returns_check_bind.mpr ⟨hlong, returns_pure.mpr ⟨rfl, rfl⟩⟩, h, fun hfind ↦ ?_⟩
  obtain ⟨f, t, hf, hno, -⟩ := hfind.found
  rcases searchDirEntry_sound samplePartition_formatted hf with ⟨-, heq, -⟩ | ⟨-, -, -, -, -, heq, -⟩
  · cases heq
  · have hname := newEntry_name hlong (by decide) 2 .regular
    rw [← hname] at heq
    have hterm := terminated_of_lookup heq.symm hno
    rw [DirEntry.Terminated, newEntry_nameLen hlong (by decide)] at hterm
    revert hterm
    decide

end GlowOS
