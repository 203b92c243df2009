import Mathlib
import GlowOS.Fs.Insertion

/-!
# Listing a directory

`dir_read` keeps a byte position and nothing else: each call collects the blocks again, counts live
entries from the first block on until it has passed the position, and returns the next one. Nothing
bounds its block index, so that it stays inside `all_blocks` only because `i_size` counts the live
entries.

`listing` is what a caller should see: a cursor over a list that a rewind puts back to the front.
-/

namespace GlowOS

open Bytes Program

/-! ## The functions -/

/-- A `struct dir` with the position of its reader. -/
structure DirStream where
  dir : Dir
  dirPos : ℕ

/-- The loop of `dir_read` over the entries of a block from index `j` on: the count it reaches, and
the entry it returns. -/
def readEntries (buf : Image) (size dirPos : ℕ) : ℕ → ℕ → ℕ → FsM (ℕ × Option ℕ)
  | 0, _, cur => pure (cur, none)
  | left + 1, j, cur =>
    if (DirEntry.decode buf (24 * j)).fType ≠ .unknown then
      if cur < dirPos then readEntries buf size dirPos left (j + 1) (cur + size)
      else do
        ASSERT (cur = dirPos)
        pure (cur, some j)
    else readEntries buf size dirPos left (j + 1) cur

/-- The loop of `dir_read` over the blocks from index `k` on, with `left` elements of `all_blocks`
ahead. Behind the last one it reads outside the array. -/
def readFrom (E : Env) (allBlocks : ℕ → ℕ) (dirPos : ℕ) : ℕ → ℕ → ℕ → FsM DirEntry
  | 0, _, _ => throw Fault.bounds
  | left + 1, k, cur =>
    if allBlocks k = 0 then readFrom E allBlocks dirPos left (k + 1) cur
    else do
      let buf ← ideRead (allBlocks k) 512 1
      match ← readEntries buf E.part.sb.dirEntrySize dirPos (dirEntrysPerSec E) 0 cur with
      | (_, some j) => pure (DirEntry.decode buf (24 * j))
      | (cur, none) => readFrom E allBlocks dirPos left (k + 1) cur

/-- `dir_read`: the entry, `none` for `NULL`, and the stream behind it. -/
def dirRead (E : Env) (d : DirStream) : FsM (Option DirEntry × DirStream) := do
  let ino ← inodeAt d.dir.inode
  let blocks ← collectBlocks ino
  if d.dirPos < ino.iSize then do
    let e ← readFrom E blocks d.dirPos 140 0 0
    pure (some e, { d with dirPos := d.dirPos + E.part.sb.dirEntrySize })
  else pure (none, d)

/-- `sys_readdir`. -/
def sysReaddir (E : Env) (d : DirStream) : FsM (Option DirEntry × DirStream) := dirRead E d

/-- `sys_rewinddir`. -/
def sysRewinddir (d : DirStream) : DirStream := { d with dirPos := 0 }

/-- The calls a process makes on an open directory. -/
inductive DirCall
  | readdir
  | rewinddir
  deriving DecidableEq, Repr

/-- A process makes the calls in order: what its reads return. -/
def runDirCalls (E : Env) : List DirCall → DirStream → FsM (List (Option DirEntry) × DirStream)
  | [], d => pure ([], d)
  | .readdir :: calls, d => do
    let (r, d) ← sysReaddir E d
    let (rs, d) ← runDirCalls E calls d
    pure (r :: rs, d)
  | .rewinddir :: calls, d => runDirCalls E calls (sysRewinddir d)

/-! ## What they are for -/

/-- The slots in use, in block and slot order. -/
def slotList (d : Image) (ino : Inode) : List (ℕ × ℕ) :=
  (List.range 140 ×ˢ List.range 21).filter fun p ↦ LiveSlot d ino p

/-- The entries of a directory, in block and slot order. -/
def entryList (d : Image) (ino : Inode) : List DirEntry := (slotList d ino).map (slotEntry d ino)

/-- What a reader at position `i` of a list sees of it: each read gives the next element, and
nothing once they are used up; a rewind goes back to the front. -/
def listing {α : Type} (l : List α) : List DirCall → ℕ → List (Option α)
  | [], _ => []
  | .readdir :: calls, i => l[i]? :: listing l calls (i + 1)
  | .rewinddir :: calls, _ => listing l calls 0

/-- Reading on gives the rest of the list. -/
theorem listing_replicate {α : Type} (l : List α) (n i : ℕ) :
    listing l (List.replicate n .readdir) i = (List.range' i n).map fun j ↦ l[j]? := by
  induction n generalizing i with
  | zero => rfl
  | succ n ih => rw [List.replicate_succ, listing, ih, List.range'_succ, List.map_cons]

theorem getElem?_range' {α : Type} (l : List α) (n : ℕ) :
    (List.range' 0 (l.length + n)).map (fun j ↦ l[j]?) = l.map some ++ List.replicate n none := by
  refine List.ext_getElem (by simp) fun i h1 h2 ↦ ?_
  rw [List.getElem_map, List.getElem_range', Nat.zero_add, Nat.one_mul]
  by_cases hi : i < l.length
  · rw [List.getElem_append_left (by simpa using hi), List.getElem_map,
      List.getElem?_eq_getElem hi]
  · rw [List.getElem_append_right (by simpa using hi), List.getElem_replicate,
      List.getElem?_eq_none (by omega)]

/-- Whatever was called before, a rewind restarts the sequence. -/
theorem listing_append_rewind {α : Type} (l : List α) (calls calls' : List DirCall) (i : ℕ) :
    listing l (calls ++ .rewinddir :: calls') i = listing l calls i ++ listing l calls' 0 := by
  induction calls generalizing i with
  | nil => rfl
  | cons c calls ih =>
    cases c with
    | readdir => exact congrArg (l[i]? :: ·) (ih (i + 1))
    | rewinddir => exact ih 0

example : listing [7, 9] [.readdir, .rewinddir, .readdir, .readdir, .readdir] 0 =
    [some 7, some 7, some 9, none] := rfl

/-! ## The slots of a directory, block by block -/

section Slots

variable {d : Image} {ino : Inode}

theorem mem_slotList {p : ℕ × ℕ} : p ∈ slotList d ino ↔ LiveSlot d ino p := by
  obtain ⟨k, j⟩ := p
  rw [slotList, List.mem_filter, decide_eq_true_iff]
  refine (and_congr_left' List.pair_mem_product).trans ?_
  rw [List.mem_range, List.mem_range]
  exact ⟨fun h ↦ h.2, fun h ↦ ⟨⟨h.1.1, h.1.2.1⟩, h⟩⟩

theorem nodup_slotList : (slotList d ino).Nodup :=
  (List.nodup_range.product List.nodup_range).filter _

theorem length_slotList : (slotList d ino).length = (liveSlots d ino).card := by
  rw [← List.toFinset_card_of_nodup nodup_slotList]
  refine congrArg Finset.card (Finset.ext fun p ↦ ?_)
  rw [List.mem_toFinset, mem_slotList, mem_liveSlots]

/-- The entries in use from index `j` on, of a block in a buffer. -/
def liveFrom (buf : Image) (left j : ℕ) : List ℕ :=
  (List.range' j left).filter fun i ↦ (DirEntry.decode buf (24 * i)).fType ≠ .unknown

/-- The entries of the blocks from index `k` on. -/
def entriesFrom (d : Image) (blocks : ℕ → ℕ) : ℕ → ℕ → List DirEntry
  | 0, _ => []
  | left + 1, k =>
    (if blocks k = 0 then []
      else (liveFrom (fun i ↦ d (512 * blocks k + i)) 21 0).map (entryAt d (blocks k))) ++
        entriesFrom d blocks left (k + 1)

theorem liveFrom_succ_of_live {buf : Image} {left j : ℕ}
    (h : (DirEntry.decode buf (24 * j)).fType ≠ .unknown) :
    liveFrom buf (left + 1) j = j :: liveFrom buf left (j + 1) := by
  rw [liveFrom, List.range'_succ, List.filter_cons_of_pos (by simpa using h), liveFrom]

theorem liveFrom_succ_of_dead {buf : Image} {left j : ℕ}
    (h : ¬(DirEntry.decode buf (24 * j)).fType ≠ .unknown) :
    liveFrom buf (left + 1) j = liveFrom buf left (j + 1) := by
  rw [liveFrom, List.range'_succ, List.filter_cons_of_neg (by simpa using h), liveFrom]

theorem entriesFrom_eq (left k : ℕ) (hk : k + left ≤ 140) :
    entriesFrom d (ino.blocks d) left k = (((List.range' k left) ×ˢ List.range 21).filter
      fun p ↦ LiveSlot d ino p).map (slotEntry d ino) := by
  induction left generalizing k with
  | zero => rfl
  | succ left ih =>
    rw [entriesFrom, ih (k + 1) (by omega), List.range'_succ, List.product_cons, List.filter_append,
      List.map_append, List.filter_map, List.map_map]
    congr 1
    by_cases h0 : ino.blocks d k = 0
    · rw [if_pos h0, List.filter_eq_nil_iff.mpr, List.map_nil]
      intro j _
      simpa using fun h : LiveSlot d ino (k, j) ↦ h.1.2.2 h0
    · rw [if_neg h0, liveFrom, List.range_eq_range']
      have hlive : ∀ j ∈ List.range' 0 21,
          decide ((DirEntry.decode (fun i ↦ d (512 * ino.blocks d k + i)) (24 * j)).fType ≠
            .unknown) = ((fun p ↦ decide (LiveSlot d ino p)) ∘ Prod.mk k) j := by
        intro j hj
        rw [List.mem_range'_1] at hj
        rw [decode_shift]
        refine decide_eq_decide.mpr ⟨fun h ↦ ⟨⟨?_, ?_, h0⟩, h⟩, fun h ↦ h.2⟩ <;> dsimp only <;> omega
      rw [List.filter_congr hlive]
      rfl

theorem entryList_eq : entryList d ino = entriesFrom d (ino.blocks d) 140 0 := by
  rw [entriesFrom_eq 140 0 (by decide), entryList, slotList, List.range_eq_range']

theorem length_entryList : (entryList d ino).length = (liveSlots d ino).card := by
  rw [entryList, List.length_map, length_slotList]

end Slots

/-! ## The loops -/

section Loops

variable {E : Env} {s : Fs}

/-- The loop over a block whose first entry in use has number `c`, looking for number `i`. -/
theorem returns_readEntries {buf : Image} {left j c i : ℕ} (hc : c ≤ i) :
    Returns (readEntries buf 24 (24 * i) left j (24 * c)) s
      (match (liveFrom buf left j)[i - c]? with
        | some j' => (24 * i, some j')
        | none => (24 * (c + (liveFrom buf left j).length), none)) s := by
  induction left generalizing j c with
  | zero => exact returns_pure.mpr ⟨rfl, rfl⟩
  | succ left ih =>
    rw [readEntries]
    by_cases hlive : (DirEntry.decode buf (24 * j)).fType ≠ .unknown
    · rw [if_pos hlive, liveFrom_succ_of_live hlive]
      rcases Nat.eq_or_lt_of_le hc with rfl | hlt
      · rw [if_neg (Nat.lt_irrefl _), Nat.sub_self]
        exact returns_check_bind.mpr ⟨rfl, returns_pure.mpr ⟨rfl, rfl⟩⟩
      · have hsub : i - c = i - (c + 1) + 1 := by omega
        rw [if_pos (by omega), hsub, List.getElem?_cons_succ, List.length_cons,
          show c + ((liveFrom buf left (j + 1)).length + 1) =
            c + 1 + (liveFrom buf left (j + 1)).length by omega]
        exact ih hlt
    · rw [if_neg hlive, liveFrom_succ_of_dead hlive]
      exact ih hc

/-- The loop over the blocks finds the entry with number `i`. -/
theorem returns_readFrom (hp : E.part.Formatted) {blocks : ℕ → ℕ} {left k c i : ℕ} (hc : c ≤ i)
    (hdisk : ∀ k' < k + left, blocks k' ≤ maxLba) {e : DirEntry}
    (he : (entriesFrom s.disk blocks left k)[i - c]? = some e) :
    Returns (readFrom E blocks (24 * i) left k (24 * c)) s e s := by
  induction left generalizing k c with
  | zero =>
    rw [entriesFrom, List.getElem?_nil] at he
    cases he
  | succ left ih =>
    have hdisk' : ∀ k' < k + 1 + left, blocks k' ≤ maxLba := fun k' hk' ↦ hdisk k' (by omega)
    rw [entriesFrom] at he
    rw [readFrom]
    by_cases h0 : blocks k = 0
    · rw [if_pos h0, List.nil_append] at he
      rw [if_pos h0]
      exact ih hc hdisk' he
    · rw [if_neg h0] at he ⊢
      set buf : Image := fun i ↦ s.disk (512 * blocks k + i) with hbuf
      refine returns_bind.mpr ⟨buf, s, (returns_ideRead (by decide)).mpr
        ⟨hdisk k (by omega), by decide, by decide, rfl, rfl⟩, ?_⟩
      rw [dirEntrysPerSec_eq hp, hp.dirEntrySize_eq]
      refine returns_bind.mpr ⟨_, s, returns_readEntries hc, ?_⟩
      by_cases hlt : i - c < (liveFrom buf 21 0).length
      · -- the entry lies in this block
        rw [List.getElem?_append_left (by rwa [List.length_map]), List.getElem?_map,
          List.getElem?_eq_getElem hlt] at he
        rw [List.getElem?_eq_getElem hlt]
        refine returns_pure.mpr ⟨?_, rfl⟩
        rw [← Option.some.inj he]
        exact (decode_shift ..).symm
      · rw [List.getElem?_append_right (by rw [List.length_map]; omega), List.length_map,
          Nat.sub_sub] at he
        rw [List.getElem?_eq_none (by omega)]
        exact ih (by omega) hdisk' he

end Loops

/-! ## Reading a directory -/

section Listing

variable {E : Env} {s : Fs} {dir : Dir} {ino : Inode}

/-- A directory on the disk whose size counts its live entries. -/
structure Fs.Listable (E : Env) (s : Fs) (dir : Dir) : Prop where
  formatted : E.part.Formatted
  live : s.heap dir.inode = some Blk.inode
  onDisk : ∀ p ≤ 140, (s.inode dir.inode).held s.disk p ≤ maxLba
  size : (s.inode dir.inode).iSize =
    E.part.sb.dirEntrySize * (liveSlots s.disk (s.inode dir.inode)).card

/-- The directories that the functions of `fs/dir.c` maintain are of this kind. -/
theorem WellFormedDir.listable (hm : s.Mounted E) (hlive : s.heap dir.inode = some Blk.inode)
    (h : WellFormedDir E s.disk s.blockBitmap (s.inode dir.inode)) : s.Listable E dir :=
  ⟨hm.part, hlive, h.onDisk, by rw [hm.part.dirEntrySize_eq, h.size]⟩

/-- One call of `dir_read` at the position behind `i` entries. -/
theorem returns_dirRead (h : s.Listable E dir) {i : ℕ}
    (hi : i ≤ (entryList s.disk (s.inode dir.inode)).length) :
    Returns (dirRead E ⟨dir, 24 * i⟩) s
      ((entryList s.disk (s.inode dir.inode))[i]?,
        ⟨dir, 24 * min (i + 1) (entryList s.disk (s.inode dir.inode)).length⟩) s := by
  have hsize := h.size
  rw [h.formatted.dirEntrySize_eq, ← length_entryList] at hsize
  refine returns_bind.mpr ⟨_, s, returns_inodeAt.mpr ⟨h.live, rfl, rfl⟩, ?_⟩
  refine returns_bind.mpr ⟨_, s, returns_collectBlocks.mpr ⟨fun _ ↦ ?_, rfl, rfl⟩, ?_⟩
  · exact Inode.held_table ▸ h.onDisk 140 (le_refl _)
  rw [hsize]
  dsimp only
  rcases Nat.eq_or_lt_of_le hi with heq | hlt
  · rw [if_neg (by omega), List.getElem?_eq_none (by omega), min_eq_right (by omega), heq]
    exact returns_pure.mpr ⟨rfl, rfl⟩
  · rw [if_pos (by omega), List.getElem?_eq_getElem hlt, min_eq_left (by omega)]
    have hread : Returns (readFrom E ((s.inode dir.inode).blocks s.disk) (24 * i) 140 0 (24 * 0)) s
        (entryList s.disk (s.inode dir.inode))[i] s := by
      refine returns_readFrom h.formatted (Nat.zero_le i) (fun k hk ↦ ?_) ?_
      · rw [← Inode.held_of_lt (by omega)]
        exact h.onDisk k (by omega)
      · rw [← entryList_eq, Nat.sub_zero, List.getElem?_eq_getElem hlt]
    refine returns_bind.mpr ⟨_, s, hread, returns_pure.mpr ⟨?_, rfl⟩⟩
    rw [h.formatted.dirEntrySize_eq]
    rfl

/-- The calls from the position behind `i` entries on. -/
theorem runDirCalls_from (h : s.Listable E dir) (calls : List DirCall) {i : ℕ} :
    ∃ d, Returns (runDirCalls E calls
        ⟨dir, 24 * min i (entryList s.disk (s.inode dir.inode)).length⟩) s
      (listing (entryList s.disk (s.inode dir.inode)) calls i, d) s := by
  set l := entryList s.disk (s.inode dir.inode) with hl
  induction calls generalizing i with
  | nil => exact ⟨_, returns_pure.mpr ⟨rfl, rfl⟩⟩
  | cons c calls ih =>
    cases c with
    | readdir =>
      obtain ⟨d, hd⟩ := ih (i := i + 1)
      have hread := returns_dirRead h (i := min i l.length) (min_le_right ..)
      have hget : l[min i l.length]? = l[i]? := by
        rcases Nat.le_total i l.length with hle | hle
        · rw [min_eq_left hle]
        · rw [min_eq_right hle, List.getElem?_eq_none hle, List.getElem?_eq_none (le_refl _)]
      have hpos : min (min i l.length + 1) l.length = min (i + 1) l.length := by omega
      rw [← hl, hget, hpos] at hread
      exact ⟨d, returns_bind.mpr ⟨_, s, hread, returns_bind.mpr ⟨_, s, hd,
        returns_pure.mpr ⟨rfl, rfl⟩⟩⟩⟩
    | rewinddir =>
      obtain ⟨d, hd⟩ := ih (i := 0)
      rw [Nat.zero_min] at hd
      exact ⟨d, hd⟩

/-- After any calls, a rewind and enough reads return the whole directory. -/
theorem runDirCalls_whole (h : s.Listable E dir) (calls : List DirCall) (n : ℕ) :
    ∃ d, Returns (runDirCalls E (calls ++ .rewinddir :: List.replicate
        ((entryList s.disk (s.inode dir.inode)).length + n) .readdir) ⟨dir, 0⟩) s
      (listing (entryList s.disk (s.inode dir.inode)) calls 0 ++
        ((entryList s.disk (s.inode dir.inode)).map some ++ List.replicate n none), d) s := by
  set l := entryList s.disk (s.inode dir.inode) with hl
  obtain ⟨d, hd⟩ := runDirCalls_from h
    (calls ++ .rewinddir :: List.replicate (l.length + n) .readdir) (i := 0)
  rw [Nat.zero_min, ← hl, listing_append_rewind, listing_replicate, getElem?_range'] at hd
  exact ⟨d, hd⟩

/-- **Reading a directory.** Whatever reads and rewinds a process makes on a freshly opened
directory, its reads return the live entries one after the other, each once and in the order of
blocks and slots, then `NULL`, and from the first again after a rewind. Every call returns, so
`all_blocks` is never accessed behind its end. -/
theorem runDirCalls_listing (h : s.Listable E dir) (calls : List DirCall) :
    ∃ d, Returns (runDirCalls E calls ⟨dir, 0⟩) s
      (listing (entryList s.disk (s.inode dir.inode)) calls 0, d) s := by
  obtain ⟨d, hd⟩ := runDirCalls_from h calls (i := 0)
  rw [Nat.zero_min] at hd
  exact ⟨d, hd⟩

/-- A rewind in the middle of a directory with 253 entries. -/
theorem runDirCalls_crowded : ∃ d, Returns
    (runDirCalls (Env.bump samplePartition) [.readdir, .readdir, .rewinddir, .readdir]
      ⟨⟨kHeapStart, none⟩, 0⟩) Fs.crowded
    (listing (entryList crowdedDisk crowdedInode) [.readdir, .readdir, .rewinddir, .readdir] 0, d)
    Fs.crowded :=
  runDirCalls_listing (crowded_wellFormed.listable crowded_mounted rfl) _

end Listing

end GlowOS
