import Mathlib
import GlowOS.Fs.Cache
import GlowOS.Lib.Scan

/-!
# Directory entries

A directory is a file whose blocks are arrays of 24-byte entries, 21 in a block; an entry does not
cross a block. A file name has 16 bytes. If all of them are in use there is no terminator, and a
comparison with `strcmp` runs on into the inode number that follows.
-/

namespace GlowOS

open Bytes Program Scan

/-! ## The record -/

/-- `enum file_types`, with the values the enumeration does not name. -/
inductive FileType
  | unknown
  | regular
  | directory
  | other (v : ℕ)
  deriving DecidableEq, Repr

/-- The value of a file type. -/
def FileType.word : FileType → ℕ
  | .unknown => 0
  | .regular => 1
  | .directory => 2
  | .other v => v

/-- The file type with a given value. -/
def FileType.ofWord (v : ℕ) : FileType :=
  if v = 0 then .unknown else if v = 1 then .regular else if v = 2 then .directory else .other v

/-- `struct dir_entry`. -/
structure DirEntry where
  /-- The 16 bytes of the name, with zero behind them. -/
  filename : ℕ → UInt8
  iNo : ℕ
  fType : FileType

namespace DirEntry

/-- The entry stored at offset `o`. -/
def decode (b : Image) (o : ℕ) : DirEntry where
  filename i := if i < 16 then b (o + i) else 0
  iNo := le32 b (o + 16)
  fType := FileType.ofWord (le32 b (o + 20))

/-- The 24 bytes of an entry. -/
def encode (e : DirEntry) : Image :=
  fun i ↦ if i < 16 then e.filename i else ofWords (fun k ↦ if k = 4 then e.iNo else e.fType.word) i

/-- The fields hold what the record has room for. -/
structure Fits (e : DirEntry) : Prop where
  filename : ∀ i, 16 ≤ i → e.filename i = 0
  iNo : e.iNo < 2 ^ 32
  fType : e.fType.word < 2 ^ 32
  other : ∀ v, e.fType = .other v → 3 ≤ v

theorem decode_congr {b b' : Image} {o o' : ℕ} (h : ∀ i < 24, b (o + i) = b' (o' + i)) :
    decode b o = decode b' o' := by
  have hw : ∀ c, c + 4 ≤ 24 → le32 b (o + c) = le32 b' (o' + c) := by
    intro c hc
    refine le32_congr fun i hi ↦ ?_
    rw [Nat.add_assoc, Nat.add_assoc]
    exact h _ (by omega)
  rw [decode, decode, hw 16 (by decide), hw 20 (by decide)]
  congr 1
  funext i
  by_cases hi : i < 16
  · rw [if_pos hi, if_pos hi, h i (by omega)]
  · rw [if_neg hi, if_neg hi]

theorem ofWord_word {t : FileType} (h : ∀ v, t = .other v → 3 ≤ v) :
    FileType.ofWord t.word = t := by
  cases t with
  | unknown => rfl
  | regular => rfl
  | directory => rfl
  | other v =>
    have hv := h v rfl
    rw [FileType.word, FileType.ofWord, if_neg (by omega), if_neg (by omega), if_neg (by omega)]

theorem word_ofWord (v : ℕ) : (FileType.ofWord v).word = v := by
  rw [FileType.ofWord]
  split_ifs with h0 h1 h2
  · exact h0.symm
  · exact h1.symm
  · exact h2.symm
  · rfl

/-- An entry determines the bytes it is stored in. -/
theorem decode_inj {b b' : Image} {o o' : ℕ} (h : decode b o = decode b' o') :
    ∀ i < 24, b (o + i) = b' (o' + i) := by
  have hname := congrArg filename h
  have hno : le32 b (o + 16) = le32 b' (o' + 16) := congrArg iNo h
  have hty : le32 b (o + 20) = le32 b' (o' + 20) := by
    rw [← word_ofWord (le32 b (o + 20)), ← word_ofWord (le32 b' (o' + 20))]
    exact congrArg (fun e ↦ e.fType.word) h
  have hword : ∀ c, le32 b (o + c) = le32 b' (o' + c) → ∀ i, c ≤ i → i < c + 4 →
      b (o + i) = b' (o' + i) := by
    intro c hc i h1 h2
    have hi := le32_inj hc (i - c) (by omega)
    rwa [show o + c + (i - c) = o + i by omega, show o' + c + (i - c) = o' + i by omega] at hi
  intro i hi
  by_cases h16 : i < 16
  · simpa only [decode, if_pos h16] using congrFun hname i
  · by_cases h20 : i < 20
    · exact hword 16 hno i (by omega) (by omega)
    · exact hword 20 hty i (by omega) (by omega)

/-- An entry reads back as it was written. -/
theorem decode_encode {e : DirEntry} (hf : e.Fits) : decode e.encode 0 = e := by
  have hword : ∀ k, 4 ≤ k → k < 6 →
      le32 e.encode (0 + 4 * k) = if k = 4 then e.iNo else e.fType.word := by
    intro k h4 h6
    have hlt : (if k = 4 then e.iNo else e.fType.word) < 2 ^ 32 := by
      split_ifs
      · exact hf.iNo
      · exact hf.fType
    refine Eq.trans (le32_congr fun i hi ↦ ?_)
      (le32_ofWords (w := fun k ↦ if k = 4 then e.iNo else e.fType.word) hlt)
    rw [Nat.zero_add, encode, if_neg (by omega)]
  obtain ⟨name, no, ty⟩ := e
  have h16 := hword 4 (by omega) (by omega)
  have h20 := hword 5 (by omega) (by omega)
  rw [decode, h16, h20, if_pos rfl, if_neg (by decide), ofWord_word hf.other]
  congr 1
  funext i
  by_cases hi : i < 16
  · rw [if_pos hi, Nat.zero_add, encode, if_pos hi]
  · rw [if_neg hi]
    exact (hf.filename i (by omega)).symm

theorem decode_splice_of_disjoint {d g : Image} {o n p : ℕ} (h : p + 24 ≤ o ∨ o + n ≤ p) :
    decode (splice d o n g) p = decode d p :=
  decode_congr fun i hi ↦ splice_of_disjoint (by omega)

theorem decode_splice_self {d g : Image} {o : ℕ} : decode (splice d o 24 g) o = decode g 0 :=
  decode_congr fun i hi ↦ by rw [splice_add, if_pos hi, Nat.zero_add]

/-! ## Names -/

/-- `strlen` of the name, which is 16 if there is no terminator. -/
def nameLen (e : DirEntry) : ℕ := (firstFrom (fun i ↦ e.filename i == 0) 16 0).getD 16

/-- The name, as a string. -/
def name (e : DirEntry) : List UInt8 := (List.range e.nameLen).map e.filename

/-- A comparison with the name stops before the end of the inode number. -/
def Terminated (e : DirEntry) : Prop := e.nameLen < 16 ∨ e.iNo % 256 = 0

theorem nameLen_le (e : DirEntry) : e.nameLen ≤ 16 := by
  rw [nameLen]
  cases h : firstFrom (fun i ↦ e.filename i == 0) 16 0 with
  | none => simp
  | some n =>
    have hn := (firstFrom_eq_some.mp h).2.1
    rw [Option.getD_some]
    omega

theorem filename_ne_zero {e : DirEntry} {i : ℕ} (hi : i < e.nameLen) : e.filename i ≠ 0 := by
  rw [nameLen] at hi
  cases h : firstFrom (fun i ↦ e.filename i == 0) 16 0 with
  | none =>
    rw [h, Option.getD_none] at hi
    simpa using firstFrom_eq_none.mp h i (by omega) (by omega)
  | some n =>
    rw [h, Option.getD_some] at hi
    simpa using (firstFrom_eq_some.mp h).2.2.2 i (by omega) hi

theorem filename_nameLen {e : DirEntry} (h : e.nameLen < 16) : e.filename e.nameLen = 0 := by
  rw [nameLen] at h ⊢
  cases hf : firstFrom (fun i ↦ e.filename i == 0) 16 0 with
  | none =>
    rw [hf, Option.getD_none] at h
    omega
  | some n =>
    rw [Option.getD_some]
    simpa using (firstFrom_eq_some.mp hf).2.2.1

@[simp] theorem length_name (e : DirEntry) : e.name.length = e.nameLen := by simp [name]

@[simp] theorem getElem_name (e : DirEntry) {i : ℕ} (hi : i < e.name.length) :
    e.name[i] = e.filename i := by simp [name]

theorem zero_notMem_name (e : DirEntry) : (0 : UInt8) ∉ e.name := by
  intro h
  obtain ⟨i, hi, h0⟩ := List.mem_map.mp h
  exact filename_ne_zero (List.mem_range.mp hi) h0

end DirEntry

/-! ## Comparing strings -/

/-- `!strcmp` of the string at offset `o` of a buffer with a string. -/
def strEq (b : Image) : ℕ → List UInt8 → Bool
  | o, [] => b o == 0
  | o, c :: cs => b o == c && strEq b (o + 1) cs

theorem strEq_iff {b : Image} {o : ℕ} {name : List UInt8} :
    strEq b o name = true ↔
      (∀ (i : ℕ) (hi : i < name.length), b (o + i) = name[i]) ∧ b (o + name.length) = 0 := by
  induction name generalizing o with
  | nil => simp [strEq]
  | cons c cs ih =>
    have hlen : o + (c :: cs).length = o + 1 + cs.length := by
      rw [List.length_cons]
      omega
    rw [strEq, Bool.and_eq_true, ih, hlen, beq_iff_eq]
    constructor
    · rintro ⟨h0, h1, h2⟩
      refine ⟨fun i hi ↦ ?_, h2⟩
      cases i with
      | zero => exact h0
      | succ i =>
        rw [List.getElem_cons_succ, ← h1 i (by simpa using hi)]
        congr 1
        omega
    · rintro ⟨h1, h2⟩
      refine ⟨h1 0 (by simp), fun i hi ↦ ?_, h2⟩
      have h := h1 (i + 1) (by simpa using hi)
      rw [List.getElem_cons_succ] at h
      rw [← h]
      congr 1
      omega

/-- If there is a zero among `n` bytes, a comparison depends on these bytes only. -/
theorem strEq_congr_of_zero {b b' : Image} {o o' n z : ℕ} {name : List UInt8}
    (h : ∀ i < n, b (o + i) = b' (o' + i)) (hz : z < n) (h0 : b (o + z) = 0)
    (hname : (0 : UInt8) ∉ name) : strEq b o name = strEq b' o' name := by
  rw [Bool.eq_iff_iff, strEq_iff, strEq_iff]
  by_cases hlen : name.length ≤ z
  · rw [h _ (by omega)]
    refine and_congr_left fun _ ↦ forall₂_congr fun i hi ↦ ?_
    rw [h i (by omega)]
  · have hlt : z < name.length := by omega
    have hne : name[z] ≠ 0 := fun heq ↦ hname (heq ▸ List.getElem_mem hlt)
    constructor
    · rintro ⟨hs, -⟩
      exact absurd ((hs z hlt).symm.trans h0) hne
    · rintro ⟨hs, -⟩
      exact absurd ((hs z hlt).symm.trans ((h z hz).symm.trans h0)) hne

/-- A buffer holds at most one string at an offset. -/
theorem strEq_unique {b : Image} {o : ℕ} {xs ys : List UInt8} (hx : strEq b o xs = true)
    (hy : strEq b o ys = true) (hxz : (0 : UInt8) ∉ xs) (hyz : (0 : UInt8) ∉ ys) : xs = ys := by
  obtain ⟨hx1, hx2⟩ := strEq_iff.mp hx
  obtain ⟨hy1, hy2⟩ := strEq_iff.mp hy
  have key : ∀ {us vs : List UInt8}, (∀ (i : ℕ) (hi : i < vs.length), b (o + i) = vs[i]) →
      (0 : UInt8) ∉ vs → b (o + us.length) = 0 → vs.length ≤ us.length := by
    intro us vs h1 hz h2
    by_contra hlt
    push Not at hlt
    exact hz ((h1 _ hlt).symm.trans h2 ▸ List.getElem_mem hlt)
  have hlen : xs.length = ys.length := le_antisymm (key hx1 hxz hy2) (key hy1 hyz hx2)
  exact List.ext_getElem hlen fun i h1 h2 ↦ (hx1 i h1).symm.trans (hy1 i h2)

namespace DirEntry

variable {b : Image} {o : ℕ}

theorem decode_filename {i : ℕ} (hi : i < 16) : (decode b o).filename i = b (o + i) := if_pos hi

/-- The stored name is terminated by a byte of the name or by the inode number. -/
theorem strEq_name (ht : (decode b o).Terminated) : strEq b o (decode b o).name = true := by
  have hle := (decode b o).nameLen_le
  refine strEq_iff.mpr ⟨fun i hi ↦ ?_, ?_⟩
  · rw [length_name] at hi
    rw [getElem_name, decode_filename (by omega)]
  · rw [length_name]
    by_cases hlt : (decode b o).nameLen < 16
    · exact (decode_filename hlt).symm.trans (filename_nameLen hlt)
    · have h16 : (decode b o).nameLen = 16 := by omega
      rcases ht with ht | ht
      · omega
      · have hmod : (decode b o).iNo % 256 = (b (o + 16)).toNat := by
          have hb := (b (o + 16)).toNat_lt
          simp only [decode, le32]
          omega
        rw [h16]
        exact UInt8.toNat_inj.mp (hmod.symm.trans ht)

/-- A search for a string finds exactly the entries with this name. -/
theorem strEq_iff_name (ht : (decode b o).Terminated) {name : List UInt8}
    (hz : (0 : UInt8) ∉ name) : strEq b o name = true ↔ (decode b o).name = name := by
  constructor
  · intro h
    exact strEq_unique (strEq_name ht) h (zero_notMem_name _) hz
  · rintro rfl
    exact strEq_name ht

/-- An entry without a terminator is not found under a name of at most 16 bytes. -/
theorem strEq_of_not_terminated (ht : ¬(decode b o).Terminated) {name : List UInt8}
    (hlen : name.length ≤ 16) : strEq b o name = false := by
  rw [Terminated, not_or] at ht
  obtain ⟨h1, h2⟩ := ht
  have hle := (decode b o).nameLen_le
  by_contra h
  obtain ⟨-, h0⟩ := strEq_iff.mp (Bool.not_eq_false _ ▸ h)
  by_cases hlt : name.length < 16
  · have hne := filename_ne_zero (e := decode b o) (i := name.length) (by omega)
    rw [decode_filename hlt] at hne
    exact hne h0
  · have h16 : name.length = 16 := by omega
    have hmod : (decode b o).iNo % 256 = (b (o + 16)).toNat := by
      have hb := (b (o + 16)).toNat_lt
      simp only [decode, le32]
      omega
    rw [h16] at h0
    rw [hmod, h0] at h2
    exact h2 rfl

end DirEntry

/-! ## The entries of a directory -/

/-- Entry `j` of block `lba`. -/
def entryAt (d : Image) (lba j : ℕ) : DirEntry := DirEntry.decode d (512 * lba + 24 * j)

/-- The blocks of an inode: twelve direct ones and those of the indirect table. -/
def Inode.blocks (d : Image) (ino : Inode) (k : ℕ) : ℕ :=
  if k < 12 then ino.iSectors k
  else if ino.iSectors 12 ≠ 0 then tableAt d (ino.iSectors 12) (k - 12) else 0

theorem returns_collectBlocks {ino : Inode} {s s' : Fs} {r : ℕ → ℕ} :
    Returns (collectBlocks ino) s r s' ↔
      (ino.iSectors 12 ≠ 0 → ino.iSectors 12 ≤ maxLba) ∧ r = ino.blocks s.disk ∧ s' = s := by
  by_cases h0 : ino.iSectors 12 ≠ 0
  · have hblocks : (fun i ↦ if i < 12 then ino.direct i
        else le32 (fun j ↦ s.disk (512 * ino.iSectors 12 + j)) (4 * (i - 12)))
          = ino.blocks s.disk := by
      funext i
      by_cases hi : i < 12
      · simp only [Inode.blocks, Inode.direct, if_pos hi]
      · simp only [Inode.blocks, if_neg hi, if_pos h0, tableAt]
        exact le32_congr fun j _ ↦ by rw [Nat.add_assoc]
    rw [collectBlocks, if_pos h0, readTable, returns_bind]
    constructor
    · rintro ⟨b, t, h1, h⟩
      obtain ⟨hlba, -, -, rfl, rfl⟩ := (returns_ideRead (by decide)).mp h1
      obtain ⟨rfl, rfl⟩ := returns_pure.mp h
      exact ⟨fun _ ↦ hlba, hblocks, rfl⟩
    · rintro ⟨hlba, rfl, rfl⟩
      exact ⟨_, s', (returns_ideRead (by decide)).mpr
        ⟨hlba h0, by decide, by decide, rfl, rfl⟩, returns_pure.mpr ⟨hblocks.symm, rfl⟩⟩
  · have hblocks : ino.direct = ino.blocks s.disk := by
      funext i
      simp only [Inode.blocks, Inode.direct, if_neg h0]
    rw [collectBlocks, if_neg h0, returns_pure, hblocks]
    constructor
    · rintro ⟨rfl, rfl⟩
      exact ⟨fun h ↦ absurd h h0, rfl, rfl⟩
    · rintro ⟨-, rfl, rfl⟩
      exact ⟨rfl, rfl⟩

end GlowOS
