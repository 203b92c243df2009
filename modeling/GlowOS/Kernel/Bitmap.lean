import Mathlib
import GlowOS.Lib.Bytes
import GlowOS.Lib.Scan

/-!
# Bitmaps

The bit arrays of `lib/kernel/bitmap.c`: a byte length and the bytes. Bit `i` lives in byte `i / 8`
at position `i % 8`. The length is not consulted when a bit is tested or set, exactly as in the
source; only the search respects it, and the search for more than one bit does so only for where it
starts.

`Bitmap.bit` is the abstract view, one truth value for each index, and the lemmas at the end say
what each operation does to it.
-/

namespace GlowOS

open Bytes Scan

/-- `struct bitmap`. -/
structure Bitmap where
  /-- The length in bytes. -/
  btmpBytesLen : ℕ
  /-- The bytes. -/
  bits : Image

namespace Bitmap

/-- `bitmap_scan_test`, as a truth value. -/
def scanTest (b : Bitmap) (i : ℕ) : Bool := (b.bits (i / 8)).toNat &&& (1 <<< (i % 8)) != 0

/-- `bitmap_set`: set bit `i` for a value other than 0, clear it otherwise. -/
def set (b : Bitmap) (i : ℕ) (value : Bool) : Bitmap :=
  let byte := (b.bits (i / 8)).toNat
  let mask := 1 <<< (i % 8)
  let byte' := if value then byte ||| mask else byte &&& (255 ^^^ mask)
  { b with bits := Function.update b.bits (i / 8) (UInt8.ofNat byte') }

/-- The loop of `bitmap_scan` over the bits after the first free one: `count` free bits end before
`next`, and `left` more bits are to be tested. -/
def scanRun (b : Bitmap) (cnt : ℕ) : ℕ → ℕ → ℕ → Option ℕ
  | 0, _, _ => none
  | left + 1, next, count =>
    let count' := if b.scanTest next then 0 else count + 1
    if count' = cnt then some (next + 1 - cnt) else scanRun b cnt left (next + 1) count'

/-- `bitmap_scan`: the start of `cnt` consecutive free bits, `none` for the source's -1. -/
def scan (b : Bitmap) (cnt : ℕ) : Option ℕ :=
  match firstFrom (fun k ↦ b.bits k != 0xff) b.btmpBytesLen 0 with
  | none => none
  | some k =>
    match firstFrom (fun j ↦ !(b.scanTest (8 * k + j))) 8 0 with
    | none => none
    | some j =>
      let start := j + 8 * k
      if cnt = 1 then some start
      else b.scanRun cnt (b.btmpBytesLen * 8 - start) (start + 1) 1

/-! ## The bit view -/

/-- Bit `i`. -/
def bit (b : Bitmap) (i : ℕ) : Bool := (b.bits (i / 8)).toNat.testBit (i % 8)

theorem scanTest_eq_bit (b : Bitmap) (i : ℕ) : b.scanTest i = b.bit i := by
  rw [scanTest, bit, Nat.shiftLeft_eq, one_mul, Nat.and_two_pow]
  cases (b.bits (i / 8)).toNat.testBit (i % 8) <;> simp

@[simp] theorem set_btmpBytesLen (b : Bitmap) (i : ℕ) (v : Bool) :
    (b.set i v).btmpBytesLen = b.btmpBytesLen := rfl

private theorem byte_lt (x : UInt8) : x.toNat < 2 ^ 8 := x.toNat_lt

private theorem testBit_ofNat {n j : ℕ} (hj : j < 8) :
    (UInt8.ofNat n).toNat.testBit j = n.testBit j := by
  rw [UInt8.toNat_ofNat', Nat.testBit_mod_two_pow]
  simp [hj]

/-- Setting a bit changes that bit and no other. -/
@[simp] theorem bit_set (b : Bitmap) (i j : ℕ) (v : Bool) :
    (b.set i v).bit j = if j = i then v else b.bit j := by
  have hj : j % 8 < 8 := Nat.mod_lt _ (by omega)
  by_cases hk : j / 8 = i / 8
  · have hbits : (b.set i v).bits (j / 8) = UInt8.ofNat (if v then
        (b.bits (i / 8)).toNat ||| 1 <<< (i % 8)
        else (b.bits (i / 8)).toNat &&& (255 ^^^ 1 <<< (i % 8))) := by
      rw [hk]
      exact Function.update_self ..
    have h255 : (255 : ℕ).testBit (j % 8) = true := by
      have : (255 : ℕ) = 2 ^ 8 - 1 := rfl
      rw [this, Nat.testBit_two_pow_sub_one]
      simpa using hj
    have hmask : (1 <<< (i % 8)).testBit (j % 8) = decide (j = i) := by
      rw [Nat.shiftLeft_eq, one_mul, Nat.testBit_two_pow]
      have : i % 8 = j % 8 ↔ j = i := by omega
      simp only [this]
    rw [bit, hbits, testBit_ofNat hj, bit, hk]
    cases v with
    | true =>
      rw [if_pos rfl, Nat.testBit_or, hmask]
      by_cases hji : j = i <;> simp [hji]
    | false =>
      rw [if_neg (by simp), Nat.testBit_and, Nat.testBit_xor, hmask, h255]
      by_cases hji : j = i <;> simp [hji]
  · have hji : j ≠ i := fun h ↦ hk (by rw [h])
    rw [if_neg hji, bit, bit]
    have : (b.set i v).bits (j / 8) = b.bits (j / 8) := Function.update_of_ne hk ..
    rw [this]

private theorem bit_of_byte_eq {b : Bitmap} {k j : ℕ} (hj : j < 8) :
    b.bit (8 * k + j) = (b.bits k).toNat.testBit j := by
  rw [bit]
  congr 2
  · congr 1
    omega
  · omega

private theorem byte_eq_ff_iff (x : UInt8) : x = 0xff ↔ ∀ j < 8, x.toNat.testBit j = true := by
  constructor
  · rintro rfl j hj
    have : (0xff : UInt8).toNat = 2 ^ 8 - 1 := rfl
    rw [this, Nat.testBit_two_pow_sub_one]
    simpa using hj
  · intro h
    apply UInt8.toNat_inj.mp
    apply Nat.eq_of_testBit_eq
    intro j
    have h255 : (0xff : UInt8).toNat = 2 ^ 8 - 1 := rfl
    rw [h255, Nat.testBit_two_pow_sub_one]
    by_cases hj : j < 8
    · rw [h j hj]
      simp [hj]
    · rw [Nat.testBit_lt_two_pow (lt_of_lt_of_le (byte_lt x)
        (Nat.pow_le_pow_right (by omega) (not_lt.mp hj)))]
      simp [hj]

/-- A byte that is not full has a free bit. -/
theorem exists_bit_of_byte_ne (b : Bitmap) {k : ℕ} (h : b.bits k ≠ 0xff) :
    ∃ j < 8, b.bit (8 * k + j) = false := by
  by_contra! hall
  refine h ((byte_eq_ff_iff _).mpr fun j hj ↦ ?_)
  rw [← bit_of_byte_eq hj]
  exact Bool.eq_true_of_not_eq_false (hall j hj)

/-- A search for one bit finds the first free bit below the length. -/
theorem scan_one_eq_some {b : Bitmap} {i : ℕ} :
    b.scan 1 = some i ↔
      i < 8 * b.btmpBytesLen ∧ b.bit i = false ∧ ∀ j < i, b.bit j = true := by
  have hfull : ∀ k, (b.bits k != 0xff) = false ↔ ∀ j < 8, b.bit (8 * k + j) = true := by
    intro k
    rw [bne_eq_false_iff_eq, byte_eq_ff_iff]
    exact forall₂_congr fun j hj ↦ by rw [bit_of_byte_eq hj]
  rw [scan]
  cases hbyte : firstFrom (fun k ↦ b.bits k != 0xff) b.btmpBytesLen 0 with
  | none =>
    rw [firstFrom_eq_none] at hbyte
    simp only [reduceCtorEq, false_iff, not_and]
    intro hi hb
    have := (hfull (i / 8)).mp (hbyte (i / 8) (by omega) (by omega)) (i % 8) (by omega)
    rw [Nat.div_add_mod] at this
    simp [this] at hb
  | some k =>
    obtain ⟨-, hk1, hk2, hk3⟩ := firstFrom_eq_some.mp hbyte
    simp only [scanTest_eq_bit, if_true]
    cases hbit : firstFrom (fun j ↦ !(b.bit (8 * k + j))) 8 0 with
    | none =>
      rw [firstFrom_eq_none] at hbit
      have : (b.bits k != 0xff) = false :=
        (hfull k).mpr fun j hj ↦ by simpa using hbit j (by omega) (by omega)
      simp [this] at hk2
    | some j =>
      obtain ⟨-, hj1, hj2, hj3⟩ := firstFrom_eq_some.mp hbit
      have hfree : b.bit (8 * k + j) = false := by simpa using hj2
      have hbelow : ∀ m < 8 * k + j, b.bit m = true := by
        intro m hm
        by_cases hmk : m / 8 = k
        · have := hj3 (m % 8) (by omega) (by omega)
          rw [← hmk, Nat.div_add_mod] at this
          simpa using this
        · have := (hfull (m / 8)).mp (hk3 (m / 8) (by omega) (by omega)) (m % 8) (by omega)
          rwa [Nat.div_add_mod] at this
      simp only [Option.some.injEq]
      constructor
      · rintro rfl
        rw [Nat.add_comm]
        exact ⟨by omega, hfree, hbelow⟩
      · rintro ⟨-, h2, h3⟩
        by_contra hne
        rcases Nat.lt_or_gt_of_ne hne with h | h
        · have := h3 (8 * k + j) (by omega)
          simp [hfree] at this
        · have := hbelow i (by omega)
          simp [h2] at this

/-- A search for one bit fails exactly when every bit below the length is set. -/
theorem scan_one_eq_none {b : Bitmap} :
    b.scan 1 = none ↔ ∀ i < 8 * b.btmpBytesLen, b.bit i = true := by
  constructor
  · intro h
    by_contra hne
    push Not at hne
    -- the least free bit would have been found
    have hex : ∃ i, i < 8 * b.btmpBytesLen ∧ b.bit i = false := by
      obtain ⟨i, hi, hb⟩ := hne
      exact ⟨i, hi, by simpa using hb⟩
    have hmin := Nat.find_spec hex
    have hbelow : ∀ j < Nat.find hex, b.bit j = true := by
      intro j hj
      by_contra hb
      exact Nat.find_min hex hj ⟨by omega, by simpa using hb⟩
    have := scan_one_eq_some.mpr ⟨hmin.1, hmin.2, hbelow⟩
    rw [h] at this
    cases this
  · intro h
    cases hs : b.scan 1 with
    | none => rfl
    | some i =>
      obtain ⟨h1, h2, -⟩ := scan_one_eq_some.mp hs
      simp [h i h1] at h2

/-- The search for more than one bit starts at the first free one. -/
theorem scan_eq_bind {b : Bitmap} {cnt : ℕ} (h : cnt ≠ 1) :
    b.scan cnt =
      (b.scan 1).bind fun start ↦
        b.scanRun cnt (b.btmpBytesLen * 8 - start) (start + 1) 1 := by
  rw [scan, scan]
  cases firstFrom (fun k ↦ b.bits k != 0xff) b.btmpBytesLen 0 with
  | none => rfl
  | some k =>
    simp only [if_neg h, if_true]
    cases firstFrom (fun j ↦ !(b.scanTest (8 * k + j))) 8 0 with
    | none => rfl
    | some j => rfl

/-- The loop keeps a run of free bits that ends where it stands. -/
theorem scanRun_spec {b : Bitmap} {cnt left next count s : ℕ} (hcnt : 0 < cnt) (hle : count ≤ next)
    (hrun : ∀ j, next ≤ j + count → j < next → b.bit j = false)
    (h : b.scanRun cnt left next count = some s) :
    s + cnt ≤ next + left ∧ ∀ j, s ≤ j → j < s + cnt → b.bit j = false := by
  induction left generalizing next count with
  | zero => cases h
  | succ left ih =>
    rw [scanRun, scanTest_eq_bit] at h
    cases hb : b.bit next with
    | true =>
      simp only [hb, if_true, if_neg (Nat.ne_of_lt hcnt)] at h
      obtain ⟨h1, h2⟩ := ih (Nat.zero_le _) (fun j h1 h2 ↦ by omega) h
      exact ⟨by omega, h2⟩
    | false =>
      have hrun' : ∀ j, next + 1 ≤ j + (count + 1) → j < next + 1 → b.bit j = false := by
        intro j h1 h2
        rcases Nat.lt_succ_iff_lt_or_eq.mp h2 with hlt | rfl
        · exact hrun j (by omega) hlt
        · exact hb
      simp only [hb, Bool.false_eq_true, if_false] at h
      by_cases hfound : count + 1 = cnt
      · rw [if_pos hfound] at h
        obtain rfl := Option.some.inj h
        exact ⟨by omega, fun j h1 h2 ↦ hrun' j (by omega) (by omega)⟩
      · rw [if_neg hfound] at h
        obtain ⟨h1, h2⟩ := ih (by omega) hrun' h
        exact ⟨by omega, h2⟩

/-- A search that succeeds finds free bits. The last of them may lie one behind the bitmap. -/
theorem scan_spec {b : Bitmap} {cnt s : ℕ} (hcnt : 0 < cnt) (h : b.scan cnt = some s) :
    s + cnt ≤ 8 * b.btmpBytesLen + 1 ∧ ∀ j, s ≤ j → j < s + cnt → b.bit j = false := by
  by_cases hone : cnt = 1
  · subst hone
    obtain ⟨h1, h2, -⟩ := scan_one_eq_some.mp h
    exact ⟨by omega, fun j h3 h4 ↦ by rwa [show j = s by omega]⟩
  · rw [scan_eq_bind hone] at h
    obtain ⟨start, h1, h2⟩ := Option.bind_eq_some_iff.mp h
    obtain ⟨hlen, hfree, -⟩ := scan_one_eq_some.mp h1
    obtain ⟨h3, h4⟩ := scanRun_spec hcnt (by omega)
      (fun j h5 h6 ↦ by rwa [show j = start by omega]) h2
    exact ⟨by omega, h4⟩

/-- `n` bits from `start` on get the value `v`. -/
def setRun (b : Bitmap) (start n : ℕ) (v : Bool) : Bitmap :=
  (List.range n).foldl (fun b k ↦ b.set (start + k) v) b

theorem setRun_succ (b : Bitmap) (start n : ℕ) (v : Bool) :
    b.setRun start (n + 1) v = (b.setRun start n v).set (start + n) v := by
  rw [setRun, setRun, List.range_succ, List.foldl_append, List.foldl_cons, List.foldl_nil]

@[simp] theorem setRun_btmpBytesLen (b : Bitmap) (start n : ℕ) (v : Bool) :
    (b.setRun start n v).btmpBytesLen = b.btmpBytesLen := by
  induction n with
  | zero => rfl
  | succ n ih => rw [setRun_succ, set_btmpBytesLen, ih]

theorem bit_setRun (b : Bitmap) (start n j : ℕ) (v : Bool) :
    (b.setRun start n v).bit j = if start ≤ j ∧ j < start + n then v else b.bit j := by
  induction n with
  | zero =>
    rw [if_neg (by omega)]
    rfl
  | succ n ih =>
    rw [setRun_succ, bit_set, ih]
    by_cases hj : j = start + n
    · rw [if_pos hj, if_pos (by omega)]
    · rw [if_neg hj]
      by_cases hin : start ≤ j ∧ j < start + n
      · rw [if_pos hin, if_pos (by omega)]
      · rw [if_neg hin, if_neg (by omega)]

/-- How many bits below the length are free. -/
def freeCount (b : Bitmap) : ℕ :=
  ((Finset.range (8 * b.btmpBytesLen)).filter fun i ↦ b.bit i = false).card

/-- Setting a free bit takes one of them. -/
theorem freeCount_set {b : Bitmap} {i : ℕ} (hi : i < 8 * b.btmpBytesLen) (hfree : b.bit i = false) :
    (b.set i true).freeCount + 1 = b.freeCount := by
  have hmem : i ∈ (Finset.range (8 * b.btmpBytesLen)).filter fun i ↦ b.bit i = false :=
    Finset.mem_filter.mpr ⟨Finset.mem_range.mpr hi, hfree⟩
  have herase : ((Finset.range (8 * b.btmpBytesLen)).filter fun j ↦ (b.set i true).bit j = false) =
      ((Finset.range (8 * b.btmpBytesLen)).filter fun i ↦ b.bit i = false).erase i := by
    ext j
    rw [Finset.mem_erase, Finset.mem_filter, Finset.mem_filter, bit_set]
    by_cases hj : j = i
    · simp [hj]
    · simp [hj]
  rw [freeCount, set_btmpBytesLen, herase, Finset.card_erase_add_one hmem, freeCount]

/-- A search finds a free bit if there is one. -/
theorem exists_scan_one {b : Bitmap} (h : 0 < b.freeCount) : ∃ i, b.scan 1 = some i := by
  obtain ⟨i, hi⟩ := Finset.card_pos.mp h
  obtain ⟨hlt, hfree⟩ := Finset.mem_filter.mp hi
  cases hs : b.scan 1 with
  | some k => exact ⟨k, rfl⟩
  | none =>
    have hset := scan_one_eq_none.mp hs i (Finset.mem_range.mp hlt)
    rw [hset] at hfree
    cases hfree

end Bitmap

end GlowOS
