import Mathlib
import GlowOS.Kernel.Bitmap

/-!
# The search for consecutive free bits

`bitmap_scan` in 32-bit words, with the source's -1 as the largest word, and what it finds. The loop
over the bits behind the first free one makes as many rounds as there are bits from that one on, so
its last round tests the bit behind the bitmap. For a single bit the loop is not entered; for more
than one the search finds the first run among the bits of the bitmap and the one behind them.

The answer is therefore wrong, or right by luck, exactly when no run fits and all but one of the
bits wanted are free at the end of the bitmap.
-/

namespace GlowOS

open Bytes Scan

namespace Bitmap

/-! ## The search in words -/

/-- The loop of `bitmap_scan` over the bits after the first free one, in words. -/
def bitmapScanRun (b : Bitmap) (cnt : ℕ) : ℕ → ℕ → ℕ → ℕ
  | 0, _, _ => 2 ^ 32 - 1
  | bitLeft + 1, nextBit, count =>
    let count' := if b.scanTest nextBit then 0 else (count + 1) % 2 ^ 32
    if count' = cnt then (nextBit + 2 ^ 32 - cnt + 1) % 2 ^ 32
    else bitmapScanRun b cnt bitLeft ((nextBit + 1) % 2 ^ 32) count'

/-- `bitmap_scan`, in words: the start of `cnt` consecutive free bits or -1. -/
def bitmapScan (b : Bitmap) (cnt : ℕ) : ℕ :=
  match firstFrom (fun k ↦ b.bits k != 0xff) b.btmpBytesLen 0 with
  | none => 2 ^ 32 - 1
  | some idxByte =>
    match firstFrom (fun j ↦ !(b.scanTest (8 * idxByte + j))) 8 0 with
    | none => 2 ^ 32 - 1
    | some idxBit =>
      let idxBitStart := (idxBit + 8 * idxByte) % 2 ^ 32
      if cnt = 1 then idxBitStart
      else b.bitmapScanRun cnt ((b.btmpBytesLen * 8 % 2 ^ 32 + 2 ^ 32 - idxBitStart) % 2 ^ 32)
        ((idxBitStart + 1) % 2 ^ 32) 1

/-- An index or -1 as a word. -/
def indexWord : Option ℕ → ℕ
  | none => 2 ^ 32 - 1
  | some s => s

variable {b b' : Bitmap} {cnt s : ℕ}

theorem bitmapScanRun_eq {left next count : ℕ} (hcnt : cnt < 2 ^ 32)
    (hend : next + left < 2 ^ 32) (hle : count ≤ next) :
    b.bitmapScanRun cnt left next count = indexWord (b.scanRun cnt left next count) := by
  induction left generalizing next count with
  | zero => rfl
  | succ left ih =>
    have hcount : (count + 1) % 2 ^ 32 = count + 1 := Nat.mod_eq_of_lt (by omega)
    have hnext : (next + 1) % 2 ^ 32 = next + 1 := Nat.mod_eq_of_lt (by omega)
    rw [bitmapScanRun, scanRun, hcount, hnext]
    cases hb : b.scanTest next with
    | true =>
      simp only [if_true]
      split_ifs with hfound
      · simp only [indexWord]
        omega
      · exact ih (by omega) (Nat.zero_le _)
    | false =>
      simp only [Bool.false_eq_true, if_false]
      split_ifs with hfound
      · simp only [indexWord]
        omega
      · exact ih (by omega) (by omega)

/-- Where every bit has a 32-bit index, no operation wraps around. -/
theorem bitmapScan_eq (hlen : b.btmpBytesLen < 2 ^ 29) (hcnt : cnt < 2 ^ 32) :
    b.bitmapScan cnt = indexWord (b.scan cnt) := by
  rw [bitmapScan, scan]
  cases hbyte : firstFrom (fun k ↦ b.bits k != 0xff) b.btmpBytesLen 0 with
  | none => rfl
  | some k =>
    obtain ⟨-, hk, -⟩ := firstFrom_eq_some.mp hbyte
    dsimp only
    cases hbit : firstFrom (fun j ↦ !(b.scanTest (8 * k + j))) 8 0 with
    | none => rfl
    | some j =>
      obtain ⟨-, hj, -⟩ := firstFrom_eq_some.mp hbit
      have hstart : (j + 8 * k) % 2 ^ 32 = j + 8 * k := Nat.mod_eq_of_lt (by omega)
      have hleft : (b.btmpBytesLen * 8 % 2 ^ 32 + 2 ^ 32 - (j + 8 * k)) % 2 ^ 32 =
          b.btmpBytesLen * 8 - (j + 8 * k) := by
        omega
      have hnext : (j + 8 * k + 1) % 2 ^ 32 = j + 8 * k + 1 := Nat.mod_eq_of_lt (by omega)
      simp only [hstart, hleft, hnext]
      split_ifs with hone
      · rfl
      · exact bitmapScanRun_eq hcnt (by omega) (by omega)

/-! ## Runs of free bits -/

/-- The `cnt` bits from `s` on are free. -/
def FreeFrom (b : Bitmap) (cnt s : ℕ) : Prop := ∀ j, s ≤ j → j < s + cnt → b.bit j = false

/-- Among the first `n` bits, `s` is the first start of `cnt` free ones. -/
structure FirstRun (b : Bitmap) (n cnt s : ℕ) : Prop where
  fits : s + cnt ≤ n
  free : b.FreeFrom cnt s
  first : ∀ t < s, ¬b.FreeFrom cnt t

/-- No `cnt` consecutive bits among the first `n` are free. -/
def NoRun (b : Bitmap) (n cnt : ℕ) : Prop := ∀ s, s + cnt ≤ n → ¬b.FreeFrom cnt s

theorem FirstRun.unique {n t : ℕ} (hs : b.FirstRun n cnt s) (ht : b.FirstRun n cnt t) : s = t := by
  rcases Nat.lt_trichotomy s t with h | h | h
  · exact absurd hs.free (ht.first s h)
  · exact h
  · exact absurd ht.free (hs.first t h)

theorem FirstRun.not_noRun {n : ℕ} (hs : b.FirstRun n cnt s) : ¬b.NoRun n cnt :=
  fun h ↦ h s hs.fits hs.free

theorem FreeFrom.congr (h : b.FreeFrom cnt s) (hbit : ∀ j, s ≤ j → j < s + cnt → b'.bit j = b.bit j) :
    b'.FreeFrom cnt s :=
  fun j h1 h2 ↦ (hbit j h1 h2).trans (h j h1 h2)

/-- The loop has excluded the starts from which a run would have ended before. It finds the first
start that is left. -/
theorem scanRun_first {left next count : ℕ} (hcount : count < cnt)
    (hbelow : ∀ t, t + count < next → ¬b.FreeFrom cnt t) :
    (∀ s, b.scanRun cnt left next count = some s → ∀ t < s, ¬b.FreeFrom cnt t) ∧
      (b.scanRun cnt left next count = none → b.NoRun (next + left) cnt) := by
  induction left generalizing next count with
  | zero => exact ⟨fun s h ↦ (by cases h), fun _ t ht ↦ hbelow t (by omega)⟩
  | succ left ih =>
    rw [scanRun, scanTest_eq_bit, show next + (left + 1) = next + 1 + left by omega]
    cases hb : b.bit next with
    | true =>
      -- a run from between the counted bits and this one would contain it
      have hbelow' : ∀ t, t + 0 < next + 1 → ¬b.FreeFrom cnt t := by
        intro t ht hfree
        by_cases hold : t + count < next
        · exact hbelow t hold hfree
        · have := hfree next (by omega) (by omega)
          rw [hb] at this
          cases this
      simp only [if_true, if_neg (show 0 ≠ cnt by omega)]
      exact ih (by omega) hbelow'
    | false =>
      have hbelow' : ∀ t, t + (count + 1) < next + 1 → ¬b.FreeFrom cnt t :=
        fun t ht ↦ hbelow t (by omega)
      simp only [Bool.false_eq_true, if_false]
      split_ifs with hfound
      · refine ⟨fun s h t ht ↦ ?_, fun h ↦ (by cases h)⟩
        obtain rfl := Option.some.inj h
        exact hbelow t (by omega)
      · exact ih (by omega) hbelow'

/-- **A search for more than one bit** finds the first run among the bits of the bitmap and the one
behind them. -/
theorem scan_firstRun (hcnt : 2 ≤ cnt) (h : b.scan cnt = some s) :
    b.FirstRun (8 * b.btmpBytesLen + 1) cnt s := by
  obtain ⟨hfits, hfree⟩ := scan_spec (by omega) h
  rw [scan_eq_bind (by omega)] at h
  obtain ⟨start, h1, h2⟩ := Option.bind_eq_some_iff.mp h
  obtain ⟨-, -, hset⟩ := scan_one_eq_some.mp h1
  have hbelow : ∀ t, t + 1 < start + 1 → ¬b.FreeFrom cnt t := by
    intro t ht hrun
    have := hrun t (Nat.le_refl t) (by omega)
    rw [hset t (by omega)] at this
    cases this
  exact ⟨hfits, hfree, (scanRun_first (by omega) hbelow).1 s h2⟩

theorem scan_noRun (hcnt : 2 ≤ cnt) (h : b.scan cnt = none) :
    b.NoRun (8 * b.btmpBytesLen + 1) cnt := by
  rw [scan_eq_bind (by omega)] at h
  rcases Option.bind_eq_none_iff.mp h with h
  cases h1 : b.scan 1 with
  | none =>
    -- every bit of the bitmap is set, and a run has one of them
    intro t ht hrun
    have := hrun t (Nat.le_refl t) (by omega)
    rw [scan_one_eq_none.mp h1 t (by omega)] at this
    cases this
  | some start =>
    obtain ⟨hlt, -, hset⟩ := scan_one_eq_some.mp h1
    have hbelow : ∀ t, t + 1 < start + 1 → ¬b.FreeFrom cnt t := by
      intro t ht hrun
      have := hrun t (Nat.le_refl t) (by omega)
      rw [hset t (by omega)] at this
      cases this
    have hrun := (scanRun_first (by omega) hbelow).2 (h start h1)
    rwa [show start + 1 + (b.btmpBytesLen * 8 - start) = 8 * b.btmpBytesLen + 1 by omega] at hrun

/-! ## What the search should find -/

/-- The answer to a search: the first run in the bitmap, or -1 if there is none. -/
def Answers (b : Bitmap) (cnt r : ℕ) : Prop :=
  b.FirstRun (8 * b.btmpBytesLen) cnt r ∨ b.NoRun (8 * b.btmpBytesLen) cnt ∧ r = 2 ^ 32 - 1

/-- The same bitmap, with any bytes behind it. -/
def SameInside (b b' : Bitmap) : Prop :=
  b'.btmpBytesLen = b.btmpBytesLen ∧ ∀ k < b.btmpBytesLen, b'.bits k = b.bits k

/-- The search answers, and not by what stands behind the bitmap. -/
def ScansItself (b : Bitmap) (cnt : ℕ) : Prop :=
  b.Answers cnt (b.bitmapScan cnt) ∧
    ∀ b', b.SameInside b' → b'.bitmapScan cnt = b.bitmapScan cnt

/-- No run fits, and of the bits wanted all but one are free at the end of the bitmap. -/
structure OneShort (b : Bitmap) (cnt : ℕ) : Prop where
  two : 2 ≤ cnt
  none : b.NoRun (8 * b.btmpBytesLen) cnt
  le : cnt ≤ 8 * b.btmpBytesLen + 1
  free : b.FreeFrom (cnt - 1) (8 * b.btmpBytesLen + 1 - cnt)

theorem SameInside.bit (h : b.SameInside b') {j : ℕ} (hj : j < 8 * b.btmpBytesLen) :
    b'.bit j = b.bit j := by
  rw [Bitmap.bit, Bitmap.bit, h.2 (j / 8) (by omega)]

theorem SameInside.symm (h : b.SameInside b') : b'.SameInside b :=
  ⟨h.1.symm, fun k hk ↦ (h.2 k (h.1 ▸ hk)).symm⟩

theorem SameInside.freeFrom (h : b.SameInside b') (hfits : s + cnt ≤ 8 * b.btmpBytesLen) :
    b'.FreeFrom cnt s ↔ b.FreeFrom cnt s :=
  ⟨fun hf ↦ hf.congr fun j _ h2 ↦ (h.bit (by omega)).symm,
    fun hf ↦ hf.congr fun j _ h2 ↦ h.bit (by omega)⟩

theorem SameInside.noRun (h : b.SameInside b') :
    b'.NoRun (8 * b'.btmpBytesLen) cnt ↔ b.NoRun (8 * b.btmpBytesLen) cnt := by
  rw [NoRun, NoRun, h.1]
  exact forall₂_congr fun s hs ↦ not_congr (h.freeFrom hs)

theorem SameInside.firstRun (h : b.SameInside b') :
    b'.FirstRun (8 * b'.btmpBytesLen) cnt s ↔ b.FirstRun (8 * b.btmpBytesLen) cnt s := by
  constructor
  · rintro ⟨h1, h2, h3⟩
    rw [h.1] at h1
    exact ⟨h1, (h.freeFrom h1).mp h2, fun t ht hf ↦ h3 t ht ((h.freeFrom (by omega)).mpr hf)⟩
  · rintro ⟨h1, h2, h3⟩
    exact ⟨h.1 ▸ h1, (h.freeFrom h1).mpr h2,
      fun t ht hf ↦ h3 t ht ((h.freeFrom (by omega)).mp hf)⟩

theorem SameInside.answers (h : b.SameInside b') {r : ℕ} :
    b'.Answers cnt r ↔ b.Answers cnt r :=
  or_congr h.firstRun (and_congr_left' h.noRun)

theorem SameInside.oneShort (h : b.SameInside b') : b'.OneShort cnt ↔ b.OneShort cnt := by
  constructor
  · rintro ⟨h1, h2, h3, h4⟩
    rw [h.1] at h3 h4
    exact ⟨h1, h.noRun.mp h2, h3, (h.freeFrom (by omega)).mp h4⟩
  · rintro ⟨h1, h2, h3, h4⟩
    exact ⟨h1, h.noRun.mpr h2, h.1 ▸ h3, h.1 ▸ (h.freeFrom (by omega)).mpr h4⟩

/-- There is one answer. -/
theorem Answers.unique {r r' : ℕ} (h : b.Answers cnt r) (h' : b.Answers cnt r') : r = r' := by
  rcases h with h | ⟨h, rfl⟩ <;> rcases h' with h' | ⟨h', rfl⟩
  · exact h.unique h'
  · exact absurd h' h.not_noRun
  · exact absurd h h'.not_noRun
  · rfl

/-- Except at the end of the bitmap the search answers. -/
theorem answers_bitmapScan (hlen : b.btmpBytesLen < 2 ^ 29) (hcnt : 1 ≤ cnt) (hword : cnt < 2 ^ 32)
    (h : ¬b.OneShort cnt) : b.Answers cnt (b.bitmapScan cnt) := by
  rw [bitmapScan_eq hlen hword]
  cases hs : b.scan cnt with
  | some s =>
    refine Or.inl (show b.FirstRun (8 * b.btmpBytesLen) cnt s from ?_)
    rcases Nat.eq_or_lt_of_le hcnt with rfl | htwo
    · obtain ⟨h1, h2, h3⟩ := scan_one_eq_some.mp hs
      refine ⟨h1, fun j h4 h5 ↦ by rwa [show j = s by omega], fun t ht hf ↦ ?_⟩
      have := hf t (Nat.le_refl t) (Nat.lt_succ_self t)
      rw [h3 t ht] at this
      cases this
    · obtain ⟨h1, h2, h3⟩ := scan_firstRun htwo hs
      refine ⟨?_, h2, h3⟩
      by_contra hbig
      have hend : 8 * b.btmpBytesLen + 1 - cnt = s := by omega
      refine h ⟨htwo, fun t ht ↦ h3 t (by omega), by omega, fun j h4 h5 ↦ h2 j ?_ ?_⟩ <;> omega
  | none =>
    right
    refine ⟨fun t ht hf ↦ ?_, rfl⟩
    rcases Nat.eq_or_lt_of_le hcnt with rfl | htwo
    · have := hf t (Nat.le_refl t) (Nat.lt_succ_self t)
      rw [scan_one_eq_none.mp hs t (by omega)] at this
      cases this
    · exact scan_noRun htwo hs t (by omega) hf

/-- The bitmap with another byte behind it. -/
def followedBy (b : Bitmap) (x : UInt8) : Bitmap :=
  { b with bits := Function.update b.bits b.btmpBytesLen x }

theorem sameInside_followedBy (b : Bitmap) (x : UInt8) : b.SameInside (b.followedBy x) :=
  ⟨rfl, fun _ hk ↦ Function.update_of_ne (Nat.ne_of_lt hk) ..⟩

theorem bit_followedBy (b : Bitmap) (x : UInt8) :
    (b.followedBy x).bit (8 * b.btmpBytesLen) = x.toNat.testBit 0 := by
  have hbyte : (b.followedBy x).bits b.btmpBytesLen = x := Function.update_self ..
  rw [Bitmap.bit, Nat.mul_mod_right, Nat.mul_div_cancel_left _ (by omega), hbyte]

/-- One bit short, the search takes the bit behind the bitmap if that is free. -/
theorem OneShort.scan_eq (h : b.OneShort cnt) (hfree : b.bit (8 * b.btmpBytesLen) = false) :
    b.scan cnt = some (8 * b.btmpBytesLen + 1 - cnt) := by
  obtain ⟨htwo, hnone, hle, hend⟩ := h
  have hrun : b.FirstRun (8 * b.btmpBytesLen + 1) cnt (8 * b.btmpBytesLen + 1 - cnt) := by
    refine ⟨by omega, fun j h1 h2 ↦ ?_, fun t ht ↦ hnone t (by omega)⟩
    by_cases hj : j = 8 * b.btmpBytesLen
    · rwa [hj]
    · exact hend j h1 (by omega)
  cases hs : b.scan cnt with
  | none => exact absurd (scan_noRun htwo hs) hrun.not_noRun
  | some s => rw [(scan_firstRun htwo hs).unique hrun]

/-- **The search answers** for the bitmap alone unless it is one bit short at the end. -/
theorem scansItself_iff (hlen : b.btmpBytesLen < 2 ^ 29) (hcnt : 1 ≤ cnt) (hword : cnt < 2 ^ 32) :
    b.ScansItself cnt ↔ ¬b.OneShort cnt := by
  constructor
  · rintro ⟨hans, hsame⟩ hshort
    -- with a free bit behind the bitmap the answer would be another one
    have hzero := sameInside_followedBy b 0
    have hscan := (hzero.oneShort.mpr hshort).scan_eq (bit_followedBy b 0)
    have hword' := bitmapScan_eq (b := b.followedBy 0) hlen hword
    rw [hscan, hsame _ hzero, hans.unique (Or.inr ⟨hshort.none, rfl⟩)] at hword'
    have hle := hshort.two
    have heq : (b.followedBy 0).btmpBytesLen = b.btmpBytesLen := rfl
    rw [indexWord, heq] at hword'
    omega
  · intro hshort
    have hans := answers_bitmapScan hlen hcnt hword hshort
    refine ⟨hans, fun b' hb' ↦ ?_⟩
    have hans' := answers_bitmapScan (hb'.1 ▸ hlen) hcnt hword (mt hb'.oneShort.mp hshort)
    exact (hb'.answers.mp hans').unique hans

/-- One byte, its last bit free. -/
def lastFree : Bitmap := ⟨1, fun k ↦ if k = 0 then 0x7f else 0⟩

theorem scansItself_iff_lastFree : lastFree.ScansItself 1 ↔ ¬lastFree.OneShort 1 :=
  scansItself_iff (by decide) (by decide) (by decide)

/-- Two bits are found in a bitmap in which one is free. -/
theorem lastFree_not_scansItself : ¬lastFree.ScansItself 2 := by
  rintro ⟨h | ⟨-, h⟩, -⟩
  · have := h.fits
    revert this
    decide
  · revert h
    decide

end Bitmap

end GlowOS
