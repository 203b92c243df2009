import Mathlib
import GlowOS.Lib.CStrings
import GlowOS.Lib.Numerals

/-!
# Printing numbers

`itoa` of `lib/stdio.c`. The digits come out of a recursion on the quotient: the call for the
quotient writes the digits in front, and the pointer it leaves behind is where the last digit goes.

`itoa_eq` says that a call writes the numeral of its value, and is what callers use. The other facts
about what is written are facts about numerals.
-/

namespace GlowOS.Stdio

open Bytes CStrings Numerals

/-! ## The function -/

/-- `itoa`, with `buf` for the pointer at `buf_ptr_addr` and the memory it points into. `fuel`
bounds the depth of the recursion. -/
def itoa : ℕ → UInt32 → Out → UInt8 → Option Out
  | 0, _, _, _ => none
  | fuel + 1, value, buf, base =>
    -- the remainder by zero is a fault
    if base = 0 then none
    else
      let m := value % base.toUInt32
      let i := value / base.toUInt32
      (if i ≠ 0 then itoa fuel i buf base else some buf).map fun buf ↦
        if m < 10 then buf.put (m + 48).toUInt8 else buf.put (m + 65 - 10).toUInt8

/-- The character of a digit. -/
def digitChar (d : ℕ) : UInt8 := if d < 10 then UInt8.ofNat (48 + d) else UInt8.ofNat (55 + d)

/-- The digits of a number as `itoa` writes them. -/
def numeralText (base : UInt8) (value : UInt32) : List UInt8 :=
  (numeral base.toNat value.toNat).map digitChar

theorem digitChar_eq (m : UInt32) :
    digitChar m.toNat = if m < 10 then (m + 48).toUInt8 else (m + 65 - 10).toUInt8 := by
  have hlt : m < 10 ↔ m.toNat < 10 := UInt32.lt_iff_toNat_lt
  rw [digitChar]
  split_ifs with h1 h2 h2
  · refine UInt8.toNat_inj.mp ?_
    simp only [UInt8.toNat_ofNat', UInt32.toNat_toUInt8, UInt32.toNat_add, UInt32.reduceToNat]
    omega
  · exact absurd (hlt.mpr h1) h2
  · exact absurd (hlt.mp h2) h1
  · have hm := m.toNat_lt
    refine UInt8.toNat_inj.mp ?_
    simp only [UInt8.toNat_ofNat', UInt32.toNat_toUInt8, UInt32.toNat_add, UInt32.toNat_sub,
      UInt32.reduceToNat]
    omega

/-- A call writes the numeral of its value. -/
theorem itoa_eq {base : UInt8} (hbase : 2 ≤ base) {fuel : ℕ} {value : UInt32} (buf : Out)
    (hfuel : value.toNat < 2 ^ (fuel + 1)) :
    itoa (fuel + 1) value buf base = some (buf.puts (numeralText base value)) := by
  have hb : 2 ≤ base.toNat := UInt8.le_iff_toNat_le.mp hbase
  have hb0 : base ≠ 0 := by
    rintro rfl
    exact absurd hb (by decide)
  induction fuel generalizing value with
  | zero =>
    have hdiv : value.toNat / base.toNat = 0 :=
      (Nat.div_eq_zero_iff_lt (by omega)).mpr (by omega)
    have hi : value / base.toUInt32 = 0 := by
      refine UInt32.toNat_inj.mp ?_
      rw [UInt32.toNat_div, UInt8.toNat_toUInt32, hdiv]
      rfl
    have hm : (value % base.toUInt32).toNat = value.toNat % base.toNat := by
      rw [UInt32.toNat_mod, UInt8.toNat_toUInt32]
    rw [itoa, if_neg hb0]
    dsimp only
    rw [if_neg (not_not.mpr hi), Option.map_some, numeralText, numeral_eq hb, if_pos hdiv,
      List.map_singleton, ← hm, digitChar_eq]
    split_ifs <;> rfl
  | succ fuel ih =>
    have hq : (value / base.toUInt32).toNat = value.toNat / base.toNat := by
      rw [UInt32.toNat_div, UInt8.toNat_toUInt32]
    have hm : (value % base.toUInt32).toNat = value.toNat % base.toNat := by
      rw [UInt32.toNat_mod, UInt8.toNat_toUInt32]
    have hi : value / base.toUInt32 = 0 ↔ value.toNat / base.toNat = 0 := by
      rw [← UInt32.toNat_inj, hq]
      rfl
    rw [itoa, if_neg hb0]
    dsimp only
    rw [numeralText, numeral_eq hb]
    by_cases hzero : value / base.toUInt32 = 0
    · rw [if_neg (not_not.mpr hzero), if_pos (hi.mp hzero), Option.map_some, List.map_singleton,
        ← hm, digitChar_eq]
      split_ifs <;> rfl
    · have hlt : (value / base.toUInt32).toNat < 2 ^ (fuel + 1) := by
        rw [hq]
        calc value.toNat / base.toNat ≤ value.toNat / 2 := Nat.div_le_div_left hb (by omega)
          _ < 2 ^ (fuel + 1) := by
            rw [Nat.pow_succ] at hfuel
            omega
      rw [if_pos hzero, if_neg (fun h ↦ hzero (hi.mpr h)), ih hlt, Option.map_some, numeralText, hq,
        List.map_append, List.map_singleton, Out.puts_append_singleton, ← hm, digitChar_eq]
      split_ifs <;> rfl

/-! ## What is written -/

/-- The value of a digit character. -/
def charValue (c : UInt8) : ℕ := if c ≤ 57 then c.toNat - 48 else c.toNat - 55

/-- One of the characters 0–9 and A–Z that stands for a digit of the base. -/
def IsDigit (base c : UInt8) : Prop :=
  (48 ≤ c ∧ c ≤ 57 ∨ 65 ≤ c ∧ c ≤ 90) ∧ charValue c < base.toNat

/-- The text is the numeral of a value. -/
structure IsNumeral (base : UInt8) (value : UInt32) (s : List UInt8) : Prop where
  ne_nil : s ≠ []
  digits : ∀ c ∈ s, IsDigit base c
  leading : value ≠ 0 → s.head? ≠ some 48
  value : valueOf base.toNat (s.map charValue) = value.toNat

/-- The text was appended at the pointer. -/
structure Appended (buf : Out) (s : List UInt8) (buf' : Out) : Prop where
  ptr : buf'.ptr = buf.ptr + s.length
  spells : Spells buf'.mem buf.ptr s
  frame : ∀ i, i < buf.ptr ∨ buf'.ptr ≤ i → buf'.mem i = buf.mem i

theorem appended_puts (buf : Out) (s : List UInt8) : Appended buf s (buf.puts s) := by
  refine ⟨Out.ptr_puts, Out.spells_puts, fun i hi ↦ Out.mem_puts_of_outside ?_⟩
  rwa [Out.ptr_puts] at hi

theorem toNat_digitChar {d : ℕ} (hd : d < 36) :
    (digitChar d).toNat = if d < 10 then 48 + d else 55 + d := by
  rw [digitChar]
  split_ifs
  · rw [UInt8.toNat_ofNat']
    omega
  · rw [UInt8.toNat_ofNat']
    omega

theorem charValue_digitChar {d : ℕ} (hd : d < 36) : charValue (digitChar d) = d := by
  have h := toNat_digitChar hd
  have hle : digitChar d ≤ 57 ↔ (digitChar d).toNat ≤ 57 := UInt8.le_iff_toNat_le
  rw [charValue]
  split_ifs with h1
  · have := hle.mp h1
    split_ifs at h <;> omega
  · have := mt hle.mpr h1
    split_ifs at h <;> omega

theorem isDigit_digitChar {base : UInt8} {d : ℕ} (hd : d < 36) (hbase : d < base.toNat) :
    IsDigit base (digitChar d) := by
  have h := toNat_digitChar hd
  refine ⟨?_, ?_⟩
  · simp only [UInt8.le_iff_toNat_le, UInt8.reduceToNat]
    split_ifs at h <;> omega
  · rwa [charValue_digitChar hd]

/-- Up to base 36 there is a character for each digit. -/
theorem isNumeral_numeralText {base : UInt8} (h2 : 2 ≤ base) (h36 : base ≤ 36) (value : UInt32) :
    IsNumeral base value (numeralText base value) := by
  have hb : 2 ≤ base.toNat := UInt8.le_iff_toNat_le.mp h2
  have hb' : base.toNat ≤ 36 := UInt8.le_iff_toNat_le.mp h36
  have hlt : ∀ d ∈ numeral base.toNat value.toNat, d < 36 := fun d hd ↦
    (lt_of_mem_numeral hb d hd).trans_le hb'
  refine ⟨?_, ?_, ?_, ?_⟩
  · rw [numeralText, Ne, List.map_eq_nil_iff]
    exact numeral_ne_nil hb
  · intro c hc
    obtain ⟨d, hd, rfl⟩ := List.mem_map.mp hc
    exact isDigit_digitChar (hlt d hd) (lt_of_mem_numeral hb d hd)
  · intro hne h0
    rw [numeralText, List.head?_map, Option.map_eq_some_iff] at h0
    obtain ⟨d, hd, hd0⟩ := h0
    have hzero : d = 0 := by
      have hval := charValue_digitChar (hlt d (List.mem_of_mem_head? hd))
      rw [hd0] at hval
      exact hval.symm
    refine head?_numeral_ne hb (fun h ↦ hne (UInt32.toNat_inj.mp h)) (hzero ▸ hd)
  · have hmap : (numeralText base value).map charValue = numeral base.toNat value.toNat := by
      rw [numeralText, List.map_map]
      calc (numeral base.toNat value.toNat).map (charValue ∘ digitChar)
          = (numeral base.toNat value.toNat).map id :=
            List.map_congr_left fun d hd ↦ charValue_digitChar (hlt d hd)
        _ = numeral base.toNat value.toNat := List.map_id _
    rw [hmap, valueOf_numeral hb]

/-- **Printing a number** terminates, appends its numeral and touches nothing else. -/
theorem itoa_prints (value : UInt32) (buf : Out) {base : UInt8} (h2 : 2 ≤ base) (h36 : base ≤ 36) :
    ∃ (s : List UInt8) (buf' : Out), (∀ fuel, 32 ≤ fuel → itoa fuel value buf base = some buf') ∧
      IsNumeral base value s ∧ Appended buf s buf' := by
  refine ⟨numeralText base value, buf.puts (numeralText base value), fun fuel hfuel ↦ ?_,
    isNumeral_numeralText h2 h36 value, appended_puts buf _⟩
  obtain ⟨n, rfl⟩ := Nat.exists_eq_add_of_le' (show 1 ≤ fuel by omega)
  refine itoa_eq h2 buf (value.toNat_lt.trans_le ?_)
  exact Nat.pow_le_pow_right (by decide) hfuel

/-- The largest value in base 36. -/
theorem itoa_prints_largest :
    ∃ (s : List UInt8) (buf' : Out),
      (∀ fuel, 32 ≤ fuel → itoa fuel 4294967295 ⟨fun _ ↦ 0, 0⟩ 36 = some buf') ∧
      IsNumeral 36 4294967295 s ∧ Appended ⟨fun _ ↦ 0, 0⟩ s buf' :=
  itoa_prints 4294967295 ⟨fun _ ↦ 0, 0⟩ (by decide) (by decide)

end GlowOS.Stdio
