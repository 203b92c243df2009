import Mathlib
import GlowOS.Stdio.Itoa
import GlowOS.Stdio.Strings

/-!
# Formatting

`vsprintf` of `lib/stdio.c`. The loop stores ordinary characters and the arguments through one
pointer, and when the format is used up it is over: no NUL is stored behind the last character. Only
`%s`, through `strcpy`, stores one.

`Expands` is what a format and its arguments say. `vsprintfFrom_eq` gives the memory that the loop
leaves: the expanded text, with a NUL behind it exactly if the format ends with `%s`. So the result
is right if the format does, or if the destination had a NUL in that place before, as the zeroed
buffer of `printf` has.

The destination overlaps neither the format nor the arguments.
-/

namespace GlowOS.Stdio

open Bytes CStrings Numerals

/-! ## The functions -/

/-- An argument behind the format, as `va_arg` takes it. -/
inductive Arg
  | str (s : List UInt8)
  | int (v : Int32)
  | char (c : UInt8)
  deriving DecidableEq

/-- The loop of `vsprintf`, with the pointer `buf_ptr`. An argument of the wrong type has no
meaning. -/
def vsprintfFrom (fuel : ℕ) : List UInt8 → List Arg → Out → Option Out
  | [], _, buf => some buf
  | c :: format, ap, buf =>
    if c ≠ 37 then vsprintfFrom fuel format ap (buf.put c)
    else
      match format with
      | [] => some buf
      | c :: format =>
        if c = 115 then -- `%s`
          match ap with
          | .str s :: ap =>
            vsprintfFrom fuel format ap ⟨strcpy buf.mem buf.ptr s, buf.ptr + s.length⟩
          | _ => none
        else if c = 120 then -- `%x`
          match ap with
          | .int v :: ap => (itoa fuel v.toUInt32 buf 16).bind (vsprintfFrom fuel format ap)
          | _ => none
        else if c = 100 then -- `%d`
          match ap with
          | .int v :: ap =>
            (if v < 0 then itoa fuel (0 - v).toUInt32 (buf.put 45) 10
              else itoa fuel v.toUInt32 buf 10).bind (vsprintfFrom fuel format ap)
          | _ => none
        else if c = 99 then -- `%c`
          match ap with
          | .char c :: ap => vsprintfFrom fuel format ap (buf.put c)
          | _ => none
        else vsprintfFrom fuel (c :: format) ap buf
termination_by structural format => format

/-- `vsprintf`: what it returns, and the memory. -/
def vsprintf (fuel : ℕ) (str : ℕ) (format : List UInt8) (ap : List Arg) (mem : Image) :
    Option (ℕ × Image) :=
  (vsprintfFrom fuel format ap ⟨mem, str⟩).bind fun buf ↦
    (strlen fuel buf.mem str).map fun n ↦ (n, buf.mem)

/-- `sprintf`. -/
def sprintf (fuel : ℕ) (des : ℕ) (format : List UInt8) (args : List Arg) (mem : Image) :
    Option (ℕ × Image) := vsprintf fuel des format args mem

/-! ## What a format says -/

/-- `%x`: upper-case hexadecimal. -/
def hexText (v : Int32) : List UInt8 := (numeral 16 v.toUInt32.toNat).map digitChar

/-- `%d`: signed decimal. -/
def decText (v : Int32) : List UInt8 :=
  (if v.toInt < 0 then [45] else []) ++ (numeral 10 v.toInt.natAbs).map digitChar

/-- A format and the arguments that match it stand for a text. -/
inductive Expands : List UInt8 → List Arg → List UInt8 → Prop
  | nil (args : List Arg) : Expands [] args []
  | ordinary {c : UInt8} {format text : List UInt8} {args : List Arg} (hnul : c ≠ 0)
      (hpercent : c ≠ 37) (h : Expands format args text) :
      Expands (c :: format) args (c :: text)
  | str {s format text : List UInt8} {args : List Arg} (hnul : (0 : UInt8) ∉ s)
      (h : Expands format args text) :
      Expands (37 :: 115 :: format) (.str s :: args) (s ++ text)
  | hex (v : Int32) {format text : List UInt8} {args : List Arg} (h : Expands format args text) :
      Expands (37 :: 120 :: format) (.int v :: args) (hexText v ++ text)
  | dec (v : Int32) {format text : List UInt8} {args : List Arg} (h : Expands format args text) :
      Expands (37 :: 100 :: format) (.int v :: args) (decText v ++ text)
  | char {c : UInt8} {format text : List UInt8} {args : List Arg} (hnul : c ≠ 0)
      (h : Expands format args text) :
      Expands (37 :: 99 :: format) (.char c :: args) (c :: text)

/-- The format ends with `%s`. -/
abbrev EndsWithStr (format : List UInt8) : Prop := [37, 115] <:+ format

/-- `vsprintf` leaves the text as a string at the destination and returns its length. -/
def FormatsTo (str : ℕ) (format : List UInt8) (args : List Arg) (mem : Image)
    (text : List UInt8) : Prop :=
  ∃ (bound : ℕ) (mem' : Image),
    (∀ fuel, bound ≤ fuel → vsprintf fuel str format args mem = some (text.length, mem')) ∧
      HoldsString mem' str text

/-! ## Numbers -/

theorem toNat_of_nonneg {v : Int32} (h : ¬v < 0) : v.toUInt32.toNat = v.toInt.natAbs := by
  have hnonneg : ¬v.toInt < 0 := fun hlt ↦ h (Int32.lt_iff_toInt_lt.mpr (by simpa using hlt))
  have hcond : v.toInt = if 2 * v.toUInt32.toNat < 2 ^ 32 then (v.toUInt32.toNat : ℤ)
      else v.toUInt32.toNat - 2 ^ 32 := BitVec.toInt_eq_toNat_cond v.toBitVec
  have hlt := v.toUInt32.toNat_lt
  split_ifs at hcond <;> omega

/-- The magnitude of a negative number, also of the most negative one. -/
theorem toNat_neg {v : Int32} (h : v < 0) : (0 - v).toUInt32.toNat = v.toInt.natAbs := by
  have hneg : v.toInt < 0 := by simpa using Int32.lt_iff_toInt_lt.mp h
  have hcond : v.toInt = if 2 * v.toUInt32.toNat < 2 ^ 32 then (v.toUInt32.toNat : ℤ)
      else v.toUInt32.toNat - 2 ^ 32 := BitVec.toInt_eq_toNat_cond v.toBitVec
  have hlt := v.toUInt32.toNat_lt
  have hzero : (Int32.toUInt32 0).toNat = 0 := rfl
  rw [Int32.toUInt32_sub, UInt32.toNat_sub, hzero]
  split_ifs at hcond <;> omega

theorem lt_zero_iff {v : Int32} : v < 0 ↔ v.toInt < 0 := Int32.lt_iff_toInt_lt

theorem itoa_of_fuel {fuel : ℕ} (hfuel : 32 ≤ fuel) {base : UInt8} (hbase : 2 ≤ base)
    (value : UInt32) (buf : Out) :
    itoa fuel value buf base = some (buf.puts (numeralText base value)) := by
  obtain ⟨n, rfl⟩ := Nat.exists_eq_add_of_le' (show 1 ≤ fuel by omega)
  exact itoa_eq hbase buf (value.toNat_lt.trans_le (Nat.pow_le_pow_right (by decide) hfuel))

/-- The branch for `%d` writes the sign and the numeral. -/
theorem itoa_dec {fuel : ℕ} (hfuel : 32 ≤ fuel) (v : Int32) (buf : Out) :
    (if v < 0 then itoa fuel (0 - v).toUInt32 (buf.put 45) 10 else itoa fuel v.toUInt32 buf 10) =
      some (buf.puts (decText v)) := by
  rw [decText]
  split_ifs with h1 h2 h2
  · rw [itoa_of_fuel hfuel (by decide), numeralText, toNat_neg h1]
    rfl
  · exact absurd (lt_zero_iff.mp h1) h2
  · exact absurd (lt_zero_iff.mpr h2) h1
  · rw [itoa_of_fuel hfuel (by decide), numeralText, toNat_of_nonneg h1]
    rfl

/-! ## The run -/

/-- Store a NUL and stay. -/
@[simps] def terminate (buf : Out) : Out := ⟨Function.update buf.mem buf.ptr 0, buf.ptr⟩

theorem terminate_terminate (buf : Out) : terminate (terminate buf) = terminate buf := by
  simp [terminate]

/-- The next character takes the place of the NUL. -/
theorem terminate_puts {buf : Out} {s : List UInt8} (hs : s ≠ []) :
    (terminate buf).puts s = buf.puts s := by
  cases s with
  | nil => exact absurd rfl hs
  | cons c s =>
    rw [Out.puts_cons, Out.puts_cons]
    simp [terminate, Out.put]

/-- `strcpy` and the step of the pointer behind it. -/
theorem strcpy_eq (buf : Out) (s : List UInt8) :
    (⟨strcpy buf.mem buf.ptr s, buf.ptr + s.length⟩ : Out) = terminate (buf.puts s) := by
  have h : strcpy buf.mem buf.ptr s = (buf.puts (s ++ [0])).mem := rfl
  rw [h, Out.puts_append_singleton, terminate, ← Out.ptr_puts]
  rfl

variable {format text : List UInt8} {args : List Arg}

/-- Only strings leave no text behind. -/
theorem Expands.eq_nil_or (h : Expands format args text) (htext : text = []) :
    format = [] ∨ EndsWithStr format := by
  induction h with
  | nil => exact Or.inl rfl
  | ordinary => cases htext
  | char => cases htext
  | @str s format text args _ _ ih =>
    right
    rcases ih (List.append_eq_nil_iff.mp htext).2 with rfl | hend
    · exact List.suffix_refl _
    · exact hend.trans ((List.suffix_cons 115 format).trans (List.suffix_cons 37 _))
  | hex v _ _ =>
    have h0 := (List.append_eq_nil_iff.mp htext).1
    rw [hexText, List.map_eq_nil_iff] at h0
    exact absurd h0 (numeral_ne_nil (by decide))
  | dec v _ _ =>
    have h0 := (List.append_eq_nil_iff.mp (List.append_eq_nil_iff.mp htext).1).2
    rw [List.map_eq_nil_iff] at h0
    exact absurd h0 (numeral_ne_nil (by decide))

theorem endsWithStr_cons {c : UInt8} (hc : c ≠ 37) :
    EndsWithStr (c :: format) ↔ EndsWithStr format := by
  rw [EndsWithStr, List.suffix_cons_iff]
  constructor
  · rintro (h | h)
    · exact absurd (List.cons.inj h).1.symm hc
    · exact h
  · exact Or.inr

theorem endsWithStr_directive {c : UInt8} (h37 : c ≠ 37) (h115 : c ≠ 115) :
    EndsWithStr (37 :: c :: format) ↔ EndsWithStr format := by
  rw [EndsWithStr, List.suffix_cons_iff]
  constructor
  · rintro (h | h)
    · exact absurd (List.cons.inj (List.cons.inj h).2).1.symm h115
    · exact (endsWithStr_cons h37).mp h
  · exact fun h ↦ Or.inr ((endsWithStr_cons h37).mpr h)

theorem endsWithStr_str : EndsWithStr (37 :: 115 :: format) ↔ format = [] ∨ EndsWithStr format := by
  rw [EndsWithStr, List.suffix_cons_iff]
  constructor
  · rintro (h | h)
    · exact Or.inl (List.cons.inj (List.cons.inj h).2).2.symm
    · exact Or.inr ((endsWithStr_cons (by decide)).mp h)
  · rintro (rfl | h)
    · exact Or.inl rfl
    · exact Or.inr ((endsWithStr_cons (by decide)).mpr h)

/-- The loop writes the text, and a NUL behind it if the format ends with `%s`. -/
theorem vsprintfFrom_eq {fuel : ℕ} (hfuel : 32 ≤ fuel) (h : Expands format args text) (buf : Out) :
    vsprintfFrom fuel format args buf =
      some (if EndsWithStr format then terminate (buf.puts text) else buf.puts text) := by
  induction h generalizing buf with
  | nil => rfl
  | @ordinary c format text args _ hpercent _ ih =>
    have hstep : vsprintfFrom fuel (c :: format) args buf =
        vsprintfFrom fuel format args (buf.put c) := by
      rw [vsprintfFrom.eq_def]
      exact if_pos hpercent
    rw [hstep, ih]
    simp only [endsWithStr_cons hpercent, Out.puts_cons]
  | @str s format text args _ hrest ih =>
    have hstep : vsprintfFrom fuel (37 :: 115 :: format) (.str s :: args) buf =
        vsprintfFrom fuel format args ⟨strcpy buf.mem buf.ptr s, buf.ptr + s.length⟩ := rfl
    rw [hstep, strcpy_eq, ih, Out.puts_append]
    simp only [endsWithStr_str]
    by_cases htext : text = []
    · subst htext
      simp only [Out.puts_nil, hrest.eq_nil_or rfl, if_true, terminate_terminate, ite_self]
    · have hne : format ≠ [] := by
        rintro rfl
        cases hrest
        exact htext rfl
      simp only [terminate_puts htext, hne, false_or]
  | hex v _ ih =>
    have hstep : ∀ (format : List UInt8) (args : List Arg),
        vsprintfFrom fuel (37 :: 120 :: format) (.int v :: args) buf =
          (itoa fuel v.toUInt32 buf 16).bind (vsprintfFrom fuel format args) := fun _ _ ↦ rfl
    rw [hstep, itoa_of_fuel hfuel (by decide), Option.bind_some, ih, Out.puts_append]
    simp only [endsWithStr_directive (c := 120) (by decide) (by decide)]
    rfl
  | dec v _ ih =>
    have hstep : ∀ (format : List UInt8) (args : List Arg),
        vsprintfFrom fuel (37 :: 100 :: format) (.int v :: args) buf =
          (if v < 0 then itoa fuel (0 - v).toUInt32 (buf.put 45) 10
            else itoa fuel v.toUInt32 buf 10).bind (vsprintfFrom fuel format args) :=
      fun _ _ ↦ rfl
    rw [hstep, itoa_dec hfuel, Option.bind_some, ih, Out.puts_append]
    simp only [endsWithStr_directive (c := 100) (by decide) (by decide)]
  | @char c format text args _ _ ih =>
    have hstep : vsprintfFrom fuel (37 :: 99 :: format) (.char c :: args) buf =
        vsprintfFrom fuel format args (buf.put c) := rfl
    rw [hstep, ih]
    simp only [endsWithStr_directive (c := 99) (by decide) (by decide), Out.puts_cons]

/-! ## The result -/

theorem digitChar_ne_zero {d : ℕ} (hd : d < 36) : digitChar d ≠ 0 := by
  intro h
  have hval := toNat_digitChar hd
  rw [h] at hval
  split_ifs at hval <;> simp at hval <;> omega

theorem nul_notMem_numeral {b n : ℕ} (h2 : 2 ≤ b) (h36 : b ≤ 36) :
    (0 : UInt8) ∉ (numeral b n).map digitChar := by
  intro h
  obtain ⟨d, hd, h0⟩ := List.mem_map.mp h
  exact digitChar_ne_zero ((lt_of_mem_numeral h2 d hd).trans_le h36) h0

theorem Expands.nul_notMem (h : Expands format args text) : (0 : UInt8) ∉ text := by
  induction h with
  | nil => simp
  | ordinary hnul _ _ ih => simp [hnul.symm, ih]
  | char hnul _ ih => simp [hnul.symm, ih]
  | str hnul _ ih => simp [hnul, ih]
  | hex v _ ih =>
    rw [List.mem_append, not_or]
    exact ⟨nul_notMem_numeral (by decide) (by decide), ih⟩
  | dec v _ ih =>
    rw [List.mem_append, not_or, decText, List.mem_append, not_or]
    refine ⟨⟨?_, nul_notMem_numeral (by decide) (by decide)⟩, ih⟩
    split_ifs <;> simp

/-- The memory behind the run. -/
def formatted (str : ℕ) (format : List UInt8) (mem : Image) (text : List UInt8) : Out :=
  if EndsWithStr format then terminate ((⟨mem, str⟩ : Out).puts text)
  else (⟨mem, str⟩ : Out).puts text

/-- The text is spelled at the destination. -/
theorem spells_formatted (str : ℕ) (format : List UInt8) (mem : Image) (text : List UInt8) :
    Spells (formatted str format mem text).mem str text := by
  have hspells : Spells ((⟨mem, str⟩ : Out).puts text).mem str text := Out.spells_puts
  rw [formatted]
  split_ifs
  · refine hspells.congr fun i _ h2 ↦ ?_
    rw [terminate_mem, Out.ptr_puts]
    exact Function.update_of_ne h2.ne _ _
  · exact hspells

/-- Behind the text is a NUL of `%s`, or what was there before. -/
theorem formatted_behind (str : ℕ) (format : List UInt8) (mem : Image) (text : List UInt8) :
    (formatted str format mem text).mem (str + text.length) =
      if EndsWithStr format then 0 else mem (str + text.length) := by
  rw [formatted]
  split_ifs
  · rw [terminate_mem, Out.ptr_puts, Function.update_self]
  · exact Out.mem_puts_of_outside (w := ⟨mem, str⟩) (Or.inr (Nat.le_refl _))

/-- The result is right exactly when there is a NUL behind the text. -/
theorem Expands.formatsTo_iff (h : Expands format args text) {str : ℕ} {mem : Image} :
    FormatsTo str format args mem text ↔
      (formatted str format mem text).mem (str + text.length) = 0 := by
  have hrun : ∀ fuel, 32 ≤ fuel → vsprintf fuel str format args mem =
      (strlen fuel (formatted str format mem text).mem str).map fun n ↦
        (n, (formatted str format mem text).mem) := by
    intro fuel hfuel
    rw [vsprintf, vsprintfFrom_eq hfuel h, Option.bind_some]
    rfl
  constructor
  · rintro ⟨bound, mem', hret, hholds⟩
    have hret' := hret (max bound 32) (le_max_left ..)
    rw [hrun _ (le_max_right ..), Option.map_eq_some_iff] at hret'
    obtain ⟨n, -, hmem⟩ := hret'
    rw [(Prod.mk.inj hmem).2]
    exact hholds.terminated
  · intro hnul
    have hholds : HoldsString (formatted str format mem text).mem str text :=
      ⟨spells_formatted str format mem text, hnul, h.nul_notMem⟩
    refine ⟨max 32 (text.length + 1), _, fun fuel hfuel ↦ ?_, hholds⟩
    rw [max_le_iff] at hfuel
    rw [hrun fuel hfuel.1, strlen_eq hholds (by omega), Option.map_some]

/-- **Formatting** is right exactly when the format ends with `%s` or the destination had a NUL in
the place behind the text. -/
theorem vsprintf_formats_iff (h : Expands format args text) {str : ℕ} {mem : Image} :
    FormatsTo str format args mem text ↔ EndsWithStr format ∨ mem (str + text.length) = 0 := by
  rw [h.formatsTo_iff, formatted_behind]
  split_ifs with hend
  · exact iff_of_true rfl (Or.inl hend)
  · exact ⟨Or.inr, fun hor ↦ hor.resolve_left hend⟩

/-- A file name and a number, into a buffer that was not cleared. -/
theorem vsprintf_formats_iff_number :
    FormatsTo 0 [37, 115, 37, 100] [.str [97], .int (-12)] (fun _ ↦ 120) [97, 45, 49, 50] ↔
      EndsWithStr [37, 115, 37, 100] ∨ (120 : UInt8) = 0 :=
  vsprintf_formats_iff (.str (s := [97]) (by decide) (.dec (-12) (.nil [])))

/-- A number written into a buffer full of characters is not terminated. -/
theorem not_vsprintf_formats :
    ¬FormatsTo 0 [37, 100] [.int 7] (fun _ ↦ 120) [55] := by
  have h : Expands [37, 100] [.int 7] [55] := .dec 7 (.nil [])
  rw [h.formatsTo_iff, formatted_behind]
  decide

end GlowOS.Stdio
