import Mathlib
import GlowOS.Fs.Entry
import GlowOS.Lib.Words
import GlowOS.Stdio.Strings

/-!
# Command lines

`cmd_parse` of `shell/shell.c` and what `my_shell` does with its result. The words of the line are
found in place: a separator behind a word becomes its NUL, and `argv` gets the address of the word.

An element of `argv` may be assigned although the array does not have it, so `Args` keeps the list
of the indices that were assigned. The test of `argc` comes behind the assignment and compares with
the size of the array, so that the seventeenth word is stored and counted, and the eighteenth is
stored before the function gives up.
-/

namespace GlowOS.Shell

open Bytes CStrings Scan Words Stdio

/-! ## The functions -/

/-- `MAX_ARG_NR`. -/
abbrev maxArgNr : ℕ := 16

/-- `argv`, and the indices that were assigned. -/
structure Args where
  argv : ℕ → Option ℕ
  stored : List ℕ

/-- `argv[i] = p`. -/
@[simps] def Args.store (a : Args) (i : ℕ) (p : Option ℕ) : Args :=
  ⟨Function.update a.argv i p, a.stored ++ [i]⟩

/-- The loop of `cmd_parse` that splits the line. -/
def cmdParseFrom (token : UInt8) : ℕ → Image → ℕ → ℕ → Args → Option (ℤ × Image × Args)
  | 0, _, _, _, _ => none
  | fuel + 1, mem, next, argc, args =>
    if mem next = 0 then some (argc, mem, args)
    else
      (firstFrom (fun i ↦ mem i != token) (fuel + 1) next).bind fun next ↦
        if mem next = 0 then some (argc, mem, args)
        else
          let args := args.store argc (some next)
          (firstFrom (fun i ↦ mem i == 0 || mem i == token) (fuel + 1) next).bind fun next ↦
            -- the word ends at the end of the line or at a separator
            let mem' := if mem next ≠ 0 then Function.update mem next 0 else mem
            let next' := if mem next ≠ 0 then next + 1 else next
            if maxArgNr < argc then some (-1, mem', args)
            else cmdParseFrom token fuel mem' next' (argc + 1) args

/-- `cmd_parse`. -/
def cmdParse (fuel : ℕ) (mem : Image) (cmdStr : ℕ) (argv : ℕ → Option ℕ) (token : UInt8) :
    Option (ℤ × Image × Args) :=
  cmdParseFrom token fuel mem cmdStr 0
    ((List.range maxArgNr).foldl (fun a i ↦ a.store i none) ⟨argv, []⟩)

/-- The names `my_shell` compares `argv[0]` with: `ls`, `pwd`, `ps`, `cd`, `clear`, `mkdir`, `rmdir`
and `rm`. -/
def builtins : List (List UInt8) :=
  [[108, 115], [112, 119, 100], [112, 115], [99, 100], [99, 108, 101, 97, 114],
    [109, 107, 100, 105, 114], [114, 109, 100, 105, 114], [114, 109]]

/-- What `my_shell` does with a line. -/
inductive Action
  /-- Say that there are too many arguments. -/
  | exceed
  /-- Call a built-in command. -/
  | builtin (i : ℕ)
  /-- Fork and load a program. -/
  | load
  deriving DecidableEq, Repr

/-- The dispatch of `my_shell`. `strcmp` asserts that `argv[0]` is not null. -/
def dispatch (argc : ℤ) (argv : ℕ → Option ℕ) (mem : Image) : Except Fault Action :=
  if argc = -1 then .ok .exceed
  else
    match argv 0 with
    | none => .error .assert
    | some p => .ok ((builtins.findIdx? (strEq mem p)).elim .load .builtin)

/-! ## Scanning the line -/

section Scanning

variable {mem : Image} {next fuel : ℕ} {token : UInt8} {line : List UInt8}

/-- A walk over a string stops behind the longest part all of whose characters fail the test. -/
theorem firstFrom_takeWhile {p : UInt8 → Bool} (h : HoldsString mem next line) (h0 : p 0 = true)
    (hfuel : line.length < fuel) :
    firstFrom (fun i ↦ p (mem i)) fuel next = some (next + (line.takeWhile (!p ·)).length) := by
  induction line generalizing next fuel with
  | nil =>
    obtain ⟨fuel, rfl⟩ := Nat.exists_eq_add_of_lt hfuel
    have hterm : mem next = 0 := h.terminated
    rw [firstFrom, hterm, if_pos h0]
    rfl
  | cons c line ih =>
    obtain ⟨fuel, rfl⟩ := Nat.exists_eq_add_of_lt hfuel
    have hc : mem next = c := h.spells.1
    have htail : HoldsString mem (next + 1) line := HoldsString.drop (s := [c]) h
    rw [firstFrom, hc, List.takeWhile_cons]
    by_cases hp : p c = true
    · rw [if_pos hp, if_neg (by simpa using hp)]
      rfl
    · rw [if_neg hp, if_pos (by simpa using hp), ih htail (by rw [List.length_cons]; omega),
        List.length_cons, Nat.add_assoc, Nat.add_comm 1]

/-- `while (*next == token) ++next`. -/
theorem skip_eq (h : HoldsString mem next line) (ht : token ≠ 0) (hfuel : line.length < fuel) :
    firstFrom (fun i ↦ mem i != token) fuel next =
      some (next + (line.takeWhile (· == token)).length) := by
  have hskip := firstFrom_takeWhile (p := (· != token)) h (by simpa using ht.symm) hfuel
  simpa [bne] using hskip

/-- `while (*next && *next != token) ++next`. -/
theorem scan_eq (token : UInt8) (h : HoldsString mem next line) (hfuel : line.length < fuel) :
    firstFrom (fun i ↦ mem i == 0 || mem i == token) fuel next =
      some (next + (line.takeWhile (· != token)).length) := by
  have hscan := firstFrom_takeWhile (p := fun c ↦ c == 0 || c == token) h (by simp) hfuel
  have hcongr : line.takeWhile (fun c ↦ !(c == 0 || c == token)) =
      line.takeWhile (· != token) := by
    have hno : ∀ c ∈ line, c ≠ 0 := fun c hc h0 ↦ h.noNul (h0 ▸ hc)
    clear hscan hfuel h
    induction line with
    | nil => rfl
    | cons c line ih =>
      have hc : c ≠ 0 := hno c List.mem_cons_self
      rw [List.takeWhile_cons, List.takeWhile_cons, ih fun c hc ↦ hno c (List.mem_cons_of_mem _ hc)]
      simp [hc, bne]
  rwa [hcongr] at hscan

end Scanning

/-! ## One word -/

section Rounds

variable {mem : Image} {next fuel : ℕ} {token : UInt8} {line : List UInt8} (argc : ℕ) (args : Args)

/-- A line of separators ends the loop. -/
theorem cmdParseFrom_end (h : HoldsString mem next line) (ht : token ≠ 0)
    (hfuel : line.length < fuel + 1) (hword : firstWord token line = []) :
    cmdParseFrom token (fuel + 1) mem next argc args = some ((argc : ℤ), mem, args) := by
  have hall : line.takeWhile (· == token) = line := by
    have hsplit := List.takeWhile_append_dropWhile (p := (· == token)) (l := line)
    rwa [dropWhile_eq_nil_of_firstWord hword, List.append_nil] at hsplit
  rw [cmdParseFrom]
  by_cases hnul : mem next = 0
  · rw [if_pos hnul]
  · rw [if_neg hnul, skip_eq h ht hfuel, hall, Option.bind_some, if_pos h.terminated]

/-- What a round leaves of a line with a word: the word at `p`, and the rest of the line. -/
structure Round (token : UInt8) (mem : Image) (next : ℕ) (line : List UInt8) (p : ℕ) (mem' : Image)
    (next' : ℕ) (rest : List UInt8) : Prop where
  word : HoldsString mem' p (firstWord token line)
  behind : HoldsString mem' next' rest
  words_rest : words token rest = words token (afterWord token line)
  length : next' + rest.length = next + line.length
  shorter : rest.length < line.length
  /-- The word does not overlap the rest, unless there is no rest. -/
  apart : p + (firstWord token line).length < next' ∨ rest = []
  le : next ≤ next'
  frame : ∀ i, i < next ∨ next + line.length ≤ i → mem' i = mem i

/-- A round that finds a word. -/
theorem cmdParseFrom_round (h : HoldsString mem next line) (ht : token ≠ 0)
    (hfuel : line.length < fuel + 1) (hword : firstWord token line ≠ []) :
    ∃ p mem' next' rest, Round token mem next line p mem' next' rest ∧
      cmdParseFrom token (fuel + 1) mem next argc args =
        if maxArgNr < argc then some (-1, mem', args.store argc (some p))
        else cmdParseFrom token fuel mem' next' (argc + 1) (args.store argc (some p)) := by
  have hsplit := List.takeWhile_append_dropWhile (p := (· == token)) (l := line)
  rw [Words.dropWhile_eq] at hsplit
  set seps := line.takeWhile (· == token) with hseps
  set w := firstWord token line with hw
  have hline : HoldsString mem next (seps ++ (w ++ afterWord token line)) := by rwa [hsplit]
  have hbehind := hline.drop
  have hwpos := List.length_pos_iff.mpr hword
  have hlen : line.length = seps.length + (w.length + (afterWord token line).length) := by
    rw [← List.length_append, ← List.length_append, hsplit]
  -- the loop is entered, and the word starts behind the separators
  have hnul : mem next ≠ 0 := h.ne_zero (i := 0) (by omega)
  have hnul' : mem (next + seps.length) ≠ 0 := by
    refine hbehind.ne_zero (i := 0) ?_
    rw [List.length_append]
    omega
  have hroom : (w ++ afterWord token line).length < fuel + 1 := by
    rw [List.length_append]
    omega
  have hscan := scan_eq token hbehind hroom
  rw [← Words.dropWhile_eq, ← firstWord, ← hw] at hscan
  have hrun : cmdParseFrom token (fuel + 1) mem next argc args =
      if maxArgNr < argc then
        some (-1, if mem (next + seps.length + w.length) ≠ 0 then
          Function.update mem (next + seps.length + w.length) 0 else mem,
          args.store argc (some (next + seps.length)))
      else
        cmdParseFrom token fuel
          (if mem (next + seps.length + w.length) ≠ 0 then
            Function.update mem (next + seps.length + w.length) 0 else mem)
          (if mem (next + seps.length + w.length) ≠ 0 then next + seps.length + w.length + 1
            else next + seps.length + w.length) (argc + 1)
          (args.store argc (some (next + seps.length))) := by
    rw [cmdParseFrom, if_neg hnul, skip_eq h ht hfuel, Option.bind_some, if_neg hnul']
    dsimp only
    rw [hscan, Option.bind_some]
  have hnoword : (0 : UInt8) ∉ w := fun h0 ↦ hbehind.noNul (List.mem_append_left _ h0)
  rcases afterWord_eq token line with hafter | ⟨m, hafter⟩
  · -- the word is the end of the line
    rw [hafter, List.append_nil] at hbehind
    rw [hafter, List.length_nil] at hlen
    rw [if_neg (not_not.mpr hbehind.terminated), if_neg (not_not.mpr hbehind.terminated)] at hrun
    refine ⟨next + seps.length, mem, _, [], ⟨hbehind, ?_, ?_, ?_, ?_, Or.inr rfl, ?_, ?_⟩, hrun⟩
    · exact ⟨trivial, hbehind.terminated, List.not_mem_nil⟩
    · rw [hafter]
    · rw [List.length_nil]
      omega
    · rw [List.length_nil]
      omega
    · omega
    · exact fun i _ ↦ rfl
  · -- the separator behind the word becomes its NUL
    rw [hafter] at hbehind
    rw [hafter, List.length_cons] at hlen
    have hsep : mem (next + seps.length + w.length) = token := hbehind.drop.spells.1
    have hne : mem (next + seps.length + w.length) ≠ 0 := by rwa [hsep]
    rw [if_pos hne, if_pos hne] at hrun
    have hrest : HoldsString mem (next + seps.length + w.length + 1) m :=
      HoldsString.drop (s := [token]) hbehind.drop
    refine ⟨next + seps.length, _, _, m, ⟨?_, ?_, ?_, ?_, ?_, Or.inl ?_, ?_, ?_⟩, hrun⟩
    · refine ⟨?_, Function.update_self .., hnoword⟩
      exact (spells_append.mp hbehind.spells).1.congr fun i _ h2 ↦ Function.update_of_ne h2.ne _ _
    · exact hrest.congr fun i h1 _ ↦ Function.update_of_ne (by omega) _ _
    · rw [hafter, words_sep]
    · omega
    · omega
    · rw [← hw]
      omega
    · omega
    · exact fun i hi ↦ Function.update_of_ne (by omega) _ _

end Rounds

/-! ## The whole line -/

/-- The words `ws` of the line are in `argv` from `argc` on, and nothing else has changed. -/
structure Parsed (mem : Image) (next : ℕ) (line : List UInt8) (argc : ℕ) (args : Args)
    (ws : List (List UInt8)) (mem' : Image) (args' : Args) : Prop where
  words : ∀ i (hi : i < ws.length), ∃ p, args'.argv (argc + i) = some p ∧ HoldsString mem' p ws[i]
  others : ∀ j, j < argc ∨ argc + ws.length ≤ j → args'.argv j = args.argv j
  stored : args'.stored = args.stored ++ List.range' argc ws.length
  frame : ∀ i, i < next ∨ next + line.length ≤ i → mem' i = mem i

section Lines

variable {token : UInt8}

/-- The loop counts up to seventeen words, and puts them into `argv`. -/
theorem cmdParseFrom_parsed (argc : ℕ) (args : Args) (ht : token ≠ 0) {fuel : ℕ} {mem : Image}
    {next : ℕ} {line : List UInt8} (h : HoldsString mem next line) (hfuel : line.length < fuel)
    (hargc : argc + (words token line).length ≤ maxArgNr + 1) :
    ∃ mem' args', cmdParseFrom token fuel mem next argc args =
        some (((argc + (words token line).length : ℕ) : ℤ), mem', args') ∧
      Parsed mem next line argc args (words token line) mem' args' := by
  induction fuel generalizing mem next argc line args with
  | zero => omega
  | succ fuel ih =>
    by_cases hword : firstWord token line = []
    · have hnil : words token line = [] := words_eq_nil_iff.mpr hword
      refine ⟨mem, args, ?_, ?_⟩
      · rw [cmdParseFrom_end argc args h ht hfuel hword, hnil]
        rfl
      · rw [hnil]
        exact ⟨fun i hi ↦ absurd hi (Nat.not_lt_zero i), fun j _ ↦ rfl, (List.append_nil _).symm,
          fun i _ ↦ rfl⟩
    · obtain ⟨p, mem₁, next₁, rest, hround, hrun⟩ :=
        cmdParseFrom_round argc args h ht hfuel hword
      have hws : words token line = firstWord token line :: words token rest := by
        rw [words_eq, if_neg hword, hround.words_rest]
      rw [hws, List.length_cons] at hargc
      have hshort := hround.shorter
      obtain ⟨mem', args', hret, hparsed⟩ :=
        ih (argc + 1) (args.store argc (some p)) hround.behind (by omega) (by omega)
      have hlen := hround.length
      have hle := hround.le
      refine ⟨mem', args', ?_, ?_⟩
      · rw [hrun, if_neg (by omega), hret, hws, List.length_cons]
        congr 3
        omega
      · rw [hws]
        refine ⟨fun i hi ↦ ?_, fun j hj ↦ ?_, ?_, fun i hi ↦ ?_⟩
        · cases i with
          | zero =>
            refine ⟨p, ?_, ?_⟩
            · rw [hparsed.others _ (Or.inl (by omega)), Args.store_argv, Nat.add_zero,
                Function.update_self]
            · refine hround.word.congr fun i _ h2 ↦ hparsed.frame i ?_
              rcases hround.apart with hlt | hnil
              · exact Or.inl (by omega)
              · rw [hnil, List.length_nil]
                omega
          | succ i =>
            obtain ⟨q, hq, hholds⟩ := hparsed.words i (by simpa using hi)
            refine ⟨q, ?_, by simpa using hholds⟩
            rw [← hq]
            congr 1
            omega
        · rw [List.length_cons] at hj
          rw [hparsed.others j (by omega), Args.store_argv]
          exact Function.update_of_ne (by omega) _ _
        · rw [hparsed.stored, Args.store_stored, List.length_cons, List.range'_succ,
            List.append_assoc]
          rfl
        · rw [hparsed.frame i (by omega), hround.frame i hi]

/-- The loop gives up when it has stored the eighteenth word. -/
theorem cmdParseFrom_exceeds (argc : ℕ) (args : Args) (ht : token ≠ 0) {fuel : ℕ} {mem : Image}
    {next : ℕ} {line : List UInt8} (h : HoldsString mem next line) (hfuel : line.length < fuel)
    (hle : argc ≤ maxArgNr + 1) (hargc : maxArgNr + 1 < argc + (words token line).length) :
    ∃ mem' args', cmdParseFrom token fuel mem next argc args = some (-1, mem', args') ∧
      maxArgNr + 1 ∈ args'.stored := by
  induction fuel generalizing mem next argc line args with
  | zero => omega
  | succ fuel ih =>
    have hword : firstWord token line ≠ [] := by
      intro hnil
      rw [words_eq_nil_iff.mpr hnil, List.length_nil] at hargc
      omega
    obtain ⟨p, mem₁, next₁, rest, hround, hrun⟩ :=
      cmdParseFrom_round argc args h ht hfuel hword
    rw [words_eq, if_neg hword, ← hround.words_rest, List.length_cons] at hargc
    have hshort := hround.shorter
    by_cases hlast : maxArgNr < argc
    · refine ⟨mem₁, args.store argc (some p), by rw [hrun, if_pos hlast], ?_⟩
      rw [Args.store_stored, Nat.le_antisymm hle hlast]
      exact List.mem_append_right _ (List.mem_singleton_self _)
    · rw [hrun, if_neg hlast]
      exact ih _ _ hround.behind (by omega) (by omega) (by omega)

end Lines

/-! ## The result -/

/-- `cmd_parse` splits a line into its words, and `my_shell` can go on with the result. -/
structure SplitsInto (ws : List (List UInt8)) (ret : ℤ) (mem' : Image)
    (args : Args) : Prop where
  /-- Only elements of the array were assigned. -/
  within : ∀ i ∈ args.stored, i < maxArgNr
  exceeds : ret = -1 ↔ maxArgNr < ws.length
  count : ret ≠ -1 → ret = ws.length
  words : ret ≠ -1 → ∀ i (hi : i < ws.length), ∃ p, args.argv i = some p ∧ HoldsString mem' p ws[i]
  rest : ret ≠ -1 → ∀ i, ws.length ≤ i → i < maxArgNr → args.argv i = none
  /-- `strcmp` gets a string. -/
  dispatched : ∃ a, dispatch ret args.argv mem' = .ok a

/-- The call returns, however long a walk may be, and has split the line. -/
def Splits (mem : Image) (cmdStr : ℕ) (argv : ℕ → Option ℕ) (token : UInt8)
    (line : List UInt8) : Prop :=
  ∀ fuel, line.length < fuel → ∃ ret mem' args,
    cmdParse fuel mem cmdStr argv token = some (ret, mem', args) ∧
      SplitsInto (words token line) ret mem' args

theorem foldl_store_stored (a : Args) (l : List ℕ) :
    (l.foldl (fun a i ↦ a.store i none) a).stored = a.stored ++ l := by
  induction l generalizing a with
  | nil => exact (List.append_nil _).symm
  | cons i l ih => rw [List.foldl_cons, ih, Args.store_stored, List.append_assoc,
      List.singleton_append]

theorem foldl_store_argv (a : Args) (l : List ℕ) (i : ℕ) :
    (l.foldl (fun a i ↦ a.store i none) a).argv i = if i ∈ l then none else a.argv i := by
  induction l generalizing a with
  | nil => rfl
  | cons j l ih =>
    rw [List.foldl_cons, ih, Args.store_argv]
    by_cases hij : i = j
    · simp [hij]
    · simp [hij, Function.update_of_ne hij]

section Result

variable {token : UInt8} {mem : Image} {cmdStr : ℕ} {argv : ℕ → Option ℕ} {line : List UInt8}

/-- What `cmd_parse` does with a line of at most seventeen words. -/
theorem cmdParse_parsed (argv : ℕ → Option ℕ) (ht : token ≠ 0) (h : HoldsString mem cmdStr line)
    (hle : (words token line).length ≤ maxArgNr + 1) {fuel : ℕ} (hfuel : line.length < fuel) :
    ∃ mem' args, cmdParse fuel mem cmdStr argv token =
        some (((words token line).length : ℤ), mem', args) ∧
      (∀ i (hi : i < (words token line).length), ∃ p, args.argv i = some p ∧
        HoldsString mem' p (words token line)[i]) ∧
      (∀ i, (words token line).length ≤ i → i < maxArgNr → args.argv i = none) ∧
      args.stored = List.range maxArgNr ++ List.range (words token line).length := by
  obtain ⟨mem', args, hret, hparsed⟩ := cmdParseFrom_parsed 0
    ((List.range maxArgNr).foldl (fun a i ↦ a.store i none) ⟨argv, []⟩) ht h hfuel
    (by rwa [Nat.zero_add])
  rw [Nat.zero_add] at hret
  refine ⟨mem', args, hret, fun i hi ↦ ?_, fun i h1 h2 ↦ ?_, ?_⟩
  · obtain ⟨p, hp, hholds⟩ := hparsed.words i hi
    exact ⟨p, by rwa [Nat.zero_add] at hp, hholds⟩
  · rw [hparsed.others i (Or.inr (by rwa [Nat.zero_add])), foldl_store_argv,
      if_pos (List.mem_range.mpr h2)]
  · rw [hparsed.stored, foldl_store_stored, List.nil_append, ← List.range_eq_range']

/-- With more words an element behind the array is assigned. -/
theorem exists_stored_of_exceeds (argv : ℕ → Option ℕ) (ht : token ≠ 0)
    (h : HoldsString mem cmdStr line) (hlt : maxArgNr < (words token line).length) {fuel : ℕ}
    (hfuel : line.length < fuel) :
    ∃ ret mem' args, cmdParse fuel mem cmdStr argv token = some (ret, mem', args) ∧
      ∃ i ∈ args.stored, maxArgNr ≤ i := by
  by_cases hle : (words token line).length ≤ maxArgNr + 1
  · obtain ⟨mem', args, hret, -, -, hstored⟩ := cmdParse_parsed argv ht h hle hfuel
    refine ⟨_, mem', args, hret, maxArgNr, ?_, Nat.le_refl _⟩
    rw [hstored]
    exact List.mem_append_right _ (List.mem_range.mpr hlt)
  · obtain ⟨mem', args, hret, hstored⟩ := cmdParseFrom_exceeds 0
      ((List.range maxArgNr).foldl (fun a i ↦ a.store i none) ⟨argv, []⟩) ht h hfuel
      (Nat.zero_le _) (by omega)
    exact ⟨_, mem', args, hret, _, hstored, Nat.le_succ _⟩

theorem not_splits_of_exceeds (ht : token ≠ 0) (h : HoldsString mem cmdStr line)
    (hlt : maxArgNr < (words token line).length) : ¬Splits mem cmdStr argv token line := by
  intro hsplits
  obtain ⟨ret, mem', args, hret, hinto⟩ := hsplits _ (Nat.lt_succ_self _)
  obtain ⟨ret', mem'', args', hret', i, hi, hge⟩ :=
    exists_stored_of_exceeds argv ht h hlt (Nat.lt_succ_self line.length)
  obtain ⟨-, -, rfl⟩ :=
    Prod.mk.inj (Option.some.inj (hret'.symm.trans hret)) |>.imp_right Prod.mk.inj
  exact absurd (hinto.within i hi) (Nat.not_lt.mpr hge)

/-- A line without words leaves `argv[0]` null, and `strcmp` is called with it. -/
theorem not_splits_of_blank (ht : token ≠ 0) (h : HoldsString mem cmdStr line)
    (hnil : words token line = []) : ¬Splits mem cmdStr argv token line := by
  intro hsplits
  obtain ⟨ret, mem', args, hret, hinto⟩ := hsplits _ (Nat.lt_succ_self _)
  obtain ⟨mem'', args', hret', -, hrest, -⟩ :=
    cmdParse_parsed argv ht h (by simp [hnil]) (Nat.lt_succ_self line.length)
  obtain ⟨rfl, rfl, rfl⟩ :=
    Prod.mk.inj (Option.some.inj (hret'.symm.trans hret)) |>.imp_right Prod.mk.inj
  obtain ⟨a, ha⟩ := hinto.dispatched
  rw [dispatch, hnil, if_neg (by decide), hrest 0 (by simp [hnil]) (by decide)] at ha
  cases ha

/-- **Splitting a line** works exactly when it has at least one word and not more than `argv` has
elements. -/
theorem splits_iff (ht : token ≠ 0) (h : HoldsString mem cmdStr line) :
    Splits mem cmdStr argv token line ↔
      1 ≤ (words token line).length ∧ (words token line).length ≤ maxArgNr := by
  constructor
  · intro hsplits
    constructor
    · by_contra hlt
      exact not_splits_of_blank ht h (List.length_eq_zero_iff.mp (by omega)) hsplits
    · by_contra hlt
      exact not_splits_of_exceeds ht h (by omega) hsplits
  · rintro ⟨hpos, hle⟩ fuel hfuel
    obtain ⟨mem', args, hret, hwords, hrest, hstored⟩ :=
      cmdParse_parsed argv ht h (by omega) hfuel
    refine ⟨_, mem', args, hret,
      ⟨fun i hi ↦ ?_, ?_, fun _ ↦ rfl, fun _ ↦ hwords, fun _ ↦ hrest, ?_⟩⟩
    · rw [hstored, List.mem_append, List.mem_range, List.mem_range] at hi
      omega
    · omega
    · obtain ⟨p, hp, -⟩ := hwords 0 hpos
      rw [dispatch, if_neg (by omega), hp]
      exact ⟨_, rfl⟩

end Result

/-- The bytes of a line, and zeros. -/
def lineImage (line : List UInt8) : Image := fun i ↦ line.getD i 0

theorem spells_getD (line pre : List UInt8) :
    Spells (fun i ↦ (pre ++ line).getD i 0) pre.length line := by
  induction line generalizing pre with
  | nil => trivial
  | cons c line ih =>
    refine ⟨by simp, ?_⟩
    have h := ih (pre ++ [c])
    rwa [List.append_assoc, List.singleton_append, List.length_append, List.length_singleton] at h

theorem holdsString_lineImage {line : List UInt8} (h : (0 : UInt8) ∉ line) :
    HoldsString (lineImage line) 0 line :=
  ⟨spells_getD line [], by simp [lineImage], h⟩

/-- `ls -a`. -/
theorem splits_iff_ls : Splits (lineImage [108, 115, 32, 45, 97]) 0 (fun _ ↦ none) 32
      [108, 115, 32, 45, 97] ↔
    1 ≤ (words 32 [108, 115, 32, 45, 97]).length ∧
      (words 32 [108, 115, 32, 45, 97]).length ≤ maxArgNr :=
  splits_iff (by decide) (holdsString_lineImage (by decide))

/-- Seventeen words, and a line of one blank. -/
theorem not_splits :
    ¬Splits (lineImage (List.replicate 17 [97, 32]).flatten) 0 (fun _ ↦ none) 32
        (List.replicate 17 [97, 32]).flatten ∧
      ¬Splits (lineImage [32]) 0 (fun _ ↦ none) 32 [32] := by
  constructor
  · exact not_splits_of_exceeds (by decide) (holdsString_lineImage (by decide)) (by decide)
  · exact not_splits_of_blank (by decide) (holdsString_lineImage (by decide)) (by decide)

end GlowOS.Shell
