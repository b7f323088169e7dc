import Mathlib.Data.List.Induction
import Mathlib.Data.List.TakeWhile
import Mathlib.Tactic.IntervalCases

/-! Formatted scanning as in `sscanf`, and what a format says about an input that it describes to
the end. Literal text, words over a set of characters with a greatest width, and unsigned decimal
numbers are covered. -/
namespace ScanFormat

inductive Directive where
  | text (literal : List Char)
  | scanset (width : ℕ) (accepts : Char → Bool)
  | unsigned

inductive Value where
  | word (w : List Char)
  | number (n : ℕ)
deriving DecidableEq, Repr

/-- White space of the C locale. -/
def isSpace (c : Char) : Bool := [' ', '\t', '\n', '\x0b', '\x0c', '\r'].contains c

/-- What is stored for an integer. When an `unsigned int` of 32 bits cannot represent it, the
standard leaves the value to the implementation. -/
def unsignedValue (wide : Bool → ℕ → ℕ) (negative : Bool) (n : ℕ) : ℕ :=
  if n < 2^32 ∧ (negative = false ∨ n = 0) then n else wide negative n % 2^32

def splitSign : List Char → Bool × List Char
  | '+' :: input => (false, input)
  | '-' :: input => (true, input)
  | input => (false, input)

/-- `%u`: white space is skipped, and a sign is optional. -/
def scanUnsigned (wide : Bool → ℕ → ℕ) (input : List Char) : Option (ℕ × List Char) :=
  let (negative, input) := splitSign (input.dropWhile isSpace)
  let digits := input.takeWhile Char.isDigit
  if digits = [] then none
  else
    some (unsignedValue wide negative (Nat.ofDigitChars 10 digits 0),
      input.dropWhile Char.isDigit)

/-- The values of the conversions that were done, and what is left of the input when all directives
have been followed. -/
def scan (wide : Bool → ℕ → ℕ) : List Directive → List Char → List Value × Option (List Char)
  | [], input => ([], some input)
  | .text literal :: format, input =>
    if literal.isPrefixOf input then scan wide format (input.drop literal.length) else ([], none)
  | .scanset width accepts :: format, input =>
    let word := (input.take width).takeWhile accepts
    if word = [] then ([], none)
    else
      let (values, rest) := scan wide format (input.drop word.length)
      (.word word :: values, rest)
  | .unsigned :: format, input =>
    match scanUnsigned wide input with
    | none => ([], none)
    | some (n, input) =>
      let (values, rest) := scan wide format input
      (.number n :: values, rest)

/-- The format describes the whole input, with these values. -/
def Scans (wide : Bool → ℕ → ℕ) (format : List Directive) (input : List Char)
    (values : List Value) : Prop :=
  scan wide format input = (values, some [])

variable {wide : Bool → ℕ → ℕ} {format : List Directive} {input literal : List Char}
  {values : List Value} {width : ℕ} {accepts : Char → Bool} {c : Char}

theorem scans_nil : Scans wide [] input values ↔ input = [] ∧ values = [] := by
  unfold Scans scan
  constructor
  · intro h
    obtain ⟨hv, hi⟩ := Prod.mk.inj h
    exact ⟨Option.some.inj hi, hv.symm⟩
  · rintro ⟨rfl, rfl⟩
    rfl

theorem scans_text : Scans wide (.text literal :: format) input values ↔
    ∃ tail, input = literal ++ tail ∧ Scans wide format tail values := by
  unfold Scans
  rw [scan]
  split_ifs with h
  · obtain ⟨tail, rfl⟩ := List.isPrefixOf_iff_prefix.mp h
    rw [List.drop_left]
    constructor
    · exact fun h => ⟨tail, rfl, h⟩
    · rintro ⟨tail', ht, h⟩
      rwa [List.append_cancel_left ht]
  · refine iff_of_false (fun h => by cases h) ?_
    rintro ⟨tail, rfl, _⟩
    exact h (List.isPrefixOf_iff_prefix.mpr (List.prefix_append literal tail))

/-- A list is cut where it first leaves the accepted characters. -/
theorem takeWhile_append_cons {word tail : List Char} (hword : ∀ x ∈ word, accepts x = true)
    (hc : accepts c = false) : (word ++ c :: tail).takeWhile accepts = word := by
  rw [List.takeWhile_append_of_pos hword, List.takeWhile_cons_of_neg (by simp [hc]),
    List.append_nil]

theorem dropWhile_append_cons {word tail : List Char} (hword : ∀ x ∈ word, accepts x = true)
    (hc : accepts c = false) : (word ++ c :: tail).dropWhile accepts = c :: tail := by
  rw [List.dropWhile_append_of_pos hword, List.dropWhile_cons_of_neg (by simp [hc])]

/-- The text begins outside the set. -/
def Stops (accepts : Char → Bool) (literal : List Char) : Prop :=
  ∃ c rest, literal = c :: rest ∧ accepts c = false

/-- A word over a set that the text after it leaves. -/
theorem scans_word (hstop : Stops accepts literal) :
    Scans wide (.scanset width accepts :: .text literal :: format) input values ↔
      ∃ word tail values', input = word ++ literal ++ tail ∧
        values = .word word :: values' ∧ word ≠ [] ∧ word.length ≤ width ∧
        (∀ x ∈ word, accepts x = true) ∧ Scans wide format tail values' := by
  obtain ⟨c, literal, rfl, hc⟩ := hstop
  constructor
  · intro h
    unfold Scans at h
    rw [scan] at h
    set word := (input.take width).takeWhile accepts with hword
    dsimp only at h
    split_ifs at h with hne
    · cases h
    · have hprefix : word <+: input :=
        (List.takeWhile_prefix accepts).trans (List.take_prefix width input)
      obtain ⟨rest, hrest⟩ := hprefix
      rw [← hrest, List.drop_left] at h
      obtain ⟨hv, hr⟩ := Prod.mk.inj h
      obtain ⟨tail, rfl, hs⟩ := scans_text.mp
        (show Scans wide (.text (c :: literal) :: format) rest _ from Prod.ext rfl hr)
      refine ⟨word, tail, _, ?_, hv.symm, hne, ?_, ?_, hs⟩
      · rw [List.append_assoc]
        exact hrest.symm
      · have hle := (List.takeWhile_prefix (l := input.take width) accepts).length_le
        exact hle.trans (List.length_take_le width input)
      · exact fun x hx => List.mem_takeWhile_imp hx
  · rintro ⟨word, tail, values', rfl, rfl, hne, hlen, hall, hs⟩
    have htake : ((word ++ c :: literal ++ tail).take width).takeWhile accepts = word := by
      rw [List.append_assoc, List.take_append, List.take_of_length_le hlen]
      cases h : width-word.length with
      | zero =>
        rw [List.take_zero, List.append_nil]
        exact List.takeWhile_eq_self_iff.mpr hall
      | succ n => exact takeWhile_append_cons hall hc
    unfold Scans
    rw [scan, htake]
    dsimp only
    rw [if_neg hne, List.append_assoc, List.drop_left]
    have htext : Scans wide (.text (c :: literal) :: format) (c :: literal ++ tail) values' :=
      scans_text.mpr ⟨tail, rfl, hs⟩
    rw [htext]

/-- A word over a set at the end of the format. -/
theorem scans_last_word : Scans wide [.scanset width accepts] input values ↔
    values = [.word input] ∧ input ≠ [] ∧ input.length ≤ width ∧
      ∀ x ∈ input, accepts x = true := by
  unfold Scans
  rw [scan]
  set word := (input.take width).takeWhile accepts with hword
  dsimp only
  have hbegins : word <+: input :=
    (List.takeWhile_prefix accepts).trans (List.take_prefix width input)
  obtain ⟨rest, hrest⟩ := hbegins
  constructor
  · intro h
    split_ifs at h with hne
    · cases h
    · rw [← hrest, List.drop_left, scan] at h
      obtain ⟨rfl, hr⟩ := Prod.mk.inj h
      -- Nothing is left behind the word.
      rw [Option.some.inj hr, List.append_nil] at hrest
      have hle := (List.takeWhile_prefix (l := input.take width) accepts).length_le
      rw [← hword, hrest] at hle
      refine ⟨by rw [hrest], hrest ▸ hne, hle.trans (List.length_take_le width input), ?_⟩
      intro x hx
      rw [← hrest] at hx
      exact List.mem_takeWhile_imp hx
  · rintro ⟨rfl, hne, hlen, hall⟩
    have heq : word = input := by
      rw [hword, List.take_of_length_le hlen]
      exact List.takeWhile_eq_self_iff.mpr hall
    rw [heq, if_neg hne, List.drop_length]
    rfl

/-- The spellings of a number that `%u` reads. -/
def Numeral (wide : Bool → ℕ → ℕ) (spelling : List Char) (n : ℕ) : Prop :=
  ∃ spaces sign digits, spelling = spaces ++ sign ++ digits ∧
    (∀ x ∈ spaces, isSpace x = true) ∧ (sign = [] ∨ sign = ['+'] ∨ sign = ['-']) ∧
    digits ≠ [] ∧ (∀ x ∈ digits, x.isDigit = true) ∧
    n = unsignedValue wide (decide (sign = ['-'])) (Nat.ofDigitChars 10 digits 0)

theorem isSpace_of_isDigit (x : Char) (h : x.isDigit = true) : isSpace x = false := by
  simp only [isSpace, List.contains_eq_mem, decide_eq_false_iff_not, List.mem_cons,
    List.not_mem_nil, or_false]
  rintro (rfl | rfl | rfl | rfl | rfl | rfl) <;> revert h <;> decide

theorem splitSign_parts (input : List Char) : ∃ sign, input = sign ++ (splitSign input).2 ∧
    (sign = [] ∨ sign = ['+'] ∨ sign = ['-']) ∧
    (splitSign input).1 = decide (sign = ['-']) := by
  unfold splitSign
  split
  · exact ⟨['+'], rfl, by simp, rfl⟩
  · exact ⟨['-'], rfl, by simp, rfl⟩
  · exact ⟨[], rfl, by simp, rfl⟩

theorem splitSign_append {sign : List Char} (hsign : sign = [] ∨ sign = ['+'] ∨ sign = ['-'])
    (d : Char) (hd : d.isDigit = true) (tail : List Char) :
    splitSign (sign ++ d :: tail) = (decide (sign = ['-']), d :: tail) := by
  rcases hsign with rfl | rfl | rfl
  · rw [List.nil_append]
    unfold splitSign
    split
    · rename_i h
      obtain ⟨rfl, -⟩ := List.cons.inj h
      exact absurd hd (by decide)
    · rename_i h
      obtain ⟨rfl, -⟩ := List.cons.inj h
      exact absurd hd (by decide)
    · rfl
  · rfl
  · rfl

theorem scanUnsigned_some {n : ℕ} {rest : List Char} (h : scanUnsigned wide input = some (n, rest)) :
    ∃ spelling, input = spelling ++ rest ∧ Numeral wide spelling n := by
  unfold scanUnsigned at h
  obtain ⟨sign, hsplit, hsign, hneg⟩ := splitSign_parts (input.dropWhile isSpace)
  set after := (splitSign (input.dropWhile isSpace)).2 with hafter
  dsimp only at h
  split_ifs at h with hne
  obtain ⟨hn, hrest⟩ := Prod.mk.inj (Option.some.inj h)
  refine ⟨input.takeWhile isSpace ++ sign ++ after.takeWhile Char.isDigit, ?_,
    input.takeWhile isSpace, sign, after.takeWhile Char.isDigit, rfl, ?_, hsign, hne, ?_, ?_⟩
  · calc input = input.takeWhile isSpace ++ input.dropWhile isSpace :=
        List.takeWhile_append_dropWhile.symm
      _ = input.takeWhile isSpace ++ (sign ++ (after.takeWhile Char.isDigit ++ rest)) := by
        rw [hsplit, ← hrest, List.takeWhile_append_dropWhile]
      _ = _ := by simp only [List.append_assoc]
  · exact fun x hx => List.mem_takeWhile_imp hx
  · exact fun x hx => List.mem_takeWhile_imp hx
  · rw [← hneg]
    exact hn.symm

theorem scanUnsigned_append {n : ℕ} {spelling tail : List Char} (h : Numeral wide spelling n)
    (hc : c.isDigit = false) :
    scanUnsigned wide (spelling ++ c :: tail) = some (n, c :: tail) := by
  obtain ⟨spaces, sign, digits, rfl, hspaces, hsign, hne, hdigits, rfl⟩ := h
  obtain ⟨d, ds, rfl⟩ := List.exists_cons_of_ne_nil hne
  have hd := hdigits d List.mem_cons_self
  have hdrop : (spaces ++ sign ++ d :: ds ++ c :: tail).dropWhile isSpace =
      sign ++ d :: (ds ++ c :: tail) := by
    rw [List.append_assoc, List.append_assoc, List.dropWhile_append_of_pos hspaces]
    have hstart : ∃ x xs, sign ++ (d :: ds ++ c :: tail) = x :: xs ∧ isSpace x = false := by
      rcases hsign with rfl | rfl | rfl
      · exact ⟨d, _, rfl, isSpace_of_isDigit d hd⟩
      · exact ⟨_, _, rfl, by decide⟩
      · exact ⟨_, _, rfl, by decide⟩
    obtain ⟨x, xs, hx, hs⟩ := hstart
    rw [hx, List.dropWhile_cons_of_neg (by simp [hs]), ← hx]
    rfl
  unfold scanUnsigned
  rw [hdrop, splitSign_append hsign d hd]
  dsimp only
  rw [show d :: (ds ++ c :: tail) = d :: ds ++ c :: tail from rfl,
    takeWhile_append_cons hdigits hc, dropWhile_append_cons hdigits hc, if_neg hne]

/-- A number and the text after it, which does not begin with a digit. -/
theorem scans_number (hstop : Stops Char.isDigit literal) :
    Scans wide (.unsigned :: .text literal :: format) input values ↔
      ∃ spelling n tail values', input = spelling ++ literal ++ tail ∧
        values = .number n :: values' ∧ Numeral wide spelling n ∧
        Scans wide format tail values' := by
  obtain ⟨c, literal, rfl, hc⟩ := hstop
  constructor
  · intro h
    unfold Scans at h
    rw [scan] at h
    cases hu : scanUnsigned wide input with
    | none =>
      rw [hu] at h
      cases h
    | some result =>
      obtain ⟨n, rest⟩ := result
      rw [hu] at h
      obtain ⟨spelling, rfl, hnum⟩ := scanUnsigned_some hu
      obtain ⟨hv, hr⟩ := Prod.mk.inj h
      obtain ⟨tail, rfl, hs⟩ := scans_text.mp
        (show Scans wide (.text (c :: literal) :: format) rest _ from Prod.ext rfl hr)
      exact ⟨spelling, n, tail, _, (List.append_assoc _ _ _).symm, hv.symm, hnum, hs⟩
  · rintro ⟨spelling, n, tail, values', rfl, rfl, hnum, hs⟩
    unfold Scans
    rw [scan, List.append_assoc, List.cons_append, scanUnsigned_append hnum hc]
    dsimp only
    have htext : Scans wide (.text (c :: literal) :: format) (c :: literal ++ tail) values' :=
      scans_text.mpr ⟨tail, rfl, hs⟩
    rw [show c :: (literal ++ tail) = c :: literal ++ tail from rfl, htext]

/-- What is left is an end of the input. -/
theorem scan_suffix (wide : Bool → ℕ → ℕ) (format : List Directive) (input rest : List Char)
    (h : (scan wide format input).2 = some rest) : rest <:+ input := by
  induction format generalizing input with
  | nil =>
    obtain rfl : input = rest := Option.some.inj h
    exact List.suffix_rfl
  | cons d format ih =>
    cases d with
    | text literal =>
      rw [scan] at h
      split_ifs at h
      exact (ih _ h).trans (List.drop_suffix _ _)
    | scanset width accepts =>
      rw [scan] at h
      dsimp only at h
      split_ifs at h
      exact (ih _ h).trans (List.drop_suffix _ _)
    | unsigned =>
      rw [scan] at h
      cases hu : scanUnsigned wide input with
      | none =>
        rw [hu] at h
        cases h
      | some result =>
        obtain ⟨n, left⟩ := result
        rw [hu] at h
        obtain ⟨spelling, rfl, _⟩ := scanUnsigned_some hu
        exact (ih left h).trans (List.suffix_append _ _)

/-- An empty input gives no value. -/
theorem scan_nil_input (wide : Bool → ℕ → ℕ) (format : List Directive) :
    (scan wide format []).1 = [] := by
  induction format with
  | nil => rfl
  | cons d format ih =>
    cases d with
    | text literal =>
      rw [scan]
      split_ifs
      · rwa [List.drop_nil]
      · rfl
    | scanset width accepts =>
      rw [scan, List.take_nil]
      rfl
    | unsigned => rfl

/-- The values of the conversions and the number of characters that `%n` at the end of the format
stores in a variable that was zero. -/
def sscanf (wide : Bool → ℕ → ℕ) (format : List Directive) (input : List Char) :
    List Value × ℕ :=
  let (values, rest) := scan wide format input
  (values, rest.elim 0 fun rest => input.length-rest.length)

/-- The check that `%n` has counted the whole input finds out whether the format describes it. -/
theorem sscanf_whole (hne : values ≠ []) : (∃ consumed, sscanf wide format input =
    (values, consumed) ∧ input.drop consumed = []) ↔ Scans wide format input values := by
  unfold sscanf Scans
  constructor
  · rintro ⟨consumed, hscan, hend⟩
    obtain ⟨hvalues, hcount⟩ := Prod.mk.inj hscan
    cases hrest : (scan wide format input).2 with
    | none =>
      rw [hrest] at hcount
      obtain rfl : 0 = consumed := hcount
      obtain rfl : input = [] := hend
      rw [scan_nil_input] at hvalues
      exact absurd hvalues.symm hne
    | some rest =>
      rw [hrest] at hcount
      obtain rfl : input.length-rest.length = consumed := hcount
      obtain ⟨front, rfl⟩ := scan_suffix wide format input rest hrest
      rw [List.length_append, Nat.add_sub_cancel, List.drop_left] at hend
      exact Prod.ext hvalues (hrest.trans (congrArg some hend))
  · intro h
    rw [h]
    exact ⟨_, rfl, by simp⟩

theorem head?_append_of_ne_nil {front : List Char} (h : front ≠ []) (back : List Char) :
    (front ++ back).head? = front.head? := by
  obtain ⟨x, xs, rfl⟩ := List.exists_cons_of_ne_nil h
  rfl

theorem digitChar_of_isDigit (x : Char) (h : x.isDigit = true) :
    Nat.digitChar (x.toNat - '0'.toNat) = x ∧ x.toNat - '0'.toNat < 10 := by
  have hx : 48 ≤ x.toNat ∧ x.toNat ≤ 57 := by
    simp only [Char.isDigit, Bool.and_eq_true, decide_eq_true_eq] at h
    exact ⟨h.1, h.2⟩
  have hcases : ∀ k : Fin 10, Nat.digitChar (k.val+48-48) = Char.ofNat (k.val+48) := by decide
  obtain ⟨k, hk⟩ : ∃ k : Fin 10, x.toNat = k.val+48 := ⟨⟨x.toNat-48, by omega⟩, by simp; omega⟩
  refine ⟨?_, by change x.toNat-48 < 10; omega⟩
  change Nat.digitChar (x.toNat-48) = x
  rw [hk, hcases k, ← hk, Char.ofNat_toNat]

/-- Digits that do not begin with a zero are the digits of their value. -/
theorem toDigits_ofDigitChars (digits : List Char) (hne : digits ≠ [])
    (hdigits : ∀ x ∈ digits, x.isDigit = true) (hzero : digits.head? ≠ some '0') :
    Nat.toDigits 10 (Nat.ofDigitChars 10 digits 0) = digits := by
  induction digits using List.reverseRecOn with
  | nil => exact absurd rfl hne
  | append_singleton digits d ih =>
    obtain ⟨hd, hlt⟩ := digitChar_of_isDigit d (hdigits d (by simp))
    rw [Nat.ofDigitChars_append, Nat.ofDigitChars_cons, Nat.ofDigitChars_nil]
    by_cases hnil : digits = []
    · subst hnil
      rw [Nat.ofDigitChars_nil, Nat.mul_zero, Nat.zero_add, Nat.toDigits_of_lt_base hlt, hd]
      rfl
    · have hhead : digits.head? ≠ some '0' := by
        rwa [head?_append_of_ne_nil hnil] at hzero
      have hinit := ih hnil (fun x hx => hdigits x (by simp [hx])) hhead
      have hpos : 0 < Nat.ofDigitChars 10 digits 0 := by
        by_contra h
        rw [Nat.eq_zero_of_not_pos h, Nat.toDigits_zero] at hinit
        rw [← hinit] at hhead
        exact hhead rfl
      rw [← Nat.toDigits_append_toDigits (by decide) hpos hlt, hinit,
        Nat.toDigits_of_lt_base hlt, hd]

/-- The digits of a positive number do not begin with a zero. -/
theorem head_toDigits (n : ℕ) (hn : 0 < n) : (Nat.toDigits 10 n).head? ≠ some '0' := by
  induction n using Nat.strong_induction_on with
  | _ n ih =>
    rcases Nat.lt_or_ge n 10 with hlt | hge
    · rw [Nat.toDigits_of_lt_base hlt]
      interval_cases n <;> decide
    · rw [Nat.toDigits_of_base_le (by decide) hge,
        head?_append_of_ne_nil Nat.toDigits_ne_nil]
      exact ih (n/10) (by omega) (by omega)

theorem ofDigitChars_lt (digits : List Char) (hdigits : ∀ x ∈ digits, x.isDigit = true) :
    Nat.ofDigitChars 10 digits 0 < 10^digits.length := by
  induction digits using List.reverseRecOn with
  | nil => decide
  | append_singleton digits d ih =>
    obtain ⟨_, hlt⟩ := digitChar_of_isDigit d (hdigits d (by simp))
    have hinit := ih (fun x hx => hdigits x (by simp [hx]))
    rw [Nat.ofDigitChars_append, Nat.ofDigitChars_cons, Nat.ofDigitChars_nil, List.length_append,
      List.length_singleton, Nat.pow_succ]
    omega

/-- `%u` reads what `%u` of a number below 2^32 prints. -/
theorem numeral_toDigits (n : ℕ) (hn : n < 2^32) : Numeral wide (Nat.toDigits 10 n) n := by
  refine ⟨[], [], Nat.toDigits 10 n, rfl, by simp, Or.inl rfl, Nat.toDigits_ne_nil, ?_, ?_⟩
  · exact fun x hx => Nat.isDigit_of_mem_toDigits (by decide) (by decide) hx
  · rw [Nat.ofDigitChars_ten_toDigits]
    unfold unsignedValue
    rw [if_pos ⟨hn, Or.inl rfl⟩]

end ScanFormat
