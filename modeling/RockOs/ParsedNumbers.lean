import RockOs.PrintedNumbers

/-! `strict_strtoul` and `trailing_strtoln` of `lib/strto.c`, against what a number is.
Both decide by where the scan of `simple_strtoul` stops. It skips a `0x` whatever
follows, adds up digits modulo 2⁶⁴, and knows of no end but the one of the string. -/
namespace RockOs.ParsedNumbers
open Ctype PrintedNumbers Strto

/-! ## Numerals -/

/-- The value of a digit, of either case. -/
def digit? (c : UInt8) : Option Nat :=
  if 48 ≤ c ∧ c ≤ 57 then some (c.toNat - 48)
  else if 65 ≤ c ∧ c ≤ 70 then some (c.toNat - 55)
  else if 97 ≤ c ∧ c ≤ 102 then some (c.toNat - 87)
  else none

/-- The number some digits stand for. -/
def valueIn (radix : Nat) (ds : List Nat) : Nat := ds.foldl (fun value d => value * radix + d) 0

/-- One or more digits of a radix, and their value. -/
def Numeral (radix : Nat) (text : List UInt8) (value : Nat) : Prop :=
  ∃ ds : List Nat, ds ≠ [] ∧ text.map digit? = ds.map some ∧ (∀ d ∈ ds, d < radix) ∧ value = valueIn radix ds

theorem digit?_eq (c : UInt8) : digit? c = if isXdigit c then some (digitValue c) else none := by
  have all : ∀ n < 256, digit? (UInt8.ofNat n) =
      if isXdigit (UInt8.ofNat n) then some (digitValue (UInt8.ofNat n)) else none := by decide +kernel
  have byte := all c.toNat c.toNat_lt
  rwa [UInt8.ofNat_toNat] at byte

theorem digit?_some : digit? c = some d ↔ isXdigit c ∧ digitValue c = d := by
  rw [digit?_eq]
  split <;> simp [*]

private theorem digits_read {text : List UInt8} {ds : List Nat} (chars : text.map digit? = ds.map some) :
    (∀ c ∈ text, isXdigit c) ∧ text.map digitValue = ds := by
  induction text generalizing ds with
  | nil =>
    cases ds with
    | nil => exact ⟨fun c member => absurd member List.not_mem_nil, rfl⟩
    | cons d ds => cases chars
  | cons c text ih =>
    cases ds with
    | nil => cases chars
    | cons d ds =>
      rw [List.map_cons, List.map_cons, List.cons.injEq] at chars
      obtain ⟨hex, value⟩ := digit?_some.mp chars.1
      obtain ⟨rest, values⟩ := ih chars.2
      refine ⟨fun x member => ?_, by rw [List.map_cons, value, values]⟩
      rcases List.mem_cons.mp member with rfl | member
      · exact hex
      · exact rest x member

private theorem isDigitIn_iff : isDigitIn radix c = true ↔ isXdigit c ∧ digitValue c < radix := by
  simp [isDigitIn]

/-- A numeral is made of what the scan takes for digits. -/
theorem numeral_iff : Numeral radix text value ↔
    text ≠ [] ∧ (∀ c ∈ text, isDigitIn radix c) ∧ value = valueIn radix (text.map digitValue) := by
  constructor
  · rintro ⟨ds, some, chars, digits, rfl⟩
    obtain ⟨hex, values⟩ := digits_read chars
    subst values
    refine ⟨fun empty => some (by rw [empty]; rfl), fun c member => ?_, rfl⟩
    exact isDigitIn_iff.mpr ⟨hex c member, digits _ (List.mem_map_of_mem member)⟩
  · rintro ⟨some, digits, rfl⟩
    refine ⟨text.map digitValue, by simpa using some, ?_, ?_, rfl⟩
    · rw [List.map_map]
      exact List.map_congr_left fun c member => digit?_some.mpr ⟨(isDigitIn_iff.mp (digits c member)).1, rfl⟩
    · intro d member
      obtain ⟨c, inside, rfl⟩ := List.mem_map.mp member
      exact (isDigitIn_iff.mp (digits c inside)).2

/-! ## Numbers -/

/-- The letter of a hexadecimal number. -/
def IsX (x : UInt8) : Prop := x = 'x'.toUInt8 ∨ x = 'X'.toUInt8

/-- What is permitted in front of the digits, and the radix it stands for. Where the
base is left open, a leading zero is a digit of an octal number. -/
inductive Written : (base : Nat) → (body : List UInt8) → (radix : Nat) → (digits : List UInt8) → Prop
  | plain (given : base ≠ 0) : Written base digits base digits
  | hexadecimal (permitted : base = 0 ∨ base = 16) (letter : IsX x) :
    Written base ('0'.toUInt8 :: x :: digits) 16 digits
  | octal : Written 0 ('0'.toUInt8 :: digits) 8 ('0'.toUInt8 :: digits)
  | decimal (other : c ≠ '0'.toUInt8) : Written 0 (c :: digits) 10 (c :: digits)

/-- Nothing or a newline. -/
def Ending (tail : List UInt8) : Prop := tail = [] ∨ tail = ['\n'.toUInt8]

instance : Decidable (Ending tail) := inferInstanceAs (Decidable (_ ∨ _))

/-- A number with nothing but a newline behind it. -/
def Number (base : Nat) (s : List UInt8) (value : Nat) : Prop :=
  ∃ body tail radix digits, s = body ++ tail ∧ Ending tail ∧ Written base body radix digits ∧ Numeral radix digits value

/-- Only the letter of a hexadecimal number has this lower case. -/
theorem toLower_x : toLower x = 'x'.toUInt8 ↔ IsX x := by
  have all : ∀ n < 256, toLower (UInt8.ofNat n) = 'x'.toUInt8 ↔
      UInt8.ofNat n = 'x'.toUInt8 ∨ UInt8.ofNat n = 'X'.toUInt8 := by decide +kernel
  have byte := all x.toNat x.toNat_lt
  rwa [UInt8.ofNat_toNat] at byte

private theorem not_x_of_hex (hex : isXdigit c = true) : ¬ IsX c := by
  rintro (rfl | rfl) <;> exact absurd hex (by decide)

/-- No `x` comes second in digits with an ending. -/
theorem not_x_second (digits : ∀ c ∈ text, isDigitIn radix c) (ending : Ending tail) (some : text ≠ []) :
    ¬ toLower ((text ++ tail).getD 1 0) = 'x'.toUInt8 := by
  rw [toLower_x]
  have second : (text ++ tail).getD 1 0 ∈ text ∨ (text ++ tail).getD 1 0 = '\n'.toUInt8 ∨
      (text ++ tail).getD 1 0 = 0 := by
    match text with
    | [] => exact absurd rfl some
    | [c] => rcases ending with rfl | rfl <;> simp
    | c :: d :: text => simp
  rcases second with member | newline | none
  · exact not_x_of_hex (isDigitIn_iff.mp (digits _ member)).1
  · rw [newline]
    rintro (other | other) <;> exact absurd other (by decide)
  · rw [none]
    rintro (other | other) <;> exact absurd other (by decide)

/-- The radix is found as it was written. -/
theorem fixup_written (written : Written base body radix digits) (numeral : Numeral radix digits value)
    (ending : Ending tail) : parseIntegerFixupRadix (body ++ tail) base = (digits ++ tail, radix) := by
  obtain ⟨some, read, -⟩ := numeral_iff.mp numeral
  cases written with
  | plain given =>
    have second := not_x_second read ending some
    simp only [parseIntegerFixupRadix, given, if_false, second, and_false]
  | hexadecimal permitted letter =>
    have x := toLower_x.mpr letter
    cases digits with
    | nil => exact absurd rfl some
    | cons c digits =>
      have hex := (isDigitIn_iff.mp (read c List.mem_cons_self)).1
      rcases permitted with rfl | rfl <;> simp [parseIntegerFixupRadix, x, hex]
  | octal =>
    have second := not_x_second read ending some
    rw [List.cons_append] at second
    simp only [parseIntegerFixupRadix, second, false_and, and_false, if_false, if_true, List.cons_append,
      List.getD_cons_zero]
  | decimal other =>
    simp only [parseIntegerFixupRadix, other, false_and, and_false, if_false, if_true, List.cons_append,
      List.getD_cons_zero]

/-- How the scan starts: at the string, or behind a `0x` of it. Where the base is left
open a digit follows the `0x`. -/
theorem fixup_cases (s : List UInt8) (base : Nat) :
    (∃ x text, s = '0'.toUInt8 :: x :: text ∧ IsX x ∧ (base = 0 ∧ isXdigit (text.getD 0 0) ∨ base = 16) ∧
      parseIntegerFixupRadix s base = (text, 16)) ∨
    base ≠ 0 ∧ parseIntegerFixupRadix s base = (s, base) ∨
    base = 0 ∧ s.getD 0 0 = '0'.toUInt8 ∧ parseIntegerFixupRadix s base = (s, 8) ∨
    base = 0 ∧ s.getD 0 0 ≠ '0'.toUInt8 ∧ parseIntegerFixupRadix s base = (s, 10) := by
  have shape (zero : s.getD 0 0 = '0'.toUInt8) (letter : toLower (s.getD 1 0) = 'x'.toUInt8) :
      ∃ x text, s = '0'.toUInt8 :: x :: text ∧ IsX x := by
    match s with
    | [] => exact absurd zero (by decide)
    | [c] => exact absurd (show toLower 0 = 'x'.toUInt8 from letter) (by decide)
    | c :: x :: text =>
      rw [List.getD_cons_zero] at zero
      exact ⟨x, text, by rw [zero], toLower_x.mp letter⟩
  by_cases zero : s.getD 0 0 = '0'.toUInt8 ∧ toLower (s.getD 1 0) = 'x'.toUInt8
  · obtain ⟨x, text, rfl, letter⟩ := shape zero.1 zero.2
    have lower := toLower_x.mpr letter
    by_cases open_base : base = 0
    · by_cases hex : isXdigit (text.getD 0 0)
      · refine .inl ⟨x, text, rfl, letter, .inl ⟨open_base, hex⟩, ?_⟩
        simp only [parseIntegerFixupRadix, open_base, List.getD_cons_zero, List.getD_cons_succ, lower, hex, and_self,
          if_true]
        rfl
      · refine .inr (.inr (.inl ⟨open_base, rfl, ?_⟩))
        have eight : ¬ (8 : Nat) = 16 := by decide
        simp only [parseIntegerFixupRadix, open_base, List.getD_cons_zero, List.getD_cons_succ, hex, and_false, if_true,
          Bool.false_eq_true, if_false, eight, false_and]
    · by_cases sixteen : base = 16
      · exact .inl ⟨x, text, rfl, letter, .inr sixteen, by simp [parseIntegerFixupRadix, sixteen, lower]⟩
      · exact .inr (.inl ⟨open_base, by simp [parseIntegerFixupRadix, open_base, sixteen]⟩)
  · by_cases open_base : base = 0
    · by_cases first : s.getD 0 0 = '0'.toUInt8
      · have second : ¬ toLower (s.getD 1 0) = 'x'.toUInt8 := fun letter => zero ⟨first, letter⟩
        refine .inr (.inr (.inl ⟨open_base, first, ?_⟩))
        simp only [parseIntegerFixupRadix, open_base, if_true, first, second, false_and, and_false, if_false]
      · refine .inr (.inr (.inr ⟨open_base, first, ?_⟩))
        simp only [parseIntegerFixupRadix, open_base, if_true, first, false_and, and_false, if_false]
    · refine .inr (.inl ⟨open_base, ?_⟩)
      simp only [parseIntegerFixupRadix, open_base, if_false, zero, and_false]

/-! ## What the scan finds -/

/-- The digits the scan takes. -/
def run (s : List UInt8) (base : Nat) : List UInt8 :=
  (parseIntegerFixupRadix s base).1.takeWhile (isDigitIn (parseIntegerFixupRadix s base).2)

/-- What it leaves. -/
def rest (s : List UInt8) (base : Nat) : List UInt8 :=
  (parseIntegerFixupRadix s base).1.dropWhile (isDigitIn (parseIntegerFixupRadix s base).2)

/-- The sum of the digits. -/
def total (s : List UInt8) (base : Nat) : Nat :=
  valueIn (parseIntegerFixupRadix s base).2 ((run s base).map digitValue)

private theorem run_append_rest (s : List UInt8) (base : Nat) :
    run s base ++ rest s base = (parseIntegerFixupRadix s base).1 :=
  List.takeWhile_append_dropWhile

private theorem simpleStrtoul_eq (s : List UInt8) (base : Nat) :
    simpleStrtoul s base = (total s base % 2 ^ 64, rest s base) :=
  strtoLoop_eq _ _ (by decide)

private theorem scan_digits (digits : ∀ c ∈ text, isDigitIn radix c) (ending : Ending tail) :
    (text ++ tail).takeWhile (isDigitIn radix) = text ∧ (text ++ tail).dropWhile (isDigitIn radix) = tail := by
  have newline : isDigitIn radix '\n'.toUInt8 = false := rfl
  rw [List.takeWhile_append_of_pos digits, List.dropWhile_append_of_pos digits]
  rcases ending with rfl | rfl <;> simp [newline]

/-- A string is a number if the scan takes digits and leaves nothing but a newline. -/
theorem number_iff : Number base s value ↔ run s base ≠ [] ∧ Ending (rest s base) ∧ value = total s base := by
  constructor
  · rintro ⟨body, tail, radix, digits, rfl, ending, written, numeral⟩
    obtain ⟨some, read, rfl⟩ := numeral_iff.mp numeral
    obtain ⟨taken, left⟩ := scan_digits read ending
    have fixed := fixup_written written numeral ending
    have runs : run (body ++ tail) base = digits := by rw [run, fixed, taken]
    have rests : rest (body ++ tail) base = tail := by rw [rest, fixed, left]
    rw [total, runs, rests, fixed]
    exact ⟨some, ending, rfl⟩
  · rintro ⟨some, ending, rfl⟩
    have joined := run_append_rest s base
    have read : ∀ c ∈ run s base, isDigitIn (parseIntegerFixupRadix s base).2 c := fun c => List.mem_takeWhile_imp
    have numeral : Numeral (parseIntegerFixupRadix s base).2 (run s base) (total s base) :=
        numeral_iff.mpr ⟨some, read, rfl⟩
    obtain ⟨c, more, begins⟩ := List.exists_cons_of_ne_nil some
    have first (whole : (parseIntegerFixupRadix s base).1 = s) : s.getD 0 0 = c := by
      rw [← whole, ← joined, begins]
      rfl
    rcases fixup_cases s base with ⟨x, text, shape, letter, permitted, fixed⟩ | ⟨given, fixed⟩ |
      ⟨open_base, zero, fixed⟩ | ⟨open_base, other, fixed⟩
    · rw [fixed] at joined numeral
      have body : s = '0'.toUInt8 :: x :: run s base ++ rest s base := by
        rw [List.cons_append, List.cons_append, joined]
        exact shape
      exact ⟨_, _, 16, _, body, ending, .hexadecimal (permitted.imp_left And.left) letter, numeral⟩
    · rw [fixed] at joined numeral
      exact ⟨_, _, base, _, joined.symm, ending, .plain given, numeral⟩
    · have head := first (by rw [fixed])
      rw [fixed] at joined numeral
      rw [zero] at head
      rw [open_base] at begins ending joined numeral ⊢
      refine ⟨_, _, 8, _, joined.symm, ending, ?_, numeral⟩
      rw [begins, ← head]
      exact .octal
    · have head := first (by rw [fixed])
      rw [fixed] at joined numeral
      rw [head] at other
      rw [open_base] at begins ending joined numeral ⊢
      refine ⟨_, _, 10, _, joined.symm, ending, ?_, numeral⟩
      rw [begins]
      exact .decimal other

/-! ## Strict reading -/

private theorem fixup_suffix (s : List UInt8) (base : Nat) : (parseIntegerFixupRadix s base).1 <:+ s := by
  rcases fixup_cases s base with ⟨x, text, shape, -, -, fixed⟩ | ⟨-, fixed⟩ | ⟨-, -, fixed⟩ | ⟨-, -, fixed⟩
  · rw [fixed, shape]
    exact (List.suffix_cons x text).trans (List.suffix_cons _ _)
  all_goals rw [fixed]

private theorem rest_suffix (s : List UInt8) (base : Nat) : rest s base <:+ s :=
  (List.dropWhile_suffix _).trans (fixup_suffix s base)

private theorem rest_shorter (nonempty : run s base ≠ []) : (rest s base).length < s.length := by
  have joined := congrArg List.length (run_append_rest s base)
  have within := (fixup_suffix s base).length_le
  have positive := List.length_pos_iff.mpr nonempty
  rw [List.length_append] at joined
  omega

/-- The string is accepted if something was taken and nothing but a newline is left. -/
theorem strictStrtoul_eq (clean : 0 ∉ s) (base : Nat) :
    strictStrtoul s base =
      if s.length ≠ (rest s base).length ∧ Ending (rest s base) then (0, total s base % 2 ^ 64) else (-einval, 0) := by
  have shorter := (rest_suffix s base).length_le
  have left : 0 ∉ rest s base := fun zero => clean ((rest_suffix s base).subset zero)
  unfold strictStrtoul
  rw [simpleStrtoul_eq]
  dsimp only
  generalize rest s base = tail at *
  generalize total s base % 2 ^ 64 = value
  by_cases none : s.length = tail.length
  · have refused : ¬ (s.length ≠ tail.length ∧ Ending tail) := fun both => both.1 none
    rw [if_neg refused, if_pos (show s.length - tail.length = 0 by omega)]
    split <;> rfl
  have accepted : tail.getD 0 0 = 0 ∨ s.length = s.length - tail.length + 1 ∧ tail.getD 0 0 = '\n'.toUInt8 ↔
      Ending tail := by
    unfold Ending
    match tail with
    | [] => simp
    | [c] =>
      have char : c ≠ 0 := fun zero => left (zero ▸ List.mem_singleton_self c)
      have long : s.length = s.length - 1 + 1 := by
        rw [List.length_singleton] at shorter
        omega
      simp [char, ← long]
    | c :: d :: more =>
      have char : c ≠ 0 := fun zero => left (zero ▸ List.mem_cons_self)
      rw [List.length_cons, List.length_cons] at shorter
      refine iff_of_false ?_ (by simp)
      simp only [List.getD_cons_zero, char, false_or, List.length_cons]
      omega
  rw [if_neg (by omega), if_neg (by omega)]
  simp only [accepted, ne_eq, none, not_false_eq_true, true_and]

/-- A `0x` and no digit. -/
def PrefixOnly (base : Nat) (s : List UInt8) : Prop :=
  base = 16 ∧ ∃ x tail, IsX x ∧ Ending tail ∧ s = '0'.toUInt8 :: x :: tail

private theorem hex_small (c : UInt8) : digitValue c < 16 ∨ isXdigit c = false := by
  have all : ∀ n < 256, digitValue (UInt8.ofNat n) < 16 ∨ isXdigit (UInt8.ofNat n) = false := by decide +kernel
  have byte := all c.toNat c.toNat_lt
  rwa [UInt8.ofNat_toNat] at byte

private theorem fixup_prefixOnly (letter : IsX x) :
    parseIntegerFixupRadix ('0'.toUInt8 :: x :: tail) 16 = (tail, 16) := by
  simp [parseIntegerFixupRadix, toLower_x.mpr letter]

private theorem run_prefixOnly (bare : PrefixOnly base s) : run s base = [] := by
  obtain ⟨rfl, x, tail, letter, ending, rfl⟩ := bare
  rw [run, fixup_prefixOnly letter]
  rcases ending with rfl | rfl <;> rfl

/-- Something is taken that is no digit: this is a `0x`, with the base 16 given. -/
theorem prefixOnly_iff (none : run s base = []) :
    s.length ≠ (rest s base).length ∧ Ending (rest s base) ↔ PrefixOnly base s := by
  have whole := run_append_rest s base
  rw [none, List.nil_append] at whole
  constructor
  · rintro ⟨taken, ending⟩
    rcases fixup_cases s base with ⟨x, text, shape, letter, permitted, fixed⟩ | ⟨-, fixed⟩ | ⟨-, -, fixed⟩ |
      ⟨-, -, fixed⟩
    · rw [whole, fixed] at ending
      refine ⟨permitted.resolve_left fun detected => ?_, x, text, letter, ending, shape⟩
      rw [run, fixed] at none
      cases text with
      | nil => exact absurd detected.2 (by decide)
      | cons c text =>
        have hex : isXdigit c = true := detected.2
        have digit : isDigitIn 16 c = true := isDigitIn_iff.mpr ⟨hex, (hex_small c).resolve_right (by simp [hex])⟩
        rw [List.takeWhile_cons_of_pos digit] at none
        cases none
    all_goals
      rw [whole, fixed] at taken
      exact absurd rfl taken
  · rintro ⟨rfl, x, tail, letter, ending, rfl⟩
    rw [whole, fixup_prefixOnly letter]
    refine ⟨?_, ending⟩
    dsimp only
    rw [List.length_cons, List.length_cons]
    omega

/-- A number is read if it fits 64 bits, and everything else refused. -/
def Strict (s : List UInt8) (base : Nat) : Prop :=
  (∀ value < 2 ^ 64, Number base s value → strictStrtoul s base = (0, value)) ∧
    ((¬ ∃ value < 2 ^ 64, Number base s value) → strictStrtoul s base = (-einval, 0))

/-- `strict_strtoul` is strict except for numbers that do not fit and for a bare `0x`. -/
theorem strict_strtoul_iff (s : List UInt8) (base : Nat) (clean : 0 ∉ s) :
    Strict s base ↔ (∀ value, Number base s value → value < 2 ^ 64) ∧ ¬ PrefixOnly base s := by
  unfold Strict
  simp only [number_iff]
  rw [strictStrtoul_eq clean]
  by_cases number : run s base ≠ [] ∧ Ending (rest s base)
  · have bare : ¬ PrefixOnly base s := fun bare => number.1 (run_prefixOnly bare)
    have taken : s.length ≠ (rest s base).length := (Nat.ne_of_lt (rest_shorter number.1)).symm
    rw [if_pos ⟨taken, number.2⟩]
    constructor
    · rintro ⟨-, refused⟩
      refine ⟨?_, bare⟩
      rintro value ⟨-, -, rfl⟩
      by_contra large
      have none : ¬ ∃ value < 2 ^ 64, run s base ≠ [] ∧ Ending (rest s base) ∧ value = total s base := by
        rintro ⟨value, small, -, -, rfl⟩
        exact large small
      exact absurd (congrArg Prod.fst (refused none)) (show ¬ (0 : Int) = -einval by decide)
    · rintro ⟨fits, -⟩
      have small := fits _ ⟨number.1, number.2, rfl⟩
      refine ⟨?_, fun none => absurd ⟨_, small, number.1, number.2, rfl⟩ none⟩
      rintro value - ⟨-, -, rfl⟩
      rw [Nat.mod_eq_of_lt small]
  · have none : ∀ value, ¬ (run s base ≠ [] ∧ Ending (rest s base) ∧ value = total s base) :=
      fun value found => number ⟨found.1, found.2.1⟩
    have accepted : s.length ≠ (rest s base).length ∧ Ending (rest s base) ↔ PrefixOnly base s := by
      by_cases digits : run s base = []
      · exact prefixOnly_iff digits
      · exact iff_of_false (fun both => number ⟨digits, both.2⟩) fun bare => digits (run_prefixOnly bare)
    simp only [none, and_false, exists_false, not_false_eq_true, true_implies, false_implies, implies_true, true_and]
    rw [← accepted]
    constructor
    · intro refused taken
      rw [if_pos taken] at refused
      exact absurd (congrArg Prod.fst refused) (show ¬ (0 : Int) = -einval by decide)
    · intro refused
      rw [if_neg refused]

theorem strict_strtoul_newline : strictStrtoul [0x30, 0x78, 0x31, 0x66, 0x0a] 0 = (0, 31) := by
  have number : Number 0 [0x30, 0x78, 0x31, 0x66, 0x0a] 31 :=
    ⟨[0x30, 0x78, 0x31, 0x66], [0x0a], 16, [0x31, 0x66], rfl, .inr rfl, .hexadecimal (.inl rfl) (.inl rfl),
      [1, 15], by decide, by decide, by decide, by decide⟩
  refine ((strict_strtoul_iff [0x30, 0x78, 0x31, 0x66, 0x0a] 0 (by decide)).mpr ⟨?_, ?_⟩).1 31 (by decide) number
  · intro value found
    rw [number_iff] at found
    rw [found.2.2]
    decide
  · rintro ⟨given, -⟩
    cases given

/-- A bare `0x` is accepted as zero, and so is the number 2⁶⁴. -/
theorem strict_strtoul_bare :
    strictStrtoul [0x30, 0x78] 16 = (0, 0) ∧ ¬ Strict [0x30, 0x78] 16 ∧
      strictStrtoul [0x31, 0x38, 0x34, 0x34, 0x36, 0x37, 0x34, 0x34, 0x30, 0x37, 0x33, 0x37, 0x30, 0x39, 0x35, 0x35,
        0x31, 0x36, 0x31, 0x36] 10 = (0, 0) := by
  refine ⟨by decide, fun strict => ?_, by decide⟩
  have none : ¬ ∃ value < 2 ^ 64, Number 16 [0x30, 0x78] value := by
    rintro ⟨value, -, found⟩
    rw [number_iff] at found
    exact absurd (show run [0x30, 0x78] 16 = [] by decide) found.1
  exact absurd (strict.2 none) (by decide)

/-! ## Trailing numbers -/

/-- The number some decimal digits stand for. -/
def decimalValue (digits : List UInt8) : Nat := valueIn 10 (digits.map fun c => c.toNat - 48)

private theorem isDigitIn_ten (c : UInt8) : isDigitIn 10 c = isDigit c := by
  have all : ∀ n < 256, isDigitIn 10 (UInt8.ofNat n) = isDigit (UInt8.ofNat n) := by decide +kernel
  have byte := all c.toNat c.toNat_lt
  rwa [UInt8.ofNat_toNat] at byte

private theorem decimal_scan (text : List UInt8) :
    (simpleStrtoul text 10).1 = decimalValue (text.takeWhile isDigit) % 2 ^ 64 := by
  have same : isDigitIn 10 = isDigit := funext isDigitIn_ten
  have fixed : parseIntegerFixupRadix text 10 = (text, 10) := by simp [parseIntegerFixupRadix]
  have values : (text.takeWhile isDigit).map digitValue = (text.takeWhile isDigit).map fun c => c.toNat - 48 := by
    refine List.map_congr_left fun c member => ?_
    rw [digitValue, if_pos (List.mem_takeWhile_imp member)]
  rw [simpleStrtoul_eq, total, run, fixed]
  dsimp only
  rw [same, values]
  rfl

/-- The loop goes back over digits, and gives up at the first character. -/
theorem trailingLoop_digits (digits : ∀ i, start < i → i ≤ p → isDigit (str.getD i 0) = true) (low : start ≤ p) :
    trailingLoop str p = trailingLoop str start := by
  induction p with
  | zero => rw [Nat.le_zero.mp low]
  | succ p ih =>
    by_cases here : start = p + 1
    · rw [here]
    · rw [trailingLoop, digits (p + 1) (by omega) (Nat.le_refl _),
        ih (fun i above below => digits i above (by omega)) (by omega)]
      rfl

/-- The digits in front of `end` are read together with those behind it, unless the
string starts with the character before them. -/
theorem trailing_eq (before : str.take (fin.getD str.length) = front ++ c :: digits)
    (inside : fin.getD str.length ≤ str.length) (other : isDigit c = false) (all : ∀ d ∈ digits, isDigit d = true)
    (nonempty : digits ≠ []) :
    trailingStrtoln str fin = some (if front = [] then -1
      else ((decimalValue (digits ++ (str.drop (fin.getD str.length)).takeWhile isDigit) % 2 ^ 64 : Nat) : Int).bmod
        (2 ^ 64)) := by
  unfold trailingStrtoln
  dsimp only
  generalize fin.getD str.length = stop at *
  generalize following : str.drop stop = behind
  have positive := List.length_pos_iff.mpr nonempty
  have length : stop = front.length + 1 + digits.length := by
    have taken := congrArg List.length before
    rw [List.length_take, Nat.min_eq_left inside, List.length_append, List.length_cons] at taken
    omega
  have whole : str = front ++ c :: (digits ++ behind) := by
    rw [← List.take_append_drop stop str, before, following, List.append_assoc, List.cons_append]
  have digit (i : Nat) (above : front.length < i) (below : i < stop) : isDigit (str.getD i 0) = true := by
    obtain ⟨j, rfl⟩ : ∃ j, i = front.length + (j + 1) := ⟨i - front.length - 1, by omega⟩
    have place : str.getD (front.length + (j + 1)) 0 = digits.getD j 0 := by
      rw [whole, List.getD_append_right _ _ _ _ (by omega), Nat.add_sub_cancel_left, List.getD_cons_succ,
        List.getD_append _ _ _ _ (by omega)]
    rw [place, List.getD_eq_getElem _ _ (by omega)]
    exact all _ (List.getElem_mem _)
  have back : trailingLoop str (stop - 1) = trailingLoop str front.length :=
    trailingLoop_digits (fun i above below => digit i above (by omega)) (by omega)
  rw [if_neg (by omega), digit (stop - 1) (by omega) (by omega), if_pos rfl, back]
  congr 1
  by_cases first : front = []
  · rw [if_pos first, first]
    rfl
  · obtain ⟨n, number⟩ : ∃ n, front.length = n + 1 := ⟨front.length - 1, by have := List.length_pos_iff.mpr first; omega⟩
    have char : str.getD (n + 1) 0 = c := by
      rw [whole, ← number, List.getD_append_right _ _ _ _ (Nat.le_refl _), Nat.sub_self, List.getD_cons_zero]
    have left : str.drop (n + 2) = digits ++ behind := by
      rw [whole, show n + 2 = front.length + 1 by omega, ← List.drop_drop, List.drop_left]
      rfl
    rw [if_neg first, number, trailingLoop, char, other, if_pos Bool.not_false, left, decimal_scan,
      List.takeWhile_append_of_pos all]

/-- The number at the end is read unless only the first character of the string is in
front of it; digits that follow behind `end` are read along with it. Where none follow,
the result depends on nothing behind `end`. -/
theorem trailing_number_iff (str : List UInt8) (fin : Option Nat) (front digits : List UInt8) (c : UInt8)
    (inside : fin.getD str.length ≤ str.length) (before : str.take (fin.getD str.length) = front ++ c :: digits)
    (other : isDigit c = false) (all : ∀ d ∈ digits, isDigit d = true) (nonempty : digits ≠ [])
    (small : decimalValue digits < 2 ^ 63) :
    (trailingStrtoln str fin = some (decimalValue digits : Int) ↔
      front ≠ [] ∧
        decimalValue (digits ++ (str.drop (fin.getD str.length)).takeWhile isDigit) % 2 ^ 64 = decimalValue digits) ∧
      (isDigit (str.getD (fin.getD str.length) 0) = false →
        trailingStrtoln str fin = some (if front = [] then -1 else (decimalValue digits : Int))) := by
  have value {number : Nat} : ((number % 2 ^ 64 : Nat) : Int).bmod (2 ^ 64) = decimalValue digits ↔
      number % 2 ^ 64 = decimalValue digits := by
    rw [Int.bmod_def]
    omega
  rw [trailing_eq before inside other all nonempty]
  constructor
  · by_cases first : front = []
    · rw [if_pos first]
      refine iff_of_false (fun same => ?_) (fun both => both.1 first)
      have negative : (-1 : Int) = decimalValue digits := Option.some.inj same
      omega
    · rw [if_neg first, Option.some.injEq, value]
      exact ⟨fun same => ⟨first, same⟩, And.right⟩
  · intro stops
    have none : (str.drop (fin.getD str.length)).takeWhile isDigit = [] := by
      cases behind : str.drop (fin.getD str.length) with
      | nil => rfl
      | cons d behind' =>
        have place : str.getD (fin.getD str.length) 0 = d := by
          rw [List.getD_eq_getElem?_getD, ← List.head?_drop, behind]
          rfl
        rw [place] at stops
        exact List.takeWhile_cons_of_neg (by simp [stops])
    rw [none, List.append_nil, value.mpr (Nat.mod_eq_of_lt (by omega))]

theorem trailing_number_mmc : trailingStrtoln [0x6d, 0x6d, 0x63, 0x31, 0x32, 0x2e] (some 5) = some 12 :=
  ((trailing_number_iff [0x6d, 0x6d, 0x63, 0x31, 0x32, 0x2e] (some 5) [0x6d, 0x6d] [0x31, 0x32] 0x63 (by decide)
    (by decide) (by decide) (List.all_eq_true.mp rfl) (by decide) (by decide)).1).mpr (by decide)

/-- A number behind the first character is not found, and digits behind `end` are read. -/
theorem trailing_number_first :
    trailingStrtoln [0x61, 0x31] none = some (-1) ∧ trailingStrtoln [0x61, 0x62, 0x31, 0x32] (some 3) = some 12 := by
  decide

end RockOs.ParsedNumbers
