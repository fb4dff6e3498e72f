import Mathlib.Data.List.TakeWhile
import Mathlib.Data.Nat.Digits.Lemmas
import RockOs.Strto
import RockOs.VsprintfText

/-! Numbers as they are printed and as they are read back. `put_dec` and the mask
loop of `number` both produce the digits of the number, and the loop of
`simple_strtoull` adds them up again. -/
namespace RockOs.PrintedNumbers
open Ctype Strto Vsprintf VsprintfText

/-- The multiplications of `put_dec_trunc` and `put_dec_full` divide by ten. -/
theorem div_ten_eleven (small : x < 1024) : (x * 0xcd) >>> 11 = x / 10 := by
  rw [Nat.shiftRight_eq_div_pow]
  omega

theorem div_ten_seven (small : x < 69) : (x * 0xd) >>> 7 = x / 10 := by
  rw [Nat.shiftRight_eq_div_pow]
  omega

/-- The quotients of `q` by powers of ten, from its four hexadecimal digits: each is
what the code carries plus a multiple of ten. -/
theorem putDec_quotients (small : a + 16 * b + 256 * c + 4096 * d < 100000) (a_digit : a < 16) (b_digit : b < 16)
    (c_digit : c < 16) (q_eq : q = a + 16 * b + 256 * c + 4096 * d) (d0_eq : d0 = 6 * (d + c + b) + a)
    (d1_eq : d1 = d0 / 10 + 9 * d + 5 * c + b) (d2_eq : d2 = d1 / 10 + 2 * c) (d3_eq : d3 = d2 / 10 + 4 * d) :
    (d0 < 1024 ∧ d1 < 1024 ∧ d2 < 69 ∧ d3 < 1024) ∧ q = d0 + 10 * (b + 25 * c + 409 * d) ∧
      q / 10 = d1 + 10 * (2 * c + 40 * d) ∧ q / 10 / 10 = d2 + 10 * (4 * d) ∧ q / 10 / 10 / 10 = d3 := by
  have units : q = d0 + 10 * (b + 25 * c + 409 * d) := by omega
  have tens : q / 10 = d1 + 10 * (2 * c + 40 * d) := by omega
  have hundreds : q / 10 / 10 = d2 + 10 * (4 * d) := by omega
  have thousands : q / 10 / 10 / 10 = d3 := by omega
  refine ⟨⟨by omega, by omega, by omega, by omega⟩, units, tens, hundreds, thousands⟩

/-- The digits the code computes, and when it takes the rest of the digits to be
zero. -/
theorem putDec_digits (small : a + 16 * b + 256 * c + 4096 * d < 100000) (a_digit : a < 16) (b_digit : b < 16)
    (c_digit : c < 16) (q_eq : q = a + 16 * b + 256 * c + 4096 * d) (d0_eq : d0 = 6 * (d + c + b) + a)
    (d1_eq : d1 = d0 / 10 + 9 * d + 5 * c + b) (d2_eq : d2 = d1 / 10 + 2 * c) (d3_eq : d3 = d2 / 10 + 4 * d) :
    (d0 - 10 * (d0 / 10) = q % 10 ∧ d1 - 10 * (d1 / 10) = q / 10 % 10 ∧
      d2 - 10 * (d2 / 10) = q / 10 / 10 % 10 ∧ d3 - 10 * (d3 / 10) = q / 10 / 10 / 10 % 10 ∧
        d3 / 10 = q / 10 / 10 / 10 / 10 ∧ q / 10 / 10 / 10 / 10 < 10) ∧
      (d1 ≠ 0 ↔ q / 10 ≠ 0) ∧ (d2 ≠ 0 ∨ d ≠ 0 ↔ q / 10 / 10 ≠ 0) ∧ (d3 ≠ 0 ↔ q / 10 / 10 / 10 ≠ 0) := by
  obtain ⟨-, units, tens, hundreds, thousands⟩ :=
    putDec_quotients small a_digit b_digit c_digit q_eq d0_eq d1_eq d2_eq d3_eq
  clear d0_eq d1_eq d2_eq d3_eq
  refine ⟨⟨by omega, by omega, by omega, by omega, by omega, by omega⟩, by omega, by omega, by omega⟩

/-- The decimal digits of `q`, least significant first, as many as asked for. -/
def decimals : (count q : Nat) → List UInt8
  | 0, _ => []
  | count + 1, q => digitChar (q % 10) :: decimals count (q / 10)

/-- The four parts the code takes `q` apart into, the first three of them hexadecimal
digits. -/
theorem hexadecimal_parts (q : Nat) : ∃ a b c d,
    (q &&& 0xf = a ∧ q >>> 4 &&& 0xf = b ∧ q >>> 8 &&& 0xf = c ∧ q >>> 12 = d) ∧ (a < 16 ∧ b < 16 ∧ c < 16) ∧
      q = a + 16 * b + 256 * c + 4096 * d := by
  have low (x : Nat) : x &&& 0xf = x % 16 := Nat.and_two_pow_sub_one_eq_mod x 4
  refine ⟨_, _, _, _, ⟨rfl, rfl, rfl, rfl⟩, ?_⟩
  simp only [low, Nat.shiftRight_eq_div_pow]
  omega

private theorem putDecFull_eq (small : q < 100000) : putDecFull q = decimals 5 q := by
  obtain ⟨a, b, c, d, ⟨a_eq, b_eq, c_eq, d_eq⟩, ⟨a_digit, b_digit, c_digit⟩, split⟩ := hexadecimal_parts q
  have small' := small
  rw [split] at small'
  unfold putDecFull
  rw [a_eq, b_eq, c_eq, d_eq]
  obtain ⟨⟨d0_small, d1_small, d2_small, d3_small⟩, -⟩ :=
    putDec_quotients small' a_digit b_digit c_digit split rfl rfl rfl rfl
  obtain ⟨⟨d0_eq, d1_eq, d2_eq, d3_eq, d4_eq, d4_small⟩, -⟩ :=
    putDec_digits small' a_digit b_digit c_digit split rfl rfl rfl rfl
  rw [d4_eq] at d3_eq
  simp only [decimals, div_ten_eleven d0_small, div_ten_eleven d1_small, div_ten_seven d2_small,
    div_ten_eleven d3_small, d0_eq, d1_eq, d2_eq, d3_eq, d4_eq, Nat.mod_eq_of_lt d4_small]

theorem digits_step (positive : q ≠ 0) :
    (Nat.digits 10 q).map digitChar = digitChar (q % 10) :: (Nat.digits 10 (q / 10)).map digitChar := by
  rw [Nat.digits_def' (by decide) (Nat.pos_of_ne_zero positive), List.map_cons]

private theorem putDecTrunc_eq (small : q < 100000) (positive : q ≠ 0) :
    putDecTrunc q = (Nat.digits 10 q).map digitChar := by
  obtain ⟨a, b, c, d, ⟨a_eq, b_eq, c_eq, d_eq⟩, ⟨a_digit, b_digit, c_digit⟩, split⟩ := hexadecimal_parts q
  have small' := small
  rw [split] at small'
  unfold putDecTrunc
  rw [a_eq, b_eq, c_eq, d_eq]
  obtain ⟨⟨d0_small, d1_small, d2_small, d3_small⟩, -⟩ :=
    putDec_quotients small' a_digit b_digit c_digit split rfl rfl rfl rfl
  obtain ⟨⟨d0_eq, d1_eq, d2_eq, d3_eq, d4_eq, d4_small⟩, more1, more2, more3⟩ :=
    putDec_digits small' a_digit b_digit c_digit split rfl rfl rfl rfl
  rw [d4_eq] at d3_eq
  simp only [div_ten_eleven d0_small, div_ten_eleven d1_small, div_ten_seven d2_small,
    div_ten_eleven d3_small, d0_eq, d1_eq, d2_eq, d3_eq, d4_eq, more1, more2, more3]
  rw [digits_step positive]
  by_cases tens : q / 10 = 0
  · simp [tens]
  rw [if_pos tens, digits_step tens]
  by_cases hundreds : q / 10 / 10 = 0
  · simp [hundreds]
  rw [if_pos hundreds, digits_step hundreds]
  by_cases thousands : q / 10 / 10 / 10 = 0
  · simp [thousands]
  rw [if_pos thousands, digits_step thousands]
  by_cases rest : q / 10 / 10 / 10 / 10 = 0
  · simp [rest]
  rw [if_pos rest, Nat.digits_of_lt 10 _ rest d4_small]
  rfl

/-- The low digits are those of the remainder. -/
theorem decimals_mod (count num : Nat) : decimals count (num % 10 ^ count) = decimals count num := by
  induction count generalizing num with
  | zero => rfl
  | succ count ih =>
    have digit : num % 10 ^ (count + 1) % 10 = num % 10 := Nat.mod_mod_of_dvd num (Dvd.intro_left (10 ^ count) rfl)
    have rest : num % 10 ^ (count + 1) / 10 = num / 10 % 10 ^ count := by
      rw [Nat.pow_succ', Nat.mod_mul_right_div_self]
    rw [decimals, decimals, digit, rest, ih]

/-- The other digits are those of the quotient. -/
theorem digits_append (count : Nat) (more : num / 10 ^ count ≠ 0) :
    (Nat.digits 10 num).map digitChar = decimals count num ++ (Nat.digits 10 (num / 10 ^ count)).map digitChar := by
  induction count generalizing num with
  | zero => rw [Nat.pow_zero, Nat.div_one, decimals, List.nil_append]
  | succ count ih =>
    have shorter : num / 10 ^ (count + 1) = num / 10 / 10 ^ count := by rw [Nat.pow_succ', Nat.div_div_eq_div_mul]
    have positive : num ≠ 0 := by
      rintro rfl
      exact more (Nat.zero_div _)
    rw [shorter] at more ⊢
    rw [digits_step positive, ih more, decimals, List.cons_append]

/-- The loop of `put_dec` produces the decimal digits. -/
theorem putDecLoop_eq (small : num < 100000 ^ (turns + 1)) (positive : num ≠ 0) :
    putDecLoop turns num = (Nat.digits 10 num).map digitChar := by
  induction turns generalizing num with
  | zero => exact putDecTrunc_eq small positive
  | succ turns ih =>
    unfold putDecLoop
    by_cases last : num < 100000
    · rw [if_pos last]
      exact putDecTrunc_eq last positive
    have quotient : num / 100000 < 100000 ^ (turns + 1) := by
      rw [Nat.div_lt_iff_lt_mul (by decide), ← Nat.pow_succ]
      exact small
    have more : num / 10 ^ 5 ≠ 0 := by omega
    have chunk : decimals 5 (num % 100000) = decimals 5 num := decimals_mod 5 num
    rw [if_neg last, putDecFull_eq (Nat.mod_lt _ (by decide)), ih quotient more, chunk]
    exact (digits_append 5 more).symm

/-- The character of a digit, in the case `number` asks for. -/
def digitText (locase : UInt8) (d : Nat) : UInt8 := upperDigit d ||| locase

/-- The mask loop of `number` produces the digits in base `2 ^ shift`. -/
theorem maskLoop_eq (low : 0 < shift) (high : shift ≤ 8) (small : num < 2 ^ (shift * turns)) (positive : num ≠ 0) :
    maskLoop (2 ^ shift - 1) shift locase turns num = (Nat.digits (2 ^ shift) num).map (digitText locase) := by
  have base : 1 < 2 ^ shift := Nat.one_lt_two_pow (by omega)
  induction turns generalizing num with
  | zero =>
    rw [Nat.mul_zero, Nat.pow_zero] at small
    omega
  | succ turns ih =>
    have digit : num % 256 &&& (2 ^ shift - 1) = num % 2 ^ shift := by
      rw [Nat.and_two_pow_sub_one_eq_mod]
      exact Nat.mod_mod_of_dvd _ (Nat.pow_dvd_pow 2 high)
    rw [Nat.digits_def' base (Nat.pos_of_ne_zero positive), List.map_cons, maskLoop, digit,
      Nat.shiftRight_eq_div_pow]
    by_cases last : num / 2 ^ shift = 0
    · simp [last, digitText]
    have quotient : num / 2 ^ shift < 2 ^ (shift * turns) := by
      rw [Nat.div_lt_iff_lt_mul (by omega), ← Nat.pow_add]
      rwa [Nat.mul_succ] at small
    simp only [last, if_false, ih quotient last, digitText]

/-- The digits of a number as they are read, most significant first; zero has one. -/
def digitsOf (base num : Nat) : List Nat := if num = 0 then [0] else (Nat.digits base num).reverse

theorem digitsOf_lt (base_large : 1 < base) (member : d ∈ digitsOf base num) : d < base := by
  unfold digitsOf at member
  split at member
  · rw [List.mem_singleton.mp member]
    omega
  · exact Nat.digits_lt_base base_large (List.mem_reverse.mp member)

private theorem digitsOf_value (base num : Nat) :
    (digitsOf base num).foldl (fun value d => value * base + d) 0 = num := by
  unfold digitsOf
  split
  · next zero => simp [zero]
  · have summed : (Nat.digits base num).foldr (fun d value => value * base + d) 0 = Nat.ofDigits base
      (Nat.digits base num) := by
      rw [Nat.ofDigits_eq_foldr]
      simp [Nat.mul_comm, Nat.add_comm]
    rw [List.foldl_reverse, summed, Nat.ofDigits_digits]

theorem digitsOf_ne_nil (base num : Nat) : digitsOf base num ≠ [] := by
  unfold digitsOf
  split
  · exact List.cons_ne_nil _ _
  · next nonzero => simp [Nat.digits_ne_nil_iff_ne_zero.mpr nonzero]

/-- Only zero starts with the digit zero. -/
theorem digitsOf_head (nonzero : num ≠ 0) : (digitsOf base num).head (digitsOf_ne_nil base num) ≠ 0 := by
  have last := Nat.getLast_digit_ne_zero base nonzero
  simp only [digitsOf, nonzero, if_false, List.head_reverse]
  exact last

theorem digitsOf_length_le (base_large : 1 < base) (positive : 0 < count) (fits : num < base ^ count) :
    (digitsOf base num).length ≤ count := by
  unfold digitsOf
  split
  · exact positive
  · rw [List.length_reverse, Nat.digits_length_le_iff base_large]
    exact fits

theorem digitsOf_length (base_large : 8 ≤ base) (fits : num < 2 ^ 64) : (digitsOf base num).length ≤ 22 := by
  refine digitsOf_length_le (by omega) (by decide) ?_
  calc num < 8 ^ 22 := by omega
    _ ≤ base ^ 22 := Nat.pow_le_pow_left base_large 22

/-- The bases `number` is called with. -/
def Printable (base : Nat) : Prop := base = 8 ∨ base = 10 ∨ base = 16

/-- The two values of `locase`. -/
def Case (locase : UInt8) : Prop := locase = 0 ∨ locase = 0x20

private theorem digitChar_eq (cased : Case locase) (small : d < 10) : digitChar d = digitText locase d := by
  have all : ∀ d < 10, digitChar d = digitText 0 d ∧ digitChar d = digitText 0x20 d := by decide
  rcases cased with rfl | rfl
  · exact (all d small).1
  · exact (all d small).2

theorem numberDigits_eq (printable : Printable base) (cased : Case locase) (fits : num < 2 ^ 64) :
    (numberDigits num base locase).reverse = (digitsOf base num).map (digitText locase) := by
  unfold numberDigits digitsOf
  by_cases zero : num = 0
  · rw [if_pos zero, if_pos zero]
    exact congrArg (fun c => [c]) (digitChar_eq cased (by decide))
  rw [if_neg zero, if_neg zero, List.map_reverse]
  rcases printable with rfl | rfl | rfl
  · exact congrArg List.reverse (maskLoop_eq (show 0 < 3 by decide) (by decide) (by omega) zero)
  · have chars : (Nat.digits 10 num).map digitChar = (Nat.digits 10 num).map (digitText locase) :=
      List.map_congr_left fun d member => digitChar_eq cased (Nat.digits_lt_base (by decide) member)
    rw [if_neg (by decide), putDec, putDecLoop_eq (by omega) zero, chars]
  · exact congrArg List.reverse (maskLoop_eq (show 0 < 4 by decide) (by decide) (by omega) zero)

private theorem digitText_read (cased : Case locase) (small : d < 16) :
    isXdigit (digitText locase d) ∧ digitValue (digitText locase d) = d ∧
      toLower (digitText locase d) ≠ 'x'.toUInt8 ∧ (digitText locase d = '0'.toUInt8 → d = 0) ∧
        digitText locase d ≠ '-'.toUInt8 := by
  revert d
  rcases cased with rfl | rfl <;> decide

private theorem foldl_modEq (ds : List Nat) (same : first ≡ second [MOD modulus]) :
    ds.foldl (fun value d => value * base + d) first ≡ ds.foldl (fun value d => value * base + d) second
      [MOD modulus] := by
  induction ds generalizing first second with
  | nil => exact same
  | cons d ds ih => exact ih ((same.mul_right base).add_right d)

/-- What the loop takes for a digit. -/
def isDigitIn (base : Nat) (c : UInt8) : Bool := isXdigit c && decide (digitValue c < base)

/-- The loop takes the digits at the start of the text and adds them up. -/
theorem strtoLoop_eq (base : Nat) (cp : List UInt8) (result_word : result < 2 ^ 64) :
    strtoLoop base cp result =
      (((cp.takeWhile (isDigitIn base)).map digitValue).foldl (fun value d => value * base + d) result % 2 ^ 64,
        cp.dropWhile (isDigitIn base)) := by
  induction cp generalizing result with
  | nil => rw [strtoLoop, List.takeWhile_nil, List.map_nil, List.foldl_nil, List.dropWhile_nil,
      Nat.mod_eq_of_lt result_word]
  | cons c cp ih =>
    rw [strtoLoop]
    by_cases digit : isXdigit c ∧ digitValue c < base
    · have taken : isDigitIn base c = true := by simpa [isDigitIn] using digit
      rw [if_pos digit, ih (Nat.mod_lt _ (by decide)), List.takeWhile_cons_of_pos taken,
        List.dropWhile_cons_of_pos taken,
        List.map_cons, List.foldl_cons, foldl_modEq _ (Nat.mod_modEq (result * base + digitValue c) (2 ^ 64))]
    · have other : ¬ isDigitIn base c = true := by simpa [isDigitIn] using digit
      rw [if_neg digit, List.takeWhile_cons_of_neg other, List.dropWhile_cons_of_neg other, List.map_nil, List.foldl_nil,
        Nat.mod_eq_of_lt result_word]

/-- Reading digits back adds them up and takes the whole text. -/
theorem strtoLoop_digits {ds : List Nat} (cased : Case locase) (base_small : base ≤ 16) (digits : ∀ d ∈ ds, d < base)
    (result_word : result < 2 ^ 64) :
    strtoLoop base (ds.map (digitText locase)) result =
      (ds.foldl (fun value d => value * base + d) result % 2 ^ 64, []) := by
  have read : ∀ d ∈ ds, isDigitIn base (digitText locase d) ∧ digitValue (digitText locase d) = d := by
    intro d member
    have digit := digits d member
    obtain ⟨hex, value, -⟩ := digitText_read cased (show d < 16 by omega)
    exact ⟨by simp [isDigitIn, hex, value, digit], value⟩
  have all : ∀ c ∈ ds.map (digitText locase), isDigitIn base c := by
    intro c member
    obtain ⟨d, inside, rfl⟩ := List.mem_map.mp member
    exact (read d inside).1
  have values : (ds.map (digitText locase)).map digitValue = ds := by
    rw [List.map_map]
    exact (List.map_congr_left fun d member => (read d member).2).trans (List.map_id ds)
  rw [strtoLoop_eq base _ result_word, List.takeWhile_eq_self_iff.mpr all, List.dropWhile_eq_nil_iff.mpr all, values]

/-- No `0x` is recognised in digits: what follows the first is not an `x`. -/
theorem second_digit {ds : List Nat} (cased : Case locase) (digits : ∀ d ∈ ds, d < 16) (i : Nat) :
    toLower ((ds.map (digitText locase)).getD i 0) ≠ 'x'.toUInt8 := by
  by_cases inside : i < ds.length
  · rw [List.getD_eq_getElem _ _ (by simpa using inside), List.getElem_map]
    exact (digitText_read cased (digits _ (List.getElem_mem inside))).2.2.1
  · rw [List.getD_eq_default _ _ (by simpa using inside)]
    decide

private theorem fixup_digits {ds : List Nat} (cased : Case locase) (base_small : base ≤ 16) (given : base ≠ 0)
    (digits : ∀ d ∈ ds, d < base) :
    parseIntegerFixupRadix (ds.map (digitText locase)) base = (ds.map (digitText locase), base) := by
  have second := second_digit cased (fun d member => Nat.lt_of_lt_of_le (digits d member) base_small) 1
  simp only [parseIntegerFixupRadix, given, if_false, second, and_false]

/-- Where the base is not given, digits that start with a zero are octal and others
decimal. -/
theorem fixup_detect {ds : List Nat} (cased : Case locase) (digits : ∀ d ∈ ds, d < 16) (head : ds.head? = some d) :
    parseIntegerFixupRadix (ds.map (digitText locase)) 0 =
      (ds.map (digitText locase), if d = 0 then 8 else 10) := by
  have second := second_digit cased digits 1
  have small : d < 16 := digits d (List.mem_of_mem_head? head)
  have first : (ds.map (digitText locase)).getD 0 0 = digitText locase d := by
    cases ds with
    | nil => cases head
    | cons _ ds =>
      cases head
      rfl
  have zero : digitText locase d = '0'.toUInt8 ↔ d = 0 := by
    refine ⟨(digitText_read cased small).2.2.2.1, fun is_zero => ?_⟩
    rw [is_zero]
    rcases cased with rfl | rfl <;> decide
  by_cases is_zero : d = 0
  · subst is_zero
    simp only [parseIntegerFixupRadix, if_true, first, zero.mpr rfl, second, false_and, and_false, if_false]
  · simp only [parseIntegerFixupRadix, if_true, first, zero, is_zero, if_false, false_and, and_false]

private theorem strtoull_digits (printable : Printable base) (cased : Case locase) (fits : num < 2 ^ 64) :
    simpleStrtoull ((digitsOf base num).map (digitText locase)) base = (num, []) := by
  have base_large : 1 < base := by rcases printable with rfl | rfl | rfl <;> decide
  have base_small : base ≤ 16 := by rcases printable with rfl | rfl | rfl <;> decide
  have digits : ∀ d ∈ digitsOf base num, d < base := fun d member => digitsOf_lt base_large member
  rw [simpleStrtoull, fixup_digits cased base_small (by omega) digits]
  dsimp only
  rw [strtoLoop_digits cased base_small digits (by decide), digitsOf_value, Nat.mod_eq_of_lt fits]

/-- Where the base is left open, the octal digits may follow a zero and the
hexadecimal ones a `0x` or `0X`. -/
theorem strtoull_octal (cased : Case locase) (fits : num < 2 ^ 64) :
    simpleStrtoull ('0'.toUInt8 :: (digitsOf 8 num).map (digitText locase)) 0 = (num, []) := by
  have zero : '0'.toUInt8 = digitText locase 0 := by rcases cased with rfl | rfl <;> decide
  have digits : ∀ d ∈ 0 :: digitsOf 8 num, d < 8 := by
    intro d member
    rcases List.mem_cons.mp member with rfl | member
    · decide
    · exact digitsOf_lt (by decide) member
  have detected := fixup_detect cased (fun d member => Nat.lt_trans (digits d member) (by decide))
    (show (0 :: digitsOf 8 num).head? = some 0 from rfl)
  rw [zero, ← List.map_cons, simpleStrtoull, detected]
  dsimp only
  rw [if_pos rfl, strtoLoop_digits cased (by decide) digits (by decide), List.foldl_cons, Nat.zero_mul, Nat.zero_add,
    digitsOf_value, Nat.mod_eq_of_lt fits]

private theorem strtoull_hexadecimal (cased : Case locase) (fits : num < 2 ^ 64) :
    simpleStrtoull ('0'.toUInt8 :: ('X'.toUInt8 ||| locase) :: (digitsOf 16 num).map (digitText locase)) 0 =
      (num, []) := by
  have digits : ∀ d ∈ digitsOf 16 num, d < 16 := fun d member => digitsOf_lt (by decide) member
  have letter : toLower ('X'.toUInt8 ||| locase) = 'x'.toUInt8 := by
    rcases cased with rfl | rfl <;> decide
  have third : isXdigit (((digitsOf 16 num).map (digitText locase)).getD 0 0) := by
    cases parts : digitsOf 16 num with
    | nil => exact absurd parts (digitsOf_ne_nil 16 num)
    | cons d ds => exact (digitText_read cased (digits d (by simp [parts]))).1
  simp only [simpleStrtoull, parseIntegerFixupRadix, if_true, List.getD_cons_zero, List.getD_cons_succ, letter, third,
    and_self, List.drop_succ_cons, List.drop_zero]
  rw [strtoLoop_digits cased (by decide) digits (by decide), digitsOf_value, Nat.mod_eq_of_lt fits]

private theorem strtoull_decimal (cased : Case locase) (fits : num < 2 ^ 64) :
    simpleStrtoull ((digitsOf 10 num).map (digitText locase)) 0 = (num, []) := by
  have digits : ∀ d ∈ digitsOf 10 num, d < 10 := fun d member => digitsOf_lt (by decide) member
  have wide : ∀ d ∈ digitsOf 10 num, d < 16 := fun d member => Nat.lt_trans (digits d member) (by decide)
  by_cases zero : num = 0
  · subst zero
    rcases cased with rfl | rfl <;> decide
  · rw [simpleStrtoull, fixup_detect cased wide (List.head?_eq_some_head (digitsOf_ne_nil 10 num))]
    dsimp only
    rw [if_neg (digitsOf_head zero), strtoLoop_digits cased (by decide) digits (by decide), digitsOf_value,
      Nat.mod_eq_of_lt fits]

theorem int32_exact (low : -2 ^ 31 ≤ value) (high : value < 2 ^ 31) : int32 value = value :=
  Int.bmod_eq_of_le (by omega) (by omega)

private theorem downCount_zero (negative : size ≤ 0) (low : -1000 < size) :
    downCount size = 0 ∧ downLeft size = size - 1 := by
  unfold downCount downLeft
  rw [int32_exact (by omega) (by omega), if_neg (by omega), if_neg (by omega)]
  exact ⟨rfl, rfl⟩

private theorem numberRoom_negative (num base : Nat) (type : Flags) (nonnegative : 0 ≤ precision)
    (small : precision ≤ 22) :
    -100 < numberRoom num base (-1) precision type ∧ numberRoom num base (-1) precision type < 0 := by
  have signed : (if numberSign num type ≠ 0 then int32 (-1 - 1) else -1) = -1 ∨
      (if numberSign num type ≠ 0 then int32 (-1 - 1) else -1) = -2 := by
    split
    · exact Or.inr (int32_exact (by decide) (by decide))
    · exact Or.inl rfl
  unfold numberRoom
  generalize (if numberSign num type ≠ 0 then int32 (-1 - 1) else -1) = size at signed
  have once : int32 (size - 1) = size - 1 := int32_exact (by omega) (by omega)
  have twice : int32 (size - 1 - 1) = size - 1 - 1 := int32_exact (by omega) (by omega)
  simp only [once, twice]
  split
  · split
    · rw [int32_exact (by omega) (by omega)]
      omega
    · rw [int32_exact (by omega) (by omega)]
      omega
  · rw [int32_exact (by omega) (by omega)]
    omega

/-- Without a field width and a precision, nothing is padded. -/
theorem numberText_plain (printable : Printable base) (fits : num < 2 ^ 64) (left : type.left = false)
    (zeropad : type.zeropad = false) :
    numberText num base (-1) (-1) type =
      (if numberSign num type ≠ 0 then [numberSign num type] else []) ++
        (if type.special ∧ base ≠ 10 then
          '0'.toUInt8 :: (if base = 16 then ['X'.toUInt8 ||| if type.small then 0x20 else 0] else []) else []) ++
        (digitsOf base (magnitude num type)).map (digitText (if type.small then 0x20 else 0)) := by
  have cased : Case (if type.small then 0x20 else 0) := by
    unfold Case
    split <;> simp
  have small : magnitude num type < 2 ^ 64 := by
    unfold magnitude
    split <;> omega
  have base_large : 8 ≤ base := by rcases printable with rfl | rfl | rfl <;> decide
  have text := numberDigits_eq printable cased small
  have length : (numberDigits (magnitude num type) base (if type.small then 0x20 else 0)).length ≤ 22 := by
    rw [← List.length_reverse, text, List.length_map]
    exact digitsOf_length base_large small
  unfold numberText numberCore
  dsimp only
  rw [left, zeropad, if_neg Bool.false_ne_true, if_neg Bool.false_ne_true, if_pos (by omega)]
  generalize numberDigits (magnitude num type) base (if type.small then 0x20 else 0) = tmp at text length
  obtain ⟨low, negative⟩ := numberRoom_negative num base type
    (show (0 : Int) ≤ tmp.length by omega) (by omega)
  generalize numberRoom num base (-1) tmp.length type = size at low negative
  obtain ⟨none, left⟩ := downCount_zero (show size ≤ 0 by omega) (by omega)
  obtain ⟨none', left'⟩ := downCount_zero (show size - 1 ≤ 0 by omega) (by omega)
  obtain ⟨none'', -⟩ := downCount_zero (show size - 1 - 1 ≤ 0 by omega) (by omega)
  simp only [none, left, none', left', none'', Int.sub_self, Int.toNat_zero, List.replicate_zero, List.nil_append,
    List.append_nil, text]

/-- The output of a format that is one integer conversion. -/
theorem output_number (found : directive fmt [.num bits] = some (.num value base (-1) (-1) type, [], [])) :
    output ('%'.toUInt8 :: fmt) [.num bits] = some (numberText value base (-1) (-1) type) := by
  rw [output_directive found, pieceText, Option.bind_some, output_nil, Option.map_some, List.append_nil]

private theorem numberSign_unsigned (unsigned : type.sign = false) : numberSign num type = 0 := by
  simp [numberSign, unsigned]

private theorem magnitude_unsigned (unsigned : type.sign = false) : magnitude num type = num := by
  simp [magnitude, unsigned]

/-- The text of an unsigned conversion. -/
theorem numberText_unsigned (printable : Printable base) (fits : num < 2 ^ 64) (left : type.left = false)
    (zeropad : type.zeropad = false) (unsigned : type.sign = false) :
    numberText num base (-1) (-1) type =
      (if type.special ∧ base ≠ 10 then
        '0'.toUInt8 :: (if base = 16 then ['X'.toUInt8 ||| if type.small then 0x20 else 0] else []) else []) ++
      (digitsOf base num).map (digitText (if type.small then 0x20 else 0)) := by
  rw [numberText_plain printable fits left zeropad, numberSign_unsigned unsigned, magnitude_unsigned unsigned]
  rfl

/-- A minus sign is read as one. -/
theorem strtol_negative (fits : num < 2 ^ 64) :
    (simpleStrtol ('-'.toUInt8 :: (digitsOf 10 num).map (digitText 0)) 10).1 = (-(num : Int)).bmod (2 ^ 64) := by
  have parsed : simpleStrtoul ((digitsOf 10 num).map (digitText 0)) 10 = (num, []) :=
    strtoull_digits (Or.inr (Or.inl rfl)) (Or.inl rfl) fits
  simp only [simpleStrtol, List.getD_cons_zero, if_true, List.drop_succ_cons, List.drop_zero, parsed]

private theorem strtol_nonnegative (fits : num < 2 ^ 64) :
    (simpleStrtol ((digitsOf 10 num).map (digitText 0)) 10).1 = (num : Int).bmod (2 ^ 64) := by
  have parsed : simpleStrtoul ((digitsOf 10 num).map (digitText 0)) 10 = (num, []) :=
    strtoull_digits (Or.inr (Or.inl rfl)) (Or.inl rfl) fits
  have unsigned : ((digitsOf 10 num).map (digitText 0)).getD 0 0 ≠ '-'.toUInt8 := by
    cases parts : digitsOf 10 num with
    | nil => exact absurd parts (digitsOf_ne_nil 10 num)
    | cons d ds =>
      have digit : d < 10 := digitsOf_lt (by decide) (show d ∈ digitsOf 10 num by simp [parts])
      exact (digitText_read (Or.inl rfl) (show d < 16 by omega)).2.2.2.2
  simp only [simpleStrtol, unsigned, if_false, parsed]

/-- Unsigned formats and the bases their output is read back in. -/
def roundTrips : List (List Char × Nat) :=
  [(['%', 'l', 'l', 'u'], 10), (['%', 'l', 'l', 'x'], 16), (['%', 'l', 'l', 'X'], 16), (['%', 'l', 'l', 'o'], 8),
    (['%', 'l', 'l', 'u'], 0), (['%', '#', 'l', 'l', 'x'], 0), (['%', '#', 'l', 'l', 'X'], 0),
    (['%', '#', 'l', 'l', 'o'], 0)]

private theorem output_unsigned
    (found : directive fmt [.num n] = some (.num (n % 2 ^ 64) base (-1) (-1) type, [], [])) (fits : n < 2 ^ 64)
    (printable : Printable base) (left : type.left = false) (zeropad : type.zeropad = false)
    (unsigned : type.sign = false) :
    output ('%'.toUInt8 :: fmt) [.num n] =
      some ((if type.special ∧ base ≠ 10 then
        '0'.toUInt8 :: (if base = 16 then ['X'.toUInt8 ||| if type.small then 0x20 else 0] else []) else []) ++
      (digitsOf base n).map (digitText (if type.small then 0x20 else 0))) := by
  rw [Nat.mod_eq_of_lt fits] at found
  rw [output_number found, numberText_unsigned printable fits left zeropad unsigned]

private theorem unsigned_round_trip (fits : n < 2 ^ 64) (member : trip ∈ roundTrips) :
    ∃ text, output (ascii trip.1) [.num n] = some text ∧ simpleStrtoull text trip.2 = (n, []) := by
  have eight : Printable 8 := Or.inl rfl
  have ten : Printable 10 := Or.inr (Or.inl rfl)
  have sixteen : Printable 16 := Or.inr (Or.inr rfl)
  have upper : Case 0 := Or.inl rfl
  have lower : Case 0x20 := Or.inr rfl
  simp only [roundTrips, List.mem_cons, List.not_mem_nil, or_false] at member
  rcases member with rfl | rfl | rfl | rfl | rfl | rfl | rfl | rfl
  · exact ⟨_, output_unsigned rfl fits ten rfl rfl rfl, strtoull_digits ten upper fits⟩
  · exact ⟨_, output_unsigned rfl fits sixteen rfl rfl rfl, strtoull_digits sixteen lower fits⟩
  · exact ⟨_, output_unsigned rfl fits sixteen rfl rfl rfl, strtoull_digits sixteen upper fits⟩
  · exact ⟨_, output_unsigned rfl fits eight rfl rfl rfl, strtoull_digits eight upper fits⟩
  · exact ⟨_, output_unsigned rfl fits ten rfl rfl rfl, strtoull_decimal upper fits⟩
  · exact ⟨_, output_unsigned rfl fits sixteen rfl rfl rfl, strtoull_hexadecimal lower fits⟩
  · exact ⟨_, output_unsigned rfl fits sixteen rfl rfl rfl, strtoull_hexadecimal upper fits⟩
  · exact ⟨_, output_unsigned rfl fits eight rfl rfl rfl, strtoull_octal upper fits⟩

private theorem signed_round_trip (fits : n < 2 ^ 64) :
    ∃ text, output (ascii ['%', 'l', 'l', 'd']) [.num n] = some text ∧
      (simpleStrtol text 10).1 = (n : Int).bmod (2 ^ 64) := by
  have found : directive (ascii ['l', 'l', 'd']) [.num n] =
      some (.num (n % 2 ^ 64) 10 (-1) (-1) { sign := true }, [], []) := rfl
  rw [Nat.mod_eq_of_lt fits] at found
  refine ⟨_, output_number found, ?_⟩
  rw [numberText_plain (Or.inr (Or.inl rfl)) fits rfl rfl]
  by_cases negative : 2 ^ 63 ≤ n
  · have sign : numberSign n { sign := true } = '-'.toUInt8 := (if_pos rfl).trans (if_pos negative)
    have value : magnitude n { sign := true } = 2 ^ 64 - n := if_pos ⟨rfl, negative⟩
    have wrapped : (-((2 ^ 64 - n : Nat) : Int)).bmod (2 ^ 64) = (n : Int).bmod (2 ^ 64) := by
      have shifted : (-((2 ^ 64 - n : Nat) : Int)) = (n : Int) - (2 ^ 64 : Nat) := by omega
      rw [shifted, Int.sub_bmod_right]
    rw [sign, value]
    exact (strtol_negative (by omega)).trans wrapped
  · have sign : numberSign n { sign := true } = 0 := (if_pos rfl).trans (if_neg negative)
    have value : magnitude n { sign := true } = n := if_neg fun both => negative both.2
    rw [sign, value]
    exact strtol_nonnegative fits

/-- Parsing undoes printing: what the unsigned formats print of any 64 bit number
is read back whole, in the base given or detected, and so is what `%lld` prints of
any signed one. -/
theorem parsing_undoes_printing (n : UInt64) (v : Int64) :
    (∀ trip ∈ roundTrips, ∃ text,
      output (ascii trip.1) [.num n.toNat] = some text ∧ simpleStrtoull text trip.2 = (n.toNat, [])) ∧
    ∃ text, output (ascii ['%', 'l', 'l', 'd']) [.num v.toUInt64.toNat] = some text ∧
      (simpleStrtol text 10).1 = v.toInt := by
  refine ⟨fun trip member => unsigned_round_trip n.toNat_lt member, ?_⟩
  obtain ⟨text, printed, parsed⟩ := signed_round_trip v.toUInt64.toNat_lt
  refine ⟨text, printed, parsed.trans ?_⟩
  exact (BitVec.toInt_eq_toNat_bmod v.toBitVec).symm

end RockOs.PrintedNumbers
