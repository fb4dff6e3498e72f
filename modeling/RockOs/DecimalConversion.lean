import RockOs.Console
import RockOs.PrintedNumbers

/-! The two decimal conversions of `lib/vsprintf.c`. `put_dec` takes five digits
at a time off a number and divides by ten through multiplications and shifts;
`simple_itoa` divides by ten and fills its static buffer from the end. Both
produce the digits of the number, in opposite orders. -/
namespace RockOs.DecimalConversion
open ByteMemory Console PrintedNumbers Vsprintf

/-! ## The plain conversion -/

/-- The loop of `simple_itoa` with `room` bytes of `local` in front of what is
written, down to the address it returns; `none` is a store in front of `local`. -/
def itoaLoop : (room i : Nat) → Mem → Option (Mem × Nat)
  | 0, _, _ => none
  | room + 1, i, buffer =>
    let buffer := Function.update buffer room (digitChar (i % 10))
    if 0 < i / 10 then itoaLoop room (i / 10) buffer else some (buffer, room)

/-- The string `simple_itoa` returns. The 22 bytes of `local` are static, so they
hold what earlier calls left there. -/
def simpleItoa (buffer : Mem) (i : Nat) : Option (List UInt8) := do
  let (buffer, start) ← itoaLoop 21 i (Function.update buffer 21 0)
  return cString buffer start (22 - start)

/-- The characters of a number, most significant first. -/
def digitChars (num : Nat) : List UInt8 := (digitsOf 10 num).map digitChar

private theorem digitChars_one (last : num / 10 = 0) : digitChars num = [digitChar (num % 10)] := by
  have small : num < 10 := by omega
  rw [Nat.mod_eq_of_lt small, digitChars, digitsOf]
  split
  · next zero => rw [zero, List.map_singleton]
  · next nonzero => rw [Nat.digits_of_lt 10 num nonzero small, List.reverse_singleton, List.map_singleton]

private theorem digitChars_step (more : num / 10 ≠ 0) :
    digitChars num = digitChars (num / 10) ++ [digitChar (num % 10)] := by
  have nonzero : num ≠ 0 := fun zero => more (by rw [zero])
  rw [digitChars, digitChars, digitsOf, digitsOf, if_neg nonzero, if_neg more, List.map_reverse, digits_step nonzero,
    List.reverse_cons, List.map_reverse]

private theorem digitChars_nonzero (num : Nat) : 0 ∉ digitChars num := by
  intro zero
  obtain ⟨d, digit, shown⟩ := List.mem_map.mp zero
  have chars : ∀ d < 10, digitChar d ≠ 0 := by decide
  exact chars d (digitsOf_lt (by decide) digit) shown

private theorem digitChars_length (fits : num < 2 ^ 64) : (digitChars num).length ≤ 20 := by
  rw [digitChars, List.length_map]
  exact digitsOf_length_le (by decide) (by decide) (by omega)

/-- Where the room is enough, the characters of the number end up in front of
what was written, and nothing behind them changes. -/
theorem itoaLoop_spec (enough : (digitChars i).length ≤ room) (buffer : Mem) :
    ∃ buffer' start, itoaLoop room i buffer = some (buffer', start) ∧ start + (digitChars i).length = room ∧
      (∀ k, k < (digitChars i).length → (digitChars i)[k]? = some (buffer' (start + k))) ∧
        ∀ cell, room ≤ cell → buffer' cell = buffer cell := by
  induction room generalizing i buffer with
  | zero =>
    have empty : digitChars i = [] := List.eq_nil_of_length_eq_zero (Nat.le_zero.mp enough)
    exact absurd (List.map_eq_nil_iff.mp empty) (digitsOf_ne_nil 10 i)
  | succ room ih =>
    rw [itoaLoop]
    by_cases last : i / 10 = 0
    · refine ⟨_, _, if_neg (by omega), ?_, fun k inside => ?_, fun cell behind => ?_⟩
      · rw [digitChars_one last, List.length_singleton]
      · rw [digitChars_one last, List.length_singleton] at inside
        obtain rfl : k = 0 := by omega
        rw [digitChars_one last, Nat.add_zero, Function.update_self]
        rfl
      · exact Function.update_of_ne (by omega) _ _
    · have size : (digitChars i).length = (digitChars (i / 10)).length + 1 := by
        rw [digitChars_step last, List.length_append, List.length_singleton]
      obtain ⟨buffer', start, ran, place, chars, behind⟩ :=
        ih (show (digitChars (i / 10)).length ≤ room by omega) (Function.update buffer room (digitChar (i % 10)))
      refine ⟨buffer', start, (if_pos (by omega)).trans ran, by omega, fun k inside => ?_, fun cell above => ?_⟩
      · rw [digitChars_step last]
        by_cases front : k < (digitChars (i / 10)).length
        · rw [List.getElem?_append_left front, chars k front]
        · obtain rfl : k = (digitChars (i / 10)).length := by omega
          rw [List.getElem?_concat_length, place, behind room le_rfl, Function.update_self]
      · rw [behind cell (by omega), Function.update_of_ne (by omega)]

private theorem simpleItoa_eq (fits : i < 2 ^ 64) (buffer : Mem) : simpleItoa buffer i = some (digitChars i) := by
  have short := digitChars_length fits
  obtain ⟨buffer', start, ran, place, chars, behind⟩ :=
    itoaLoop_spec (show (digitChars i).length ≤ 21 by omega) (Function.update buffer 21 0)
  have before : ∀ k < (digitChars i).length, buffer' (start + k) ≠ 0 := by
    intro k inside zero
    have char := chars k inside
    rw [zero] at char
    exact digitChars_nonzero i (List.mem_of_getElem? char)
  have stop : buffer' (start + (digitChars i).length) = 0 := by
    rw [place, behind 21 le_rfl, Function.update_self]
  have text : cString buffer' start (22 - start) = digitChars i := by
    rw [cString, takeWhile_range before stop (by omega)]
    apply List.ext_getElem?
    intro k
    by_cases inside : k < (digitChars i).length
    · rw [chars k inside]
      simp [inside]
    · rw [List.getElem?_eq_none (by simpa using inside), List.getElem?_eq_none (by omega)]
  rw [simpleItoa, ran]
  exact congrArg some text

/-! ## The fast conversion -/

/-- The divisions by ten of `put_dec_trunc` and `put_dec_full`: what is divided,
and the quotient that a multiplication and a shift give for it. -/
def quotients (q : Nat) : List (Nat × Nat) :=
  let d1 := (q >>> 4) &&& 0xf
  let d2 := (q >>> 8) &&& 0xf
  let d3 := q >>> 12
  let d0 := 6 * (d3 + d2 + d1) + (q &&& 0xf)
  let q0 := (d0 * 0xcd) >>> 11
  let d1 := q0 + 9 * d3 + 5 * d2 + d1
  let q1 := (d1 * 0xcd) >>> 11
  let d2 := q1 + 2 * d2
  let q2 := (d2 * 0xd) >>> 7
  let d3 := q2 + 4 * d3
  let q3 := (d3 * 0xcd) >>> 11
  [(d0, q0), (d1, q1), (d2, q2), (d3, q3)]

/-- The digits these quotients leave, and the last quotient. -/
def quotientChars (steps : List (Nat × Nat)) : List UInt8 :=
  steps.map (fun step => digitChar (step.1 - 10 * step.2)) ++ steps.getLast?.toList.map (fun step => digitChar step.2)

private theorem putDecFull_quotients (q : Nat) : putDecFull q = quotientChars (quotients q) := rfl

/-- `put_dec_trunc` stops early but computes nothing else. -/
theorem putDecTrunc_quotients (q : Nat) : putDecTrunc q <+: quotientChars (quotients q) := by
  rw [← putDecFull_quotients]
  unfold putDecTrunc putDecFull
  dsimp only
  split
  · split
    · split
      · split
        · exact ⟨[], rfl⟩
        · exact ⟨[_], rfl⟩
      · exact ⟨[_, _], rfl⟩
    · exact ⟨[_, _, _], rfl⟩
  · exact ⟨[_, _, _, _], rfl⟩

/-- Every quotient is exact, and no product leaves 32 bits. -/
theorem quotients_exact (small : q < 100000) (member : step ∈ quotients q) :
    step.2 = step.1 / 10 ∧ step.1 * 0xcd < 2 ^ 32 := by
  obtain ⟨a, b, c, d, ⟨a_eq, b_eq, c_eq, d_eq⟩, ⟨a_digit, b_digit, c_digit⟩, split⟩ := hexadecimal_parts q
  have small' := small
  rw [split] at small'
  unfold quotients at member
  rw [a_eq, b_eq, c_eq, d_eq] at member
  obtain ⟨⟨d0_small, d1_small, d2_small, d3_small⟩, -⟩ :=
    putDec_quotients small' a_digit b_digit c_digit split rfl rfl rfl rfl
  simp only [div_ten_eleven d0_small, div_ten_eleven d1_small, div_ten_seven d2_small, div_ten_eleven d3_small,
    List.mem_cons, List.not_mem_nil, or_false] at member
  rcases member with rfl | rfl | rfl | rfl
  · exact ⟨rfl, by dsimp only; omega⟩
  · exact ⟨rfl, by dsimp only; omega⟩
  · exact ⟨rfl, by dsimp only; omega⟩
  · exact ⟨rfl, by dsimp only; omega⟩

private theorem putDec_eq (fits : num < 2 ^ 64) : putDec num = (digitChars num).reverse := by
  by_cases zero : num = 0
  · rw [zero]
    decide
  · rw [putDec, putDecLoop_eq (by omega) zero, digitChars, digitsOf, if_neg zero, List.map_reverse, List.reverse_reverse]

/-- `put_dec` writes the characters of `simple_itoa` backwards, at most twenty;
its quotients of remainders below 100000 are all exact. -/
theorem putDec_reverses_simpleItoa (num : Nat) (fits : num < 2 ^ 64) (buffer : Mem) :
    (∃ text, simpleItoa buffer num = some text ∧ putDec num = text.reverse) ∧ (putDec num).length ≤ 20 ∧
      ∀ q < 100000, (∀ step ∈ quotients q, step.2 = step.1 / 10 ∧ step.1 * 0xcd < 2 ^ 32) ∧
        putDecFull q = quotientChars (quotients q) ∧ putDecTrunc q <+: quotientChars (quotients q) := by
  refine ⟨⟨digitChars num, simpleItoa_eq fits buffer, putDec_eq fits⟩, ?_, fun q small => ?_⟩
  · rw [putDec_eq fits, List.length_reverse]
    exact digitChars_length fits
  · exact ⟨fun step => quotients_exact small, putDecFull_quotients q, putDecTrunc_quotients q⟩

theorem putDec_reverses_largest :
    (∃ text, simpleItoa (fun _ => 0x55) (2 ^ 64 - 1) = some text ∧ putDec (2 ^ 64 - 1) = text.reverse) ∧
      (putDec (2 ^ 64 - 1)).length = 20 := by
  refine ⟨(putDec_reverses_simpleItoa (2 ^ 64 - 1) (by decide) (fun _ => 0x55)).1, ?_⟩
  decide

end RockOs.DecimalConversion
