import RockOs.MemoryCompare

/-! `print_size` of `lib/display_options.c`: a size in the largest unit that it reaches,
rounded to tenths. -/
namespace RockOs.SizePrinting
open Console Ctype MemoryCompare PrintedNumbers Vsprintf VsprintfText

/-! ## The code -/

/-- The static `names`. -/
def names : List UInt8 := ascii ['E', 'P', 'T', 'G', 'M', 'K']

/-- The loop over the names: `c` and `d` where it is left with one. -/
def chooseUnit (size : Nat) : (names : List UInt8) → (d : Nat) → Option (UInt8 × Nat)
  | [], _ => none
  | c :: names, d => if size >>> d ≠ 0 then some (c, d) else chooseUnit size names (d - 10)

/-- `n` and `m`. -/
def rounded (size d : Nat) : Nat × Nat :=
  let n := size >>> d
  let f := size &&& ((1 <<< d) % 2 ^ 64 - 1)
  if f ≠ 0 then
    let m := ((10 * f % 2 ^ 64 + (1 <<< (d - 1)) % 2 ^ 64) % 2 ^ 64) >>> d
    if 10 ≤ m then ((n + 1) % 2 ^ 64, m - 10) else (n, m)
  else (n, 0)

/-- `"%llu Bytes%s"`. -/
def bytesFormat : List UInt8 := ascii ['%', 'l', 'l', 'u', ' ', 'B', 'y', 't', 'e', 's', '%', 's']

/-- `"%lu"`. -/
def unitsFormat : List UInt8 := ascii ['%', 'l', 'u']

/-- `".%ld"`. -/
def tenthsFormat : List UInt8 := ascii ['.', '%', 'l', 'd']

/-- `" %ciB%s"`. -/
def nameFormat : List UInt8 := ascii [' ', '%', 'c', 'i', 'B', '%', 's']

def printSize (size : Nat) (s : List UInt8) : List Print :=
  match chooseUnit size names (10 * names.length) with
  | none => [.printf bytesFormat [.num size, .str (some s)]]
  | some (c, d) =>
    let (n, m) := rounded size d
    .printf unitsFormat [.num n] ::
      ((if m ≠ 0 then [.printf tenthsFormat [.num m]] else []) ++ [.printf nameFormat [.num c.toNat, .str (some s)]])

/-! ## The unit -/

/-- The unit `2 ^ d` of a size among those up to `2 ^ top`. -/
structure LargestUnit (size top d : Nat) : Prop where
  step : 10 ∣ d
  positive : 0 < d
  within : d ≤ top
  reached : 2 ^ d ≤ size
  largest : ∀ e ≤ top, 10 ∣ e → 2 ^ e ≤ size → e ≤ d

private theorem shiftRight_ne_zero : size >>> d ≠ 0 ↔ 2 ^ d ≤ size := by
  rw [Nat.shiftRight_eq_div_pow, Nat.div_ne_zero_iff]
  exact ⟨fun both => both.2, fun reached => ⟨(Nat.two_pow_pos d).ne', reached⟩⟩

private theorem chooseUnit_unit (large : 1024 ≤ size) (c : UInt8) (names : List UInt8) :
    ∃ c' d, chooseUnit size (c :: names) (10 * (c :: names).length) = some (c', d) ∧
      LargestUnit size (10 * (c :: names).length) d ∧ (c :: names)[(c :: names).length - d / 10]? = some c' := by
  induction names generalizing c with
  | nil =>
    refine ⟨c, 10, if_pos (shiftRight_ne_zero.mpr large), ⟨by decide, by decide, Nat.le_refl _, large, ?_⟩, rfl⟩
    exact fun e bound _ _ => bound
  | cons c₂ names ih =>
    rw [chooseUnit]
    by_cases reached : 2 ^ (10 * (c :: c₂ :: names).length) ≤ size
    · refine ⟨c, _, if_pos (shiftRight_ne_zero.mpr reached), ⟨by omega, by simp, Nat.le_refl _, reached, ?_⟩, ?_⟩
      · exact fun e bound _ _ => bound
      · rw [Nat.mul_div_cancel_left _ (by decide), Nat.sub_self]
        rfl
    · -- the size is below this unit, so no multiple of ten above the next one counts
      obtain ⟨c', d, chosen, unit, name⟩ := ih c₂
      have below : 10 * (c :: c₂ :: names).length - 10 = 10 * (c₂ :: names).length := by
        simp only [List.length_cons]
        omega
      refine ⟨c', d, ?_, ⟨unit.step, unit.positive, ?_, unit.reached, ?_⟩, ?_⟩
      · rw [if_neg (shiftRight_ne_zero.not.mpr reached), below, chosen]
      · exact Nat.le_trans unit.within (by simp only [List.length_cons]; omega)
      · intro e bound step holds
        refine unit.largest e ?_ step holds
        have other : e ≠ 10 * (c :: c₂ :: names).length := fun same => reached (same ▸ holds)
        simp only [List.length_cons] at bound other ⊢
        omega
      · have top := unit.within
        have shorter : (c :: c₂ :: names).length - d / 10 = (c₂ :: names).length - d / 10 + 1 := by
          simp only [List.length_cons] at top ⊢
          omega
        rw [shorter, List.getElem?_cons_succ, name]

/-! ## The tenths -/

/-- A size as `n.m` units. -/
structure Rounding (size d n m : Nat) : Prop where
  exact : 10 * (size % 2 ^ d) + 2 ^ (d - 1) < 2 ^ 64 ∧ size / 2 ^ d + 1 < 2 ^ 64
  tenths : m ≤ 9
  error : |((10 * n + m : Nat) : Int) * 2 ^ d - 10 * size| ≤ 2 ^ (d - 1)

private theorem half_unit (positive : 0 < d) : 2 ^ d = 2 * 2 ^ (d - 1) := by
  rw [← Nat.pow_succ', Nat.succ_eq_add_one, Nat.sub_add_cancel positive]

/-- Nothing wraps, as ten and a half of the largest unit are less than `2 ^ 64`. -/
theorem rounding_exact (unit : d ≤ 60) (positive : 0 < d) (word : size < 2 ^ 64) :
    10 * (size % 2 ^ d) + 2 ^ (d - 1) < 2 ^ 64 ∧ size / 2 ^ d + 1 < 2 ^ 64 := by
  have half := half_unit positive
  have top : 2 ^ d ≤ 2 ^ 60 := Nat.pow_le_pow_right (by decide) unit
  have rest : size % 2 ^ d < 2 ^ d := Nat.mod_lt _ (Nat.two_pow_pos d)
  have units : size / 2 ^ d ≤ size / 2 := by
    refine Nat.div_le_div_left ?_ (by decide)
    have one := Nat.two_pow_pos (d - 1)
    omega
  omega

private theorem rounded_eq (unit : d ≤ 60) (positive : 0 < d) (word : size < 2 ^ 64) :
    rounded size d =
      if 10 ≤ (10 * (size % 2 ^ d) + 2 ^ (d - 1)) / 2 ^ d then
        (size / 2 ^ d + 1, (10 * (size % 2 ^ d) + 2 ^ (d - 1)) / 2 ^ d - 10)
      else (size / 2 ^ d, (10 * (size % 2 ^ d) + 2 ^ (d - 1)) / 2 ^ d) := by
  obtain ⟨exact, exact'⟩ := rounding_exact unit positive word
  have half := half_unit positive
  have shift : (1 <<< d) % 2 ^ 64 = 2 ^ d := by
    rw [Nat.one_shiftLeft]
    exact Nat.mod_eq_of_lt (Nat.pow_lt_pow_right (by decide) (by omega))
  have shift' : (1 <<< (d - 1)) % 2 ^ 64 = 2 ^ (d - 1) := by
    rw [Nat.one_shiftLeft]
    exact Nat.mod_eq_of_lt (Nat.pow_lt_pow_right (by decide) (by omega))
  unfold rounded
  rw [shift, shift', Nat.and_two_pow_sub_one_eq_mod, Nat.shiftRight_eq_div_pow]
  dsimp only
  rw [Nat.shiftRight_eq_div_pow]
  by_cases whole : size % 2 ^ d = 0
  · have none : (10 * (size % 2 ^ d) + 2 ^ (d - 1)) / 2 ^ d = 0 := by
      rw [whole, half]
      exact Nat.div_eq_of_lt (by have := Nat.two_pow_pos (d - 1); omega)
    rw [if_neg (not_not.mpr whole), none]
    rfl
  · rw [if_pos whole, Nat.mod_eq_of_lt (show 10 * (size % 2 ^ d) < 2 ^ 64 by omega), Nat.mod_eq_of_lt exact,
      Nat.mod_eq_of_lt exact']

/-- A quotient rounded to the nearest one, for a unit of two halves. -/
theorem tenths_error {unit half n f m size : Nat} (twice : unit = 2 * half) (split : unit * n + f = size)
    (least : m * unit ≤ 10 * f + half) (most : 10 * f + half < m * unit + unit) :
    |((10 * n + m : Nat) : Int) * unit - 10 * size| ≤ half := by
  have expand : ((10 * n + m : Nat) : Int) * unit = ((10 * (unit * n) + m * unit : Nat) : Int) := by
    push_cast
    ring
  rw [expand, abs_le]
  omega

private theorem rounded_rounding (unit : d ≤ 60) (positive : 0 < d) (word : size < 2 ^ 64) :
    Rounding size d (rounded size d).1 (rounded size d).2 := by
  have half := half_unit positive
  have rest : size % 2 ^ d < 2 ^ d := Nat.mod_lt _ (Nat.two_pow_pos d)
  have exact := rounding_exact unit positive word
  have error := tenths_error half (Nat.div_add_mod size (2 ^ d)) (Nat.div_mul_le_self _ _)
    (Nat.lt_div_mul_add (Nat.two_pow_pos d))
  have carry : (10 * (size % 2 ^ d) + 2 ^ (d - 1)) / 2 ^ d < 11 := Nat.div_lt_of_lt_mul (by omega)
  rw [rounded_eq unit positive word]
  generalize (10 * (size % 2 ^ d) + 2 ^ (d - 1)) / 2 ^ d = m at error carry ⊢
  push_cast at error
  by_cases large : 10 ≤ m
  · rw [if_pos large]
    have same : 10 * (size / 2 ^ d + 1) + (m - 10) = 10 * (size / 2 ^ d) + m := by omega
    exact ⟨exact, by omega, by rw [same]; push_cast; exact error⟩
  · rw [if_neg large]
    exact ⟨exact, by omega, by push_cast; exact error⟩

/-! ## The text -/

private theorem text_units (word : n < 2 ^ 64) : (Print.printf unitsFormat [.num n]).text = some (decimal n) := by
  have number : directive (ascii ['l', 'u']) [.num n] = some (.num (n % 2 ^ 64) 10 (-1) (-1) {}, [], []) := rfl
  have shown : output unitsFormat [.num n] = some (decimal n) := by
    rw [unitsFormat]
    refine (output_number number).trans ?_
    rw [Nat.mod_eq_of_lt word, numberText_unsigned (.inr (.inl rfl)) word rfl rfl rfl]
    rfl
  have short := decimal_length word
  have room : Config.sysPbsize = 1024 := rfl
  rw [Print.text, printf_eq shown (by omega) (decimal_nonzero n), List.take_of_length_le (by omega)]

private theorem text_tenths (word : n < 2 ^ 63) :
    (Print.printf tenthsFormat [.num n]).text = some ('.'.toUInt8 :: decimal n) := by
  have number : directive (ascii ['l', 'd']) [.num n] =
      some (.num (n % 2 ^ 64) 10 (-1) (-1) { sign := true }, [], []) := rfl
  have shown : output tenthsFormat [.num n] = some ('.'.toUInt8 :: decimal n) := by
    refine (output_plain (show '.'.toUInt8 ≠ 0 by decide) (by decide)).trans ?_
    refine (congrArg (Option.map ('.'.toUInt8 :: ·)) (output_number number)).trans ?_
    rw [Nat.mod_eq_of_lt (by omega), count_text (by omega), if_pos word]
    rfl
  have short := decimal_length (show n < 2 ^ 64 by omega)
  have room : Config.sysPbsize = 1024 := rfl
  have nonzero : 0 ∉ '.'.toUInt8 :: decimal n := List.not_mem_cons_of_ne_of_not_mem (by decide) (decimal_nonzero n)
  rw [Print.text, printf_eq shown (by simp only [List.length_cons]; omega) nonzero,
    List.take_of_length_le (by simp only [List.length_cons]; omega)]

/-- A size of at least 1024 is shown as `n.m` of its largest unit, with the name of that
unit and an error of at most half a tenth. -/
theorem print_size_rounding (size : Nat) (s : List UInt8) (word : size < 2 ^ 64) (large : 1024 ≤ size) :
    ∃ c d n m,
      printSize size s =
        .printf unitsFormat [.num n] ::
          ((if m ≠ 0 then [.printf tenthsFormat [.num m]] else []) ++
            [.printf nameFormat [.num c.toNat, .str (some s)]]) ∧
      LargestUnit size 60 d ∧ names[6 - d / 10]? = some c ∧ Rounding size d n m ∧
      (Print.printf unitsFormat [.num n]).text = some (decimal n) ∧
      (Print.printf tenthsFormat [.num m]).text = some ('.'.toUInt8 :: decimal m) := by
  obtain ⟨c, d, chosen, unit, name⟩ := chooseUnit_unit large 'E'.toUInt8 (ascii ['P', 'T', 'G', 'M', 'K'])
  have rounding := rounded_rounding unit.within unit.positive word
  refine ⟨c, d, (rounded size d).1, (rounded size d).2, ?_, unit, name, rounding, text_units ?_, text_tenths ?_⟩
  · have unfolded : printSize size s =
        match chooseUnit size names (10 * names.length) with
        | none => [.printf bytesFormat [.num size, .str (some s)]]
        | some (c, d) =>
          .printf unitsFormat [.num (rounded size d).1] ::
            ((if (rounded size d).2 ≠ 0 then [.printf tenthsFormat [.num (rounded size d).2]] else []) ++
              [.printf nameFormat [.num c.toNat, .str (some s)]]) := rfl
    rw [unfolded, show chooseUnit size names (10 * names.length) = some (c, d) from chosen]
  · rw [rounded_eq unit.within unit.positive word]
    split
    · exact rounding.exact.2
    · exact Nat.lt_of_succ_lt rounding.exact.2
  · have tenths := rounding.tenths
    omega

/-- The largest word. -/
theorem print_size_largest :
    (2 ^ 64 - 1 < 2 ^ 64 ∧ 1024 ≤ 2 ^ 64 - 1) ∧ ∃ d n m, LargestUnit (2 ^ 64 - 1) 60 d ∧
      Rounding (2 ^ 64 - 1) d n m := by
  have word : 2 ^ 64 - 1 < 2 ^ 64 := by decide
  have large : 1024 ≤ 2 ^ 64 - 1 := by decide
  obtain ⟨c, d, n, m, -, unit, -, rounding, -⟩ := print_size_rounding (2 ^ 64 - 1) [] word large
  exact ⟨⟨word, large⟩, d, n, m, unit, rounding⟩

end RockOs.SizePrinting
