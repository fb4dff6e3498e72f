import RockOs.PrintedNumbers

/-! The layout of `number`: blanks, sign, prefix, zeros, digits, blanks. One counter is
taken down by up to three loops in turn, each of which decrements it once more than it
puts out characters; the first that is allowed to run fills the field. -/
namespace RockOs.NumberLayout
open BoundedText PrintedNumbers Vsprintf VsprintfText

/-! ## The parts -/

/-- The value of a 64 bit word that is printed with a sign or without. -/
def valueOf (num : Nat) (type : Flags) : Nat := if type.sign then ((num : Int).bmod (2 ^ 64)).natAbs else num

def signText (num : Nat) (type : Flags) : List UInt8 :=
  if type.sign then
    if (num : Int).bmod (2 ^ 64) < 0 then ['-'.toUInt8]
    else if type.plus then ['+'.toUInt8] else if type.space then [' '.toUInt8] else []
  else []

def radixText (base : Nat) (type : Flags) : List UInt8 :=
  if type.special then
    if base = 16 then ['0'.toUInt8, if type.small then 'x'.toUInt8 else 'X'.toUInt8]
    else if base = 8 then ['0'.toUInt8] else []
  else []

/-- The digits, with small or capital letters. -/
def digitsText (num base : Nat) (type : Flags) : List UInt8 :=
  (digitsOf base (valueOf num type)).map (digitText (if type.small then 0x20 else 0))

/-- Zeros and digits that the precision asks for. -/
def asked (num base : Nat) (precision : Int) (type : Flags) : Int := max precision (digitsText num base type).length

/-- What the sign, the prefix, the zeros and the digits take. -/
def needed (num base : Nat) (precision : Int) (type : Flags) : Int :=
  (signText num type).length + (radixText base type).length + asked num base precision type

/-- How many loops take the counter down. -/
def loops (type : Flags) : Int := if type.left then 1 else if type.zeropad then 2 else 3

/-- No `int` overflows: the counter starts with what is left of the width. -/
structure InRange (num base : Nat) (width precision : Int) (type : Flags) : Prop where
  width_low : -1 ≤ width
  width_high : width < 2 ^ 31
  precision_low : -1 ≤ precision
  precision_high : precision < 2 ^ 31
  counter : -2 ^ 31 ≤ width - needed num base precision type - loops type

/-- How many blanks and zeros there are. -/
structure Layout (num base : Nat) (width precision : Int) (type : Flags) (before zeros after : Nat) : Prop where
  /-- as many zeros and digits as the precision asks for -/
  enough : asked num base precision type ≤ zeros + (digitsText num base type).length
  /-- the field is filled, and no longer than its parts otherwise -/
  total : before + (signText num type).length + (radixText base type).length + zeros +
    (digitsText num base type).length + after = max width (needed num base precision type)
  /-- blanks are on the left unless `LEFT` -/
  right : type.left = false → after = 0
  left : type.left = true → before = 0
  /-- zeros take the place of the blanks with `ZEROPAD` and without `LEFT` only -/
  zeropad : type.left = false → type.zeropad = true → before = 0
  plain : type.left = true ∨ type.zeropad = false →
    zeros + (digitsText num base type).length = asked num base precision type

/-! ## The parts as the code computes them -/

private theorem negative_iff {num : Nat} (word : num < 2 ^ 64) : (num : Int).bmod (2 ^ 64) < 0 ↔ 2 ^ 63 ≤ num := by
  rw [Int.bmod_def]
  split <;> omega

private theorem magnitude_eq (word : num < 2 ^ 64) (type : Flags) : magnitude num type = valueOf num type := by
  unfold magnitude valueOf
  cases type.sign with
  | false => simp
  | true =>
    simp only [true_and, if_true, Int.bmod_def]
    split <;> omega

private theorem signText_eq (word : num < 2 ^ 64) (type : Flags) :
    (if numberSign num type ≠ 0 then [numberSign num type] else []) = signText num type := by
  unfold numberSign signText
  simp only [negative_iff word]
  cases type.sign with
  | false => rfl
  | true =>
    by_cases negative : 2 ^ 63 ≤ num
    · simp only [negative, if_true]
      rfl
    · simp only [negative, if_false, if_true]
      cases type.plus <;> cases type.space <;> rfl

private theorem radixText_eq (printable : Printable base) (type : Flags) :
    (if type.special ∧ base ≠ 10 then
        '0'.toUInt8 :: (if base = 16 then ['X'.toUInt8 ||| (if type.small then 0x20 else 0)] else [])
      else []) = radixText base type := by
  unfold radixText
  rcases printable with rfl | rfl | rfl <;> cases type.special <;> cases type.small <;> rfl

private theorem digitsText_eq (printable : Printable base) (word : num < 2 ^ 64) (type : Flags) :
    (numberDigits (magnitude num type) base (if type.small then 0x20 else 0)).reverse = digitsText num base type := by
  have cased : Case (if type.small then 0x20 else 0) := by
    cases type.small
    · exact .inl rfl
    · exact .inr rfl
  have fits : valueOf num type < 2 ^ 64 := by
    rw [← magnitude_eq word]
    unfold magnitude
    split <;> omega
  rw [magnitude_eq word, numberDigits_eq printable cased fits, digitsText]

private theorem digits_length (printable : Printable base) (word : num < 2 ^ 64) (type : Flags) :
    (numberDigits (magnitude num type) base (if type.small then 0x20 else 0)).length =
      (digitsText num base type).length := by
  rw [← digitsText_eq printable word, List.length_reverse]

private theorem numberCore_eq (printable : Printable base) (word : num < 2 ^ 64) (precision : Int) (type : Flags)
    (fill : List UInt8) :
    numberCore num base precision type fill =
      signText num type ++ radixText base type ++ fill ++
        List.replicate (precision - (digitsText num base type).length).toNat '0'.toUInt8 ++
          digitsText num base type := by
  unfold numberCore
  dsimp only
  rw [signText_eq word, radixText_eq printable, digits_length printable word, digitsText_eq printable word]

/-! ## The counter -/

private theorem int32_sub : int32 (int32 value - less) = int32 (value - less) := Int.bmod_sub_bmod

/-- A loop takes down what is left of the counter and leaves it negative. -/
theorem downLeft_eq (low : -2 ^ 31 ≤ size - 1) (high : size ≤ 2 ^ 31) : downLeft size = min (size - 1) (-1) := by
  unfold downLeft
  rw [int32_exact low (by omega)]
  split <;> omega

private theorem downCount_eq (low : -2 ^ 31 ≤ size - 1) (high : size ≤ 2 ^ 31) : downCount size = size.toNat := by
  unfold downCount
  rw [int32_exact low (by omega)]
  split <;> omega

/-- The second loop finds nothing left, and so does the third. -/
theorem downCount_second (low : -2 ^ 31 ≤ size - 2) (high : size ≤ 2 ^ 31) : downCount (downLeft size) = 0 := by
  rw [downLeft_eq (by omega) high, downCount_eq (by omega) (by omega)]
  omega

private theorem downCount_third (low : -2 ^ 31 ≤ size - 3) (high : size ≤ 2 ^ 31) :
    downCount (downLeft (downLeft size)) = 0 := by
  have once : downLeft size = min (size - 1) (-1) := downLeft_eq (by omega) high
  rw [once, downCount_second (by omega) (by omega)]

private theorem sign_length (word : num < 2 ^ 64) (type : Flags) :
    ((signText num type).length : Int) = if numberSign num type ≠ 0 then 1 else 0 := by
  rw [← signText_eq word]
  split <;> rfl

private theorem radix_length (printable : Printable base) (type : Flags) :
    ((radixText base type).length : Int) = if type.special ∧ base ≠ 10 then if base = 16 then 2 else 1 else 0 := by
  unfold radixText
  rcases printable with rfl | rfl | rfl <;> cases type.special <;> rfl

private theorem numberRoom_eq (printable : Printable base) (word : num < 2 ^ 64)
    (range : InRange num base width precision type) :
    numberRoom num base width (asked num base precision type) type = width - needed num base precision type := by
  obtain ⟨width_low, width_high, precision_low, precision_high, counter⟩ := range
  have signs := sign_length word type
  have radix := radix_length printable type
  have one : 1 ≤ loops type := by
    unfold loops
    split_ifs <;> decide
  have positive : 0 ≤ asked num base precision type := by
    unfold asked
    omega
  unfold needed at counter ⊢
  rw [signs, radix] at counter ⊢
  unfold numberRoom
  dsimp only
  split_ifs at counter ⊢ <;>
    (try simp only [int32_sub]) <;> rw [int32_exact] <;> omega

/-- Blanks, sign, prefix, zeros, digits and blanks. -/
def fieldText (num base : Nat) (type : Flags) (before zeros after : Nat) : List UInt8 :=
  List.replicate before ' '.toUInt8 ++ signText num type ++ radixText base type ++
    List.replicate zeros '0'.toUInt8 ++ digitsText num base type ++ List.replicate after ' '.toUInt8

/-- Zeros that the precision adds to the digits. -/
def added (num base : Nat) (precision : Int) (type : Flags) : Nat :=
  (asked num base precision type - (digitsText num base type).length).toNat

/-- What is left of the width goes to the first loop that runs. -/
theorem numberText_eq (printable : Printable base) (word : num < 2 ^ 64)
    (range : InRange num base width precision type) :
    numberText num base width precision type =
      if type.left then
        fieldText num base type 0 (added num base precision type) (width - needed num base precision type).toNat
      else if type.zeropad then
        fieldText num base type 0
          ((width - needed num base precision type).toNat + added num base precision type) 0
      else
        fieldText num base type (width - needed num base precision type).toNat (added num base precision type) 0 := by
  have precise : (if precision < (digitsText num base type).length then ((digitsText num base type).length : Int)
      else precision) = asked num base precision type := by
    unfold asked
    omega
  have positive : 0 ≤ needed num base precision type := by
    unfold needed asked
    omega
  have counter := range.counter
  have high := range.width_high
  unfold numberText
  dsimp only
  rw [digits_length printable word, precise, numberRoom_eq printable word range]
  simp only [numberCore_eq printable word]
  unfold loops at counter
  split_ifs at counter ⊢ with left zeropad
  · rw [downCount_eq (by omega) (by omega)]
    simp [fieldText, added]
  · rw [downCount_eq (by omega) (by omega), downCount_second (by omega) (by omega)]
    simp [fieldText, added]
  · rw [downCount_eq (by omega) (by omega), downCount_second (by omega) (by omega),
      downCount_third (by omega) (by omega)]
    simp [fieldText, added]

/-- For every flag, width and precision that no `int` overflows at, `number` puts out
blanks, sign, prefix, zeros, digits and blanks, and as many of them as `Layout` says. -/
theorem number_layout (word : num < 2 ^ 64) (printable : Printable base)
    (range : InRange num base width precision type) :
    ∃ before zeros after, Layout num base width precision type before zeros after ∧
      number fin num base width precision type out =
        addchs fin (fieldText num base type before zeros after) out := by
  have digits : added num base precision type + (digitsText num base type).length = asked num base precision type := by
    unfold added asked
    omega
  have parts : needed num base precision type =
    (signText num type).length + (radixText base type).length + asked num base precision type := rfl
  rw [number_eq, numberText_eq printable word range]
  split_ifs with left zeropad
  · refine ⟨_, _, _, ⟨by omega, by omega, fun right => ?_, fun _ => rfl, fun _ _ => rfl, fun _ => digits⟩, rfl⟩
    simp [left] at right
  · refine ⟨_, _, _, ⟨by omega, by omega, fun _ => rfl, fun _ => rfl, fun _ _ => rfl, fun plain => ?_⟩, rfl⟩
    simp [left, zeropad] at plain
  · refine ⟨_, _, _, ⟨by omega, by omega, fun _ => rfl, fun left' => ?_, fun _ zeropad' => ?_, fun _ => digits⟩, rfl⟩
    · exact absurd left' left
    · exact absurd zeropad' zeropad

theorem number_layout_padded :
    ∃ before zeros after,
      Layout (2 ^ 64 - 5) 10 8 3 { sign := true, zeropad := true } before zeros after ∧
        number 16 (2 ^ 64 - 5) 10 8 3 { sign := true, zeropad := true } ⟨fun _ => 0, 0⟩ =
          addchs 16 (fieldText (2 ^ 64 - 5) 10 { sign := true, zeropad := true } before zeros after) ⟨fun _ => 0, 0⟩ :=
  number_layout (by decide) (.inr (.inl rfl))
    ⟨by decide, by decide, by decide, by decide, by decide +kernel⟩

end RockOs.NumberLayout
