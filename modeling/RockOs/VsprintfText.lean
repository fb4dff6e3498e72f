import RockOs.Vsprintf

/-! What a format string stands for: the text each conversion puts out and the
text of a whole format. Every function of the interpreter hands exactly its text
to `ADDCH`, whatever the end of the buffer is. -/
namespace RockOs.VsprintfText
open BoundedText Vsprintf

/-- Turns of `while (--size >= 0)`. -/
def downCount (size : Int) : Nat :=
  if 0 ≤ int32 (size - 1) then (int32 (size - 1)).toNat + 1 else 0

/-- `size` after that loop. -/
def downLeft (size : Int) : Int :=
  if 0 ≤ int32 (size - 1) then -1 else int32 (size - 1)

private theorem padDown_eq :
    padDown fin ch size out = (downLeft size, addchs fin (List.replicate (downCount size) ch) out) := by
  unfold padDown downLeft downCount
  by_cases more : 0 ≤ int32 (size - 1)
  · simp only [more, if_true, pad_eq]
  · simp only [more, if_false, List.replicate_zero, addchs_nil]

/-- Turns of `while (len < field_width--)`. -/
def underCount (len fieldWidth : Int) : Nat := (fieldWidth - len).toNat

/-- `field_width` after that loop. -/
def underLeft (len fieldWidth : Int) : Int :=
  if len < fieldWidth then int32 (len - 1) else int32 (fieldWidth - 1)

private theorem padUnder_eq :
    padUnder fin len fieldWidth out =
      (underLeft len fieldWidth, addchs fin (List.replicate (underCount len fieldWidth) ' '.toUInt8) out) := by
  unfold padUnder underLeft underCount
  by_cases more : len < fieldWidth
  · simp only [more, if_true, pad_eq]
  · have none : (fieldWidth - len).toNat = 0 := by omega
    simp only [more, if_false, none, List.replicate_zero, addchs_nil]

/-- Turns of `while (--field_width > 0)`. -/
def aboveCount (fieldWidth : Int) : Nat := (int32 (fieldWidth - 1)).toNat

/-- `field_width` after that loop. -/
def aboveLeft (fieldWidth : Int) : Int :=
  if 0 < int32 (fieldWidth - 1) then 0 else int32 (fieldWidth - 1)

private theorem padAbove_eq :
    padAbove fin fieldWidth out =
      (aboveLeft fieldWidth, addchs fin (List.replicate (aboveCount fieldWidth) ' '.toUInt8) out) := by
  unfold padAbove aboveLeft aboveCount
  by_cases more : 0 < int32 (fieldWidth - 1)
  · simp only [more, if_true, pad_eq]
  · have none : (int32 (fieldWidth - 1)).toNat = 0 := by omega
    simp only [more, if_false, none, List.replicate_zero, addchs_nil]

private theorem addch_if (p : Prop) [Decidable p] :
    (if p then addch fin ch out else out) = addchs fin (if p then [ch] else []) out := by
  split <;> rfl

/-- The sign, the prefix, the zeros a precision asks for and the digits. -/
def numberCore (num base : Nat) (precision : Int) (type : Flags) (fill : List UInt8) : List UInt8 :=
  let locase : UInt8 := if type.small then 0x20 else 0
  let tmp := numberDigits (magnitude num type) base locase
  (if numberSign num type ≠ 0 then [numberSign num type] else []) ++
    (if type.special ∧ base ≠ 10 then '0'.toUInt8 :: (if base = 16 then ['X'.toUInt8 ||| locase] else []) else []) ++
    fill ++ List.replicate (precision - tmp.length).toNat '0'.toUInt8 ++ tmp.reverse

/-- The text of `number`: blanks on the left, zeros or nothing after the prefix, or
blanks on the right. -/
def numberText (num base : Nat) (size precision : Int) (type : Flags) : List UInt8 :=
  let locase : UInt8 := if type.small then 0x20 else 0
  let digits := (numberDigits (magnitude num type) base locase).length
  let precision := if precision < digits then (digits : Int) else precision
  let size := numberRoom num base size precision type
  if type.left then
    numberCore num base precision type [] ++ List.replicate (downCount size) ' '.toUInt8
  else if type.zeropad then
    numberCore num base precision type (List.replicate (downCount size) '0'.toUInt8) ++
      List.replicate (downCount (downLeft size)) ' '.toUInt8
  else
    List.replicate (downCount size) ' '.toUInt8 ++
      numberCore num base precision type (List.replicate (downCount (downLeft size)) ' '.toUInt8) ++
      List.replicate (downCount (downLeft (downLeft size))) ' '.toUInt8

theorem number_eq :
    number fin num base size precision type out = addchs fin (numberText num base size precision type) out := by
  have prefixed (locase : UInt8) (out : Out) :
      (if type.special ∧ base ≠ 10 then
        addchs fin (if base = 16 then ['X'.toUInt8 ||| locase] else []) (addch fin '0'.toUInt8 out)
      else out) =
      addchs fin (if type.special ∧ base ≠ 10 then
        '0'.toUInt8 :: (if base = 16 then ['X'.toUInt8 ||| locase] else []) else []) out := by
    by_cases special : type.special ∧ base ≠ 10
    · rw [if_pos special, if_pos special]
      rfl
    · rw [if_neg special, if_neg special]
      rfl
  unfold number numberText numberCore
  cases left : type.left <;> cases zeropad : type.zeropad <;>
    simp only [left, zeropad, Bool.not_true, Bool.not_false, Bool.and_true, Bool.and_false, Bool.false_eq_true,
      if_true, if_false, padDown_eq, pad_eq, addch_if, prefixed, addchs_append] <;> rfl

/-- The text of `string`. -/
def stringText (s : Option (List UInt8)) (fieldWidth precision : Int) (flags : Flags) : List UInt8 :=
  let s := s.getD nullText
  let len := int32 (strnlen s (precision % 2 ^ 64).toNat)
  let blanks (fieldWidth : Int) := List.replicate (underCount len fieldWidth) ' '.toUInt8
  if flags.left then s.take len.toNat ++ blanks fieldWidth
  else blanks fieldWidth ++ s.take len.toNat ++ blanks (underLeft len fieldWidth)

private theorem string_eq :
    string fin s fieldWidth precision flags out = addchs fin (stringText s fieldWidth precision flags) out := by
  unfold string stringText
  cases left : flags.left <;>
    simp only [Bool.not_true, Bool.not_false, Bool.false_eq_true, if_true, if_false, padUnder_eq, addchs_append]

/-- The text of the number `pointer` ends with. -/
def pointerNumberText (num : Nat) (fieldWidth precision : Int) (flags : Flags) : List UInt8 :=
  if fieldWidth = -1 then numberText num 16 16 precision { flags with small := true, zeropad := true }
  else numberText num 16 fieldWidth precision { flags with small := true }

private theorem pointerNumber_eq :
    pointerNumber fin num fieldWidth precision flags out =
      addchs fin (pointerNumberText num fieldWidth precision flags) out := by
  unfold pointerNumber pointerNumberText
  simp only [number_eq]
  split <;> rfl

/-- The text of `pointer`. -/
def pointerText (fmt : List UInt8) (ptr : Nat) (target : List UInt8) (fieldWidth precision : Int)
    (flags : Flags) : Option (List UInt8) :=
  if target.length < (pointed fmt).size then none
  else match pointed fmt with
    | .number => some (pointerNumberText ptr fieldWidth precision flags)
    | .physical =>
      some (pointerNumberText (loadBytes (target.take 8)) 18 precision
        { flags with special := true, zeropad := true })
    | .mac special =>
      some (stringText (some (macAddr target { flags with special := special || flags.special }))
        fieldWidth precision { flags with special := false })
    | .ip6 special =>
      some (stringText (some (ip6Addr target { flags with special := special || flags.special }))
        fieldWidth precision { flags with special := false })
    | .ip4 _ => some (stringText (some (ip4Addr target)) fieldWidth precision { flags with special := false })
    | .plain => some (pointerNumberText ptr fieldWidth precision { flags with special := false })

private theorem pointer_eq :
    pointer fin fmt ptr target fieldWidth precision flags out =
      (pointerText fmt ptr target fieldWidth precision flags).map (addchs fin · out) := by
  unfold pointer pointerText
  split
  · rfl
  · cases pointed fmt <;>
      simp only [pointerNumber_eq, macAddressString, ip6AddrString, ip4AddrString, string_eq, Option.map_some]

/-- The text of `%c`. -/
def chrText (ch : UInt8) (fieldWidth : Int) (flags : Flags) : List UInt8 :=
  let blanks (fieldWidth : Int) := List.replicate (aboveCount fieldWidth) ' '.toUInt8
  if flags.left then ch :: blanks fieldWidth
  else blanks fieldWidth ++ ch :: blanks (aboveLeft fieldWidth)

/-- The text of one conversion. -/
def pieceText : Piece → Option (List UInt8)
  | .chr ch fieldWidth flags => some (chrText ch fieldWidth flags)
  | .str s fieldWidth precision flags => some (stringText s fieldWidth precision flags)
  | .ptr fmt address target fieldWidth precision flags =>
    pointerText fmt address target fieldWidth precision flags
  | .count _ _ => some []
  | .raw text => some text
  | .num value base fieldWidth precision flags => some (numberText value base fieldWidth precision flags)

/-- A conversion hands its text to `ADDCH`, wherever the end is. -/
theorem emit_eq (piece : Piece) : piece.emit fin out = (pieceText piece).map (addchs fin · out) := by
  cases piece with
  | chr ch fieldWidth flags =>
    unfold Piece.emit pieceText chrText
    cases left : flags.left <;>
      simp only [left, Bool.not_true, Bool.not_false, Bool.false_eq_true, if_true, if_false, padAbove_eq,
        addchs_append, Option.map_some] <;> rfl
  | str s fieldWidth precision flags => exact congrArg some string_eq
  | ptr fmt address target fieldWidth precision flags => exact pointer_eq
  | count ip long => rfl
  | raw text => rfl
  | num value base fieldWidth precision flags => exact congrArg some number_eq

/-- The whole output of a format, `none` where an argument does not match. -/
def outputLoop : (turns : Nat) → (fmt : List UInt8) → (args : List Arg) → Option (List UInt8)
  | 0, _, _ => none
  | _ + 1, [], _ => some []
  | turns + 1, c :: fmt, args =>
    if c = 0 then some []
    else if c ≠ '%'.toUInt8 then (outputLoop turns fmt args).map (c :: ·)
    else do
      let (piece, fmt, args) ← directive fmt args
      let text ← pieceText piece
      let rest ← outputLoop turns fmt args
      return text ++ rest

def output (fmt : List UInt8) (args : List Arg) : Option (List UInt8) := outputLoop (fmt.length + 1) fmt args

/-- What a `%n` behind `front` characters stores, and where. -/
def pieceStores (front : Nat) : Piece → List (Nat × Int)
  | .count ip true => [(ip, (front : Int).bmod (2 ^ 64))]
  | .count ip false => [(ip, int32 front)]
  | _ => []

/-- What the `%n` of a format store when `front` characters are out already. -/
def countedLoop : (turns : Nat) → (fmt : List UInt8) → (args : List Arg) → (front : Nat) → List (Nat × Int)
  | 0, _, _, _ => []
  | _ + 1, [], _, _ => []
  | turns + 1, c :: fmt, args, front =>
    if c = 0 then []
    else if c ≠ '%'.toUInt8 then countedLoop turns fmt args (front + 1)
    else match directive fmt args with
      | none => []
      | some (piece, fmt, args) =>
        pieceStores front piece ++ countedLoop turns fmt args (front + ((pieceText piece).getD []).length)

/-- What the `%n` of a format store, and where: the number of characters of the
whole output in front of each. -/
def counted (fmt : List UInt8) (args : List Arg) : List (Nat × Int) := countedLoop (fmt.length + 1) fmt args 0

private theorem getFlags_length (fmt : List UInt8) (flags : Flags) : (getFlags fmt flags).2.length ≤ fmt.length := by
  induction fmt generalizing flags with
  | nil => exact Nat.le_refl _
  | cons c fmt ih =>
    unfold getFlags
    split_ifs
    all_goals first | exact Nat.le_succ_of_le (ih _) | exact Nat.le_refl _

private theorem skipAtoi_length (fmt : List UInt8) (i : Int) : (skipAtoi fmt i).2.length ≤ fmt.length := by
  induction fmt generalizing i with
  | nil => exact Nat.le_refl _
  | cons c fmt ih =>
    unfold skipAtoi
    split_ifs
    · exact Nat.le_succ_of_le (ih _)
    · exact Nat.le_refl _

private theorem tail_length_le (fmt : List UInt8) : fmt.tail.length ≤ fmt.length := by
  rw [List.length_tail]
  omega

private theorem getWidth_length (found : getWidth flags fmt args = some (flags', width, fmt', args')) :
    fmt'.length ≤ fmt.length := by
  unfold getWidth at found
  split_ifs at found
  · cases found
    exact skipAtoi_length _ _
  · obtain ⟨_, _, found⟩ := Option.bind_eq_some_iff.mp found
    dsimp only at found
    split_ifs at found <;> cases found <;> exact tail_length_le _
  · cases found
    exact Nat.le_refl _

private theorem getPrecision_length (found : getPrecision fmt args = some (precision, fmt', args')) :
    fmt'.length ≤ fmt.length := by
  have shorter := tail_length_le fmt
  unfold getPrecision at found
  simp only at found
  split_ifs at found
  · cases found
    exact Nat.le_trans (skipAtoi_length _ _) shorter
  · obtain ⟨_, _, found⟩ := Option.bind_eq_some_iff.mp found
    cases found
    exact Nat.le_trans (tail_length_le _) shorter
  · cases found
    exact shorter
  · cases found
    exact Nat.le_refl _

private theorem getQualifier_length (fmt : List UInt8) : (getQualifier fmt).2.length ≤ fmt.length := by
  have shorter := tail_length_le fmt
  unfold getQualifier
  simp only
  split_ifs
  all_goals first
    | exact Nat.le_trans (tail_length_le _) shorter
    | exact shorter
    | exact Nat.le_refl _

private theorem getNum_rest (found : getNum qualifier base flags width precision fmt args = some (piece, fmt', args')) :
    fmt' = fmt := by
  unfold getNum at found
  obtain ⟨_, _, found⟩ := Option.bind_eq_some_iff.mp found
  cases found
  rfl

private theorem conversion_length
    (found : conversion flags width precision qualifier fmt args = some (piece, fmt', args')) :
    fmt'.length ≤ fmt.length := by
  cases fmt with
  | nil =>
    cases found
    exact Nat.le_refl _
  | cons c fmt =>
    have longer : fmt.length ≤ (c :: fmt).length := Nat.le_succ _
    unfold conversion at found
    dsimp only at found
    by_cases chr : c = 'c'.toUInt8
    · rw [if_pos chr] at found
      obtain ⟨_, _, found⟩ := Option.bind_eq_some_iff.mp found
      cases found
      exact longer
    rw [if_neg chr] at found
    by_cases str : c = 's'.toUInt8
    · rw [if_pos str] at found
      split at found <;> cases found
      exact longer
    rw [if_neg str] at found
    by_cases ptr : c = 'p'.toUInt8
    · rw [if_pos ptr] at found
      split at found <;> cases found
      exact Nat.le_trans (List.dropWhile_suffix _).length_le longer
    rw [if_neg ptr] at found
    by_cases count : c = 'n'.toUInt8
    · rw [if_pos count] at found
      split at found <;> cases found
      exact longer
    rw [if_neg count] at found
    by_cases percent : c = '%'.toUInt8
    · rw [if_pos percent] at found
      cases found
      exact longer
    rw [if_neg percent] at found
    iterate 5
      split at found
      · exact getNum_rest found ▸ longer
    split at found <;> cases found
    · exact Nat.le_refl _
    · exact longer

/-- A conversion leaves no more of the format than it was given. -/
theorem directive_length (found : directive fmt args = some (piece, fmt', args')) :
    fmt'.length ≤ fmt.length := by
  unfold directive at found
  simp only [Option.bind_eq_bind, Option.bind_eq_some_iff, Prod.exists] at found
  obtain ⟨flags, width, fmt₁, args₁, wide, precision, fmt₂, args₂, precise, converted⟩ := found
  calc fmt'.length ≤ (getQualifier fmt₂).2.length := conversion_length converted
    _ ≤ fmt₂.length := getQualifier_length _
    _ ≤ fmt₁.length := getPrecision_length precise
    _ ≤ (getFlags fmt {}).2.length := getWidth_length wide
    _ ≤ fmt.length := getFlags_length _ _

/-- More turns than characters change nothing. -/
theorem outputLoop_turns (enough : fmt.length < turns) : outputLoop turns fmt args = output fmt args := by
  have step : ∀ turns fmt args, fmt.length < turns → outputLoop (turns + 1) fmt args = outputLoop turns fmt args := by
    intro turns
    induction turns with
    | zero =>
      intro fmt args enough
      omega
    | succ turns ih =>
      intro fmt args enough
      cases fmt with
      | nil => rfl
      | cons c fmt =>
        rw [List.length_cons] at enough
        rw [outputLoop, outputLoop, ih fmt args (by omega)]
        cases found : directive fmt args with
        | none => rfl
        | some result =>
          have shorter : result.2.1.length ≤ fmt.length := directive_length found
          simp only [Option.bind_eq_bind, Option.bind_some, ih result.2.1 result.2.2 (by omega)]
  have reach : ∀ extra, outputLoop (fmt.length + 1 + extra) fmt args = output fmt args := by
    intro extra
    induction extra with
    | zero => rfl
    | succ extra ih =>
      rw [← ih]
      exact step (fmt.length + 1 + extra) _ _ (by omega)
  have split : turns = fmt.length + 1 + (turns - (fmt.length + 1)) := by omega
  rw [split]
  exact reach _

@[simp] theorem output_nil : output [] args = some [] := rfl

/-- A conversion stands for its text, followed by the rest of the format. -/
theorem output_directive (found : directive fmt args = some (piece, fmt', args')) :
    output ('%'.toUInt8 :: fmt) args =
      (pieceText piece).bind fun text => (output fmt' args').map (text ++ ·) := by
  show outputLoop (fmt.length + 1 + 1) ('%'.toUInt8 :: fmt) args = _
  have shorter := directive_length found
  rw [outputLoop, if_neg (by decide), if_neg (by decide), found]
  simp only [Option.bind_eq_bind, Option.bind_some, outputLoop_turns (show fmt'.length < fmt.length + 1 by omega)]
  cases pieceText piece with
  | none => rfl
  | some text =>
    simp only [Option.bind_some]
    cases output fmt' args' <;> rfl

/-- A character that starts no conversion stands for itself. -/
theorem output_plain (char : c ≠ 0) (plain : c ≠ '%'.toUInt8) :
    output (c :: fmt) args = (output fmt args).map (c :: ·) := by
  show outputLoop (fmt.length + 1 + 1) (c :: fmt) args = _
  rw [outputLoop, if_neg char, if_pos plain]
  rfl

/-- For texts that are given. -/
theorem plain_of_all {text : List UInt8} (all : text.all (fun c => decide (c ≠ 0) && decide (c ≠ '%'.toUInt8)) = true) :
    ∀ c ∈ text, c ≠ 0 ∧ c ≠ '%'.toUInt8 := by
  simpa using all

theorem output_text (plain : ∀ c ∈ text, c ≠ 0 ∧ c ≠ '%'.toUInt8) :
    output (text ++ fmt) args = (output fmt args).map (text ++ ·) := by
  induction text with
  | nil => simp
  | cons c text ih =>
    obtain ⟨char, here⟩ := plain c List.mem_cons_self
    rw [List.cons_append, output_plain char here, ih fun d member => plain d (List.mem_cons_of_mem c member),
      Option.map_map]
    rfl

end RockOs.VsprintfText
