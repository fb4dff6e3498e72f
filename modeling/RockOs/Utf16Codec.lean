import RockOs.Charset

/-! UTF-16 as `utf16_put` writes it and `utf16_get` reads it. The two bounds of the test of
a low surrogate are one too narrow, so a pair that ends in the first or the last of them is
written and not read back. -/
namespace RockOs.Utf16Codec
open Charset UnicodeForms

/-! ## Writing -/

private theorem ten_bits (c : Nat) : c &&& 0x3ff = c % 1024 := Nat.and_two_pow_sub_one_eq_mod c 10

private theorem high_half (small : c < 0x100000) : c >>> 10 ||| 0xD800 = 0xD800 + c / 1024 := by
  rw [Nat.shiftRight_eq_div_pow]
  exact or_eq_add 27 11 (by omega)

theorem low_half (c : Nat) : c &&& 0x3ff ||| 0xDC00 = 0xDC00 + c % 1024 := by
  rw [ten_bits]
  exact or_eq_add 55 10 (by omega)

theorem utf16Put_encode (scalar : Scalar c) : utf16Put c = some (encode16 c) := by
  obtain ⟨range, plain⟩ := scalar
  unfold utf16Put encode16 Surrogate at *
  rw [if_neg (by omega)]
  by_cases one : c < 0x10000
  · have whole : ((c : Int) % 65536).toNat = c := by omega
    rw [if_pos (by omega), if_pos one, whole]
  · dsimp only
    rw [if_neg (by omega), if_neg one, Int.toNat_natCast, high_half (by omega), low_half]

/-- The code points one after the other. -/
def putAll : (codes : List Nat) → Option (List UInt16)
  | [] => some []
  | c :: codes => do
    let units ← utf16Put c
    let rest ← putAll codes
    return units ++ rest

private theorem putAll_encode (scalars : ∀ c ∈ codes, Scalar c) : putAll codes = some (codes.flatMap encode16) := by
  induction codes with
  | nil => rfl
  | cons c codes ih =>
    obtain ⟨scalar, scalars⟩ := List.forall_mem_cons.mp scalars
    rw [putAll, utf16Put_encode scalar, ih scalars]
    rfl

/-- No unit ends the string too early. -/
theorem zero_not_mem_encode16 (scalar : c < 0x110000) (positive : c ≠ 0) : 0 ∉ encode16 c := by
  unfold encode16
  by_cases one : c < 0x10000
  · rw [if_pos one, List.mem_singleton]
    refine (UInt16.pos_iff_ne_zero.mp (show 0 < (UInt16.ofNat c).toNat from ?_)).symm
    rw [UInt16.toNat_ofNat_of_lt' one]
    omega
  · rw [if_neg one, List.mem_cons, List.mem_singleton, not_or]
    refine ⟨(UInt16.pos_iff_ne_zero.mp (show 0 < (UInt16.ofNat _).toNat from ?_)).symm,
      (UInt16.pos_iff_ne_zero.mp (show 0 < (UInt16.ofNat _).toNat from ?_)).symm⟩
    all_goals rw [UInt16.toNat_ofNat_of_lt' (show _ < 65536 by omega)]; omega

/-! ## Reading -/

/-- The pair of the code point ends in the first or the last low surrogate. -/
def EndsPair (c : Nat) : Prop := 0x10000 ≤ c ∧ ((c - 0x10000) % 0x400 = 0 ∨ (c - 0x10000) % 0x400 = 0x3ff)

instance : Decidable (EndsPair c) := inferInstanceAs (Decidable (_ ∧ _))

/-- By the first unit, and by the second where there is one. -/
theorem utf16Get_cons (u : UInt16) (src : List UInt16) :
    utf16Get (u :: src) =
      if LowSurrogate u.toNat then ((-1 : Int), src)
      else if HighSurrogate u.toNat then
        match src with
        | [] => (-1, [])
        | v :: src =>
          if 0xDC00 < v.toNat ∧ v.toNat < 0xDFFF then (pairCode u.toNat v.toNat, src) else (-1, src)
      else (u.toNat, src) := by
  have unfolded : utf16Get (u :: src) =
      if LowSurrogate u.toNat then ((-1 : Int), src)
      else if HighSurrogate u.toNat then
        match src with
        | [] => (-1, [])
        | v :: src =>
          if v.toNat ≤ 0xDC00 ∨ 0xDFFF ≤ v.toNat then (-1, src)
          else ((((u.toNat &&& 0x3ff) <<< 10) + 0x10000 + (v.toNat &&& 0x3ff) : Nat), src)
      else (u.toNat, src) := rfl
  rw [unfolded]
  by_cases low : LowSurrogate u.toNat
  · rw [if_pos low, if_pos low]
  rw [if_neg low, if_neg low]
  by_cases high : HighSurrogate u.toNat
  · rw [if_pos high, if_pos high]
    cases src with
    | nil => rfl
    | cons v src =>
      dsimp only
      by_cases inner : 0xDC00 < v.toNat ∧ v.toNat < 0xDFFF
      · have code : ((u.toNat &&& 0x3ff) <<< 10) + 0x10000 + (v.toNat &&& 0x3ff) = pairCode u.toNat v.toNat := by
          unfold HighSurrogate at high
          unfold pairCode
          rw [ten_bits, ten_bits, Nat.shiftLeft_eq]
          omega
        rw [if_neg (by omega), if_pos inner, code]
      · rw [if_pos (by omega), if_neg inner]
  · rw [if_neg high, if_neg high]

/-- The result is an error or a scalar value, and zero only at the end. -/
theorem utf16Get_result (u : UInt16) (src : List UInt16) (string : 0 ∉ u :: src) :
    ∃ rest, rest <:+ src ∧ (utf16Get (u :: src) = (-1, rest) ∨ ∃ c, Scalar c ∧ c ≠ 0 ∧
      utf16Get (u :: src) = (↑c, rest)) := by
  rw [utf16Get_cons]
  by_cases low : LowSurrogate u.toNat
  · exact ⟨src, List.suffix_rfl, .inl (if_pos low)⟩
  rw [if_neg low]
  by_cases high : HighSurrogate u.toNat
  · rw [if_pos high]
    cases src with
    | nil => exact ⟨[], List.suffix_rfl, .inl rfl⟩
    | cons v src =>
      refine ⟨src, List.suffix_cons v src, ?_⟩
      dsimp only
      by_cases inner : 0xDC00 < v.toNat ∧ v.toNat < 0xDFFF
      · unfold HighSurrogate at high
        have range : 0x10000 ≤ pairCode u.toNat v.toNat ∧ pairCode u.toNat v.toNat < 0x110000 := by
          unfold pairCode
          omega
        exact .inr ⟨_, ⟨range.2, by unfold Surrogate; omega⟩, by omega, if_pos inner⟩
      · exact .inl (if_neg inner)
  · have range : u.toNat < 65536 := u.toNat_lt
    have positive : u.toNat ≠ 0 := by
      intro zero
      exact string (List.mem_cons.mpr (.inl (UInt16.toNat_inj.mp zero).symm))
    unfold LowSurrogate at low
    unfold HighSurrogate at high
    refine ⟨src, List.suffix_rfl, .inr ⟨u.toNat, ⟨by omega, by unfold Surrogate; omega⟩, positive, if_neg ?_⟩⟩
    exact high

private theorem utf16Get_encode (scalar : Scalar c) :
    utf16Get (encode16 c ++ rest) = (if EndsPair c then -1 else (c : Int), rest) := by
  obtain ⟨range, plain⟩ := scalar
  unfold Surrogate at plain
  unfold encode16
  by_cases one : c < 0x10000
  · have same : (UInt16.ofNat c).toNat = c := UInt16.toNat_ofNat_of_lt' one
    rw [if_pos one, List.singleton_append, utf16Get_cons, same, if_neg (by unfold LowSurrogate; omega),
      if_neg (by unfold HighSurrogate; omega), if_neg (by unfold EndsPair; omega)]
  · have high : (UInt16.ofNat (0xD800 + (c - 0x10000) / 1024)).toNat = 0xD800 + (c - 0x10000) / 1024 :=
      UInt16.toNat_ofNat_of_lt' (show _ < 65536 by omega)
    have low : (UInt16.ofNat (0xDC00 + (c - 0x10000) % 1024)).toNat = 0xDC00 + (c - 0x10000) % 1024 :=
      UInt16.toNat_ofNat_of_lt' (show _ < 65536 by omega)
    rw [if_neg one, List.cons_append, List.singleton_append, utf16Get_cons, high,
      if_neg (by unfold LowSurrogate; omega), if_pos (by unfold HighSurrogate; omega)]
    dsimp only
    rw [low]
    by_cases ends : EndsPair c
    · rw [if_pos ends, if_neg (by unfold EndsPair at ends; omega)]
    · have code : pairCode (0xD800 + (c - 0x10000) / 1024) (0xDC00 + (c - 0x10000) % 1024) = c := by
        unfold pairCode
        omega
      rw [if_neg ends, if_pos (by unfold EndsPair at ends; omega), code]

/-- The results of `count` calls, and what they leave. -/
def getAll : (count : Nat) → (src : List UInt16) → List Int × List UInt16
  | 0, src => ([], src)
  | count + 1, src =>
    let (code, src) := utf16Get src
    let (codes, rest) := getAll count src
    (code :: codes, rest)

private theorem getAll_encode (codes : List Nat) (scalars : ∀ c ∈ codes, Scalar c) :
    getAll codes.length (codes.flatMap encode16) = (codes.map fun c => if EndsPair c then -1 else (c : Int), []) := by
  induction codes with
  | nil => rfl
  | cons c codes ih =>
    obtain ⟨scalar, scalars⟩ := List.forall_mem_cons.mp scalars
    rw [List.length_cons, List.flatMap_cons, getAll, utf16Get_encode scalar]
    dsimp only
    rw [ih scalars, List.map_cons]

/-- What is written is a string, and it is read back to its end. -/
def RoundTrip (codes : List Nat) : Prop :=
  ∃ units, putAll codes = some units ∧ 0 ∉ units ∧ getAll codes.length units = (codes.map Int.ofNat, [])

/-- Any sequence of scalar values is read back, if none of them has a pair that ends in the
first or the last low surrogate. -/
theorem utf16_round_trip_iff (codes : List Nat) (scalars : ∀ c ∈ codes, Scalar c ∧ c ≠ 0) :
    RoundTrip codes ↔ ∀ c ∈ codes, ¬ EndsPair c := by
  have plain : ∀ c ∈ codes, Scalar c := fun c member => (scalars c member).1
  have zero : 0 ∉ codes.flatMap encode16 := by
    intro member
    obtain ⟨c, member, unit⟩ := List.mem_flatMap.mp member
    exact zero_not_mem_encode16 (scalars c member).1.1 (scalars c member).2 unit
  have values : ∀ c : Nat, (if EndsPair c then -1 else (c : Int)) = c ↔ ¬ EndsPair c := by
    intro c
    by_cases ends : EndsPair c
    · rw [if_pos ends]
      exact ⟨fun same => by omega, fun other => absurd ends other⟩
    · rw [if_neg ends]
      exact ⟨fun _ => ends, fun _ => rfl⟩
  constructor
  · rintro ⟨units, put, -, got⟩ c member
    rw [putAll_encode plain, Option.some.injEq] at put
    rw [← put, getAll_encode _ plain, Prod.mk.injEq, List.map_inj_left] at got
    exact (values c).mp (got.1 c member)
  · intro inner
    refine ⟨_, putAll_encode plain, zero, ?_⟩
    rw [getAll_encode _ plain, Prod.mk.injEq, List.map_inj_left]
    exact ⟨fun c member => (values c).mpr (inner c member), rfl⟩

theorem round_trip_clef : (Scalar 0x1D11E ∧ 0x1D11E ≠ 0) ∧ RoundTrip [0x1D11E] := by
  have scalar : Scalar 0x1D11E ∧ 0x1D11E ≠ 0 := by decide
  have scalars : ∀ c ∈ [0x1D11E], Scalar c ∧ c ≠ 0 := List.forall_mem_singleton.mpr scalar
  exact ⟨scalar, (utf16_round_trip_iff _ scalars).mpr (List.forall_mem_singleton.mpr (by decide))⟩

/-- The first code point with a pair is written as one, and read as an error. -/
theorem first_pair_lost :
    Scalar 0x10000 ∧ putAll [0x10000] = some [0xD800, 0xDC00] ∧ getAll 1 [0xD800, 0xDC00] = ([-1], []) ∧
      ¬ RoundTrip [0x10000] := by
  refine ⟨by decide, rfl, rfl, ?_⟩
  rintro ⟨units, put, -, got⟩
  cases put
  revert got
  decide

end RockOs.Utf16Codec
