import Mathlib.Data.List.TakeWhile
import RockOs.Utf8Codec
import RockOs.Utf16Codec

/-! The lengths that are computed for a buffer, against what the conversions write. From
UTF-16 to UTF-8 they agree. From UTF-8 to UTF-16 the length ends at a code point that is
read as zero, and the copy does not. -/
namespace RockOs.CharsetLengths
open Charset UnicodeForms Utf8Codec Utf16Codec

/-! ## From UTF-16 -/

private theorem utf16Strnlen_cons (got : utf16Get (u :: src) = (code, rest)) (more : code ≠ 0) :
    utf16Utf8Strnlen (count + 1) (u :: src) =
      ((utf16Utf8Strnlen count rest).1 +
        (if code < 0x80 then 1 else if code < 0x800 then 2 else if code < 0x10000 then 3 else 4),
        (utf16Utf8Strnlen count rest).2) := by
  rw [utf16Utf8Strnlen, got]
  dsimp only
  rw [if_neg more]
  by_cases negative : code < 0
  · rw [if_pos negative, if_pos (by omega)]
  rw [if_neg negative]
  split
  · rfl
  split
  · rfl
  split <;> rfl

private theorem utf16Strncpy_cons (got : utf16Get (u :: src) = (code, rest)) :
    utf16Utf8Strncpy (count + 1) (u :: src) =
      ((utf8Put (replaced code)).getD [] ++ (utf16Utf8Strncpy count rest).1, (utf16Utf8Strncpy count rest).2) := by
  rw [utf16Utf8Strncpy, got]

private theorem encode8_counted (c : Nat) :
    (encode8 c).length = if (c : Int) < 0x80 then 1 else if (c : Int) < 0x800 then 2 else if (c : Int) < 0x10000 then 3
      else 4 := by
  exact_mod_cast encode8_length c

/-- As many bytes are written as were counted, from the same units. -/
theorem utf16_utf8_length (count : Nat) (src : List UInt16) (string : 0 ∉ src) :
    (utf16Utf8Strncpy count src).1.length = (utf16Utf8Strnlen count src).1 ∧
      (utf16Utf8Strncpy count src).2 = (utf16Utf8Strnlen count src).2 := by
  induction count generalizing src with
  | zero => exact ⟨rfl, rfl⟩
  | succ count ih =>
    cases src with
    | nil => exact ⟨rfl, rfl⟩
    | cons u src =>
      obtain ⟨rest, suffix, result⟩ := utf16Get_result u src string
      have later := ih rest fun zero => string (List.mem_cons_of_mem u (suffix.mem zero))
      obtain failed | ⟨c, scalar, positive, got⟩ := result
      · rw [utf16Strncpy_cons failed, utf16Strnlen_cons failed (by decide), ← later.1, ← later.2]
        exact ⟨rfl, rfl⟩
      · have plain : replaced (c : Int) = c := if_neg (by omega)
        rw [utf16Strncpy_cons got, utf16Strnlen_cons got (by omega), ← later.1, ← later.2, plain,
          utf8Put_encode scalar, ← encode8_counted, Option.getD_some, List.length_append]
        exact ⟨Nat.add_comm _ _, rfl⟩

/-- A broken pair, an unpaired surrogate and a letter. -/
theorem broken_pair_length :
    0 ∉ [0xD800, 0x61, 0xDC01, (0x62 : UInt16)] ∧
      (utf16Utf8Strncpy 9 [0xD800, 0x61, 0xDC01, 0x62]).1.length =
        (utf16Utf8Strnlen 9 [0xD800, 0x61, 0xDC01, 0x62]).1 := by
  have string : 0 ∉ [0xD800, 0x61, 0xDC01, (0x62 : UInt16)] := by decide
  exact ⟨string, (utf16_utf8_length 9 _ string).1⟩

/-! ## From UTF-8 -/

/-- What the copy reads. -/
def codesRead : (count : Nat) → (src : List UInt8) → List Int
  | 0, _ => []
  | _ + 1, [] => []
  | count + 1, c :: src => (utf8Get (c :: src)).code :: codesRead count (utf8Get (c :: src)).rest

/-- The units that are counted for a code. -/
def counted (code : Int) : Nat := if code < 0x10000 then 1 else 2

/-- The units that are written for a code. -/
def written (code : Int) : Nat := ((utf16Put (replaced code)).getD []).length

private theorem codesRead_range (string : 0 ∉ src) : ∀ code ∈ codesRead count src, 0 ≤ code ∧ code < 0x110000 := by
  induction count generalizing src with
  | zero => exact nofun
  | succ count ih =>
    cases src with
    | nil => exact nofun
    | cons c src =>
      obtain ⟨code, range, got⟩ := utf8Get_code string
      rw [codesRead, List.forall_mem_cons, got]
      refine ⟨by omega, ih fun zero => string (List.mem_cons_of_mem c ?_)⟩
      exact (utf8Get_bounded c src).rest.mem zero

private theorem strncpy_length (count : Nat) (src : List UInt8) :
    (utf8Utf16Strncpy count src).length = ((codesRead count src).map written).sum := by
  induction count generalizing src with
  | zero => rfl
  | succ count ih =>
    cases src with
    | nil => rfl
    | cons c src =>
      rw [utf8Utf16Strncpy, List.length_append, ih, codesRead, List.map_cons, List.sum_cons]
      rfl

/-- The length ends at the first zero. -/
theorem strnlen_eq (count : Nat) (src : List UInt8) :
    utf8Utf16Strnlen count src = (((codesRead count src).takeWhile (· ≠ 0)).map counted).sum := by
  induction count generalizing src with
  | zero => rfl
  | succ count ih =>
    cases src with
    | nil => rfl
    | cons c src =>
      rw [utf8Utf16Strnlen, codesRead]
      -- the copy goes on here, the count does not
      by_cases zero : (utf8Get (c :: src)).code = 0
      · rw [if_pos zero, List.takeWhile_cons, if_neg fun more => absurd zero (of_decide_eq_true more)]
        rfl
      rw [if_neg zero, List.takeWhile_cons, if_pos (decide_eq_true zero), List.map_cons, List.sum_cons, ih, counted]
      by_cases plane : (utf8Get (c :: src)).code < 0x10000
      · rw [if_pos plane, if_pos plane, ite_self, Nat.add_comm]
      · rw [if_neg plane, if_neg plane, if_neg (by omega), Nat.add_comm]

/-- For a surrogate a unit is counted and none is written. -/
theorem counted_eq (positive : 0 ≤ code) (range : code < 0x110000) :
    counted code = written code + if Surrogate code.toNat then 1 else 0 := by
  obtain ⟨c, rfl⟩ := Int.eq_ofNat_of_zero_le positive
  have plain : replaced (c : Int) = c := if_neg (by omega)
  unfold written counted
  rw [plain, Int.toNat_natCast]
  by_cases surrogate : Surrogate c
  · have ends := surrogate
    unfold Surrogate at ends
    have refused : utf16Put c = none := if_pos (by omega)
    rw [refused, if_pos surrogate, if_pos (by omega)]
    rfl
  · rw [if_neg surrogate, utf16Put_encode ⟨by omega, surrogate⟩, encode16, Option.getD_some]
    by_cases one : c < 0x10000
    · rw [if_pos one, if_pos (by omega)]
      rfl
    · rw [if_neg one, if_neg (by omega)]
      rfl

private theorem sum_counted (codes : List Int) (range : ∀ code ∈ codes, 0 ≤ code ∧ code < 0x110000) :
    (codes.map counted).sum = (codes.map written).sum + codes.countP (Surrogate ·.toNat) := by
  induction codes with
  | nil => rfl
  | cons code codes ih =>
    obtain ⟨⟨positive, small⟩, range⟩ := List.forall_mem_cons.mp range
    rw [List.map_cons, List.sum_cons, ih range, counted_eq positive small, List.map_cons, List.sum_cons,
      List.countP_cons]
    simp only [decide_eq_true_eq]
    omega

/-- A buffer of the length that is computed holds what is copied. -/
def Fits (count : Nat) (src : List UInt8) : Prop := (utf8Utf16Strncpy count src).length ≤ utf8Utf16Strnlen count src

instance : Decidable (Fits count src) := inferInstanceAs (Decidable (_ ≤ _))

theorem fits_iff (string : 0 ∉ src) :
    Fits count src ↔
      (((codesRead count src).dropWhile (· ≠ 0)).map written).sum ≤
        ((codesRead count src).takeWhile (· ≠ 0)).countP (Surrogate ·.toNat) := by
  have before : ∀ code ∈ (codesRead count src).takeWhile (· ≠ 0), 0 ≤ code ∧ code < 0x110000 :=
    fun code member => codesRead_range string code ((List.takeWhile_sublist _).mem member)
  have parts : ((codesRead count src).map written).sum =
      (((codesRead count src).takeWhile (· ≠ 0)).map written).sum +
        (((codesRead count src).dropWhile (· ≠ 0)).map written).sum := by
    rw [← List.sum_append, ← List.map_append, List.takeWhile_append_dropWhile]
  unfold Fits
  rw [strncpy_length, strnlen_eq, sum_counted _ before, parts]
  omega

/-- What is copied fits if no code is read as zero. Where one is, it fits exactly if the
units from there on are no more than the surrogates that were read before. -/
theorem utf8_utf16_length_iff (count : Nat) (src : List UInt8) (string : 0 ∉ src) :
    (0 ∉ codesRead count src → Fits count src) ∧
      (Fits count src ↔
        (((codesRead count src).dropWhile (· ≠ 0)).map written).sum ≤
          ((codesRead count src).takeWhile (· ≠ 0)).countP (Surrogate ·.toNat)) := by
  refine ⟨fun positive => ?_, fits_iff string⟩
  have all : (codesRead count src).dropWhile (· ≠ 0) = [] :=
    List.dropWhile_eq_nil_iff.mpr fun code member => decide_eq_true (ne_of_mem_of_not_mem member positive)
  rw [fits_iff string, all]
  exact Nat.zero_le _

/-- A zero is read where the string does not end: from the two overlong forms of it. -/
theorem zero_read_iff (c : UInt8) (src : List UInt8) (string : 0 ∉ c :: src) :
    (utf8Get (c :: src)).code = 0 ↔
      ∃ rest, c :: src = 0xe0 :: 0x80 :: 0x80 :: rest ∨ c :: src = 0xf0 :: 0x80 :: 0x80 :: 0x80 :: rest := by
  constructor
  · intro zero
    have read : (utf8Get (c :: src)).error = false := by
      by_contra error
      rw [(utf8Get_bounded c src).replaced (Bool.eq_true_of_not_eq_false error)] at zero
      cases zero
    obtain ⟨code, rest, reads⟩ := reads_of_utf8Get string read
    rw [utf8Get_of_reads reads] at zero
    obtain rfl : code = 0 := Int.natCast_eq_zero.mp zero
    refine ⟨rest, ?_⟩
    generalize same : 0 = code at reads
    cases reads with
    | one char lead => exact absurd (byte_inj same.symm) char
    | @two _ c d lead lead' more =>
      unfold value2 at same
      omega
    | @three _ c d e lead lead' more more' =>
      unfold value3 at same
      unfold Continuation at more more'
      obtain rfl : c = 0xe0 := byte_inj (show c.toNat = 0xe0 by omega)
      obtain rfl : d = 0x80 := byte_inj (show d.toNat = 0x80 by omega)
      obtain rfl : e = 0x80 := byte_inj (show e.toNat = 0x80 by omega)
      exact .inl rfl
    | @four _ c d e f lead range more more' more'' =>
      unfold value4 at same
      unfold Continuation at more more' more''
      obtain rfl : c = 0xf0 := byte_inj (show c.toNat = 0xf0 by omega)
      obtain rfl : d = 0x80 := byte_inj (show d.toNat = 0x80 by omega)
      obtain rfl : e = 0x80 := byte_inj (show e.toNat = 0x80 by omega)
      obtain rfl : f = 0x80 := byte_inj (show f.toNat = 0x80 by omega)
      exact .inr rfl
  · rintro ⟨rest, same | same⟩ <;> rw [same] <;> rfl

theorem length_fits_letters : (0 : UInt8) ∉ [0x61, 0xc3, 0xa4] ∧ Fits 3 [0x61, 0xc3, 0xa4] := by
  have string : (0 : UInt8) ∉ [0x61, 0xc3, 0xa4] := by decide
  exact ⟨string, (utf8_utf16_length_iff 3 _ string).1 (by decide)⟩

/-- After three bytes that are read as a zero the length ends, and a unit for the zero and
one for the letter are written. -/
theorem length_ends_early :
    utf8Utf16Strnlen 2 [0xe0, 0x80, 0x80, 0x61] = 0 ∧ utf8Utf16Strncpy 2 [0xe0, 0x80, 0x80, 0x61] = [0, 0x61] ∧
      ¬ Fits 2 [0xe0, 0x80, 0x80, 0x61] := by
  decide

end RockOs.CharsetLengths
