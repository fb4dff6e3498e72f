import RockOs.Charset

/-! UTF-8 as `utf8_get` reads it and `utf8_put` writes it. What is written is read back;
of what is read, the overlong forms and the surrogates of three and four bytes are not
what would be written. -/
namespace RockOs.Utf8Codec
open Charset UnicodeForms

/-! ## Writing -/

theorem utf8Put_encode (scalar : Scalar c) : utf8Put c = some (encode8 c) := by
  obtain ⟨range, plain⟩ := scalar
  unfold utf8Put encode8 Surrogate at *
  dsimp only
  rw [if_neg (by omega), Int.toNat_natCast]
  by_cases one : c < 0x80
  · have whole : ((c : Int) % 256).toNat = c := by omega
    rw [if_pos (by omega), if_pos one, whole]
  rw [if_neg (by omega), if_neg one, continuation]
  by_cases two : c < 0x800
  · rw [if_pos (by omega), if_pos two, lead_two two]
  rw [if_neg (by omega), if_neg two, continuation_six]
  by_cases three : c < 0x10000
  · rw [if_pos three, if_pos three, lead_three three]
  · rw [if_neg three, if_neg three, lead_four (by omega), continuation_twelve]

private theorem utf8Put_refused (refused : ¬ Scalar c) : utf8Put c = none := by
  unfold Scalar Surrogate at refused
  exact if_pos (by omega)

/-! ## Reading -/

/-- A byte that continues a code point. -/
def Continuation (c : UInt8) : Prop := 0x80 ≤ c.toNat ∧ c.toNat ≤ 0xbf

instance : Decidable (Continuation c) := inferInstanceAs (Decidable (_ ∧ _))

private theorem noContinuation_iff : noContinuation c ↔ ¬ Continuation c := by
  unfold noContinuation Continuation
  rw [UInt8.lt_iff_toNat_lt, UInt8.lt_iff_toNat_lt]
  show c.toNat < 128 ∨ 191 < c.toNat ↔ _
  omega

/-- The bits of two bytes, of three and of four. -/
def value2 (c d : UInt8) : Nat := (c.toNat - 0xC0) * 64 + (d.toNat - 0x80)

def value3 (c d e : UInt8) : Nat := (c.toNat - 0xE0) * 4096 + (d.toNat - 0x80) * 64 + (e.toNat - 0x80)

def value4 (c d e f : UInt8) : Nat :=
  (c.toNat - 0xF0) * 262144 + (d.toNat - 0x80) * 4096 + (e.toNat - 0x80) * 64 + (f.toNat - 0x80)

theorem Continuation.bits (more : Continuation d) : d.toNat % 64 = d.toNat - 0x80 := by
  unfold Continuation at more
  omega

private theorem getLast_cons (code ch : Nat) (d : UInt8) (data : List UInt8) :
    getLast readString code ch (d :: data) =
      if Continuation d then ⟨(code + ch % 64 * 64 + (d.toNat - 0x80) : Nat), false, data⟩ else .failed data := by
  have unfolded : getLast readString code ch (d :: data) =
      if noContinuation d then .failed data
      else ⟨((d.toNat &&& 0x3f) + (code + (ch &&& 0x3f) <<< 6) : Nat), false, data⟩ := rfl
  rw [unfolded]
  by_cases more : Continuation d
  · rw [if_neg (noContinuation_iff.not.mpr (not_not.mpr more)), if_pos more, six_bits, six_bits, Nat.shiftLeft_eq,
      more.bits, Nat.add_comm]
  · rw [if_pos (noContinuation_iff.mpr more), if_neg more]

/-- The range test sees nothing but the bits of the first one or two bytes. -/
theorem getMiddle_cons (code ch : Nat) (d : UInt8) (data : List UInt8) (page : 4096 ∣ code) :
    getMiddle readString code ch (d :: data) =
      if 0x110000 ≤ code + ch * 4096 then .failed (d :: data)
      else if Continuation d then getLast readString (code + ch * 4096) d.toNat data else .failed data := by
  have unfolded : getMiddle readString code ch (d :: data) =
      if (0xD800 ≤ code + ch <<< 12 ∧ code + ch <<< 12 ≤ 0xDFFF) ∨ 0x110000 ≤ code + ch <<< 12 then .failed (d :: data)
      else if noContinuation d then .failed data else getLast readString (code + ch <<< 12) d.toNat data := rfl
  rw [unfolded, Nat.shiftLeft_eq, show 2 ^ 12 = 4096 from rfl]
  by_cases large : 0x110000 ≤ code + ch * 4096
  · rw [if_pos (.inr large), if_pos large]
  rw [if_neg (by omega), if_neg large]
  by_cases more : Continuation d
  · rw [if_neg (noContinuation_iff.not.mpr (not_not.mpr more)), if_pos more]
  · rw [if_pos (noContinuation_iff.mpr more), if_neg more]

/-- The strings from which a code point is read without an error, the code point and what
is left. -/
inductive Reads : (src : List UInt8) → (code : Nat) → (rest : List UInt8) → Prop
  | ended : Reads [] 0 []
  | one {c : UInt8} (char : c ≠ 0) (lead : c.toNat < 0x80) : Reads (c :: rest) c.toNat rest
  | two {c d : UInt8} (lead : 0xc2 ≤ c.toNat) (lead' : c.toNat < 0xe0) (more : Continuation d) :
      Reads (c :: d :: rest) (value2 c d) rest
  | three {c d e : UInt8} (lead : 0xe0 ≤ c.toNat) (lead' : c.toNat < 0xf0) (more : Continuation d)
      (more' : Continuation e) : Reads (c :: d :: e :: rest) (value3 c d e) rest
  | four {c d e f : UInt8} (lead : 0xf0 ≤ c.toNat) (range : value4 c d e f < 0x110000) (more : Continuation d)
      (more' : Continuation e) (more'' : Continuation f) : Reads (c :: d :: e :: f :: rest) (value4 c d e f) rest

/-- By the first byte. -/
theorem utf8Get_cons (c : UInt8) (data : List UInt8) :
    utf8Get (c :: data) =
      if c = 0 then ⟨0, false, data⟩
      else if c.toNat < 0x80 then ⟨c.toNat, false, data⟩
      else if c.toNat < 0xc2 ∨ 0xf4 < c.toNat then .failed data
      else if c.toNat < 0xe0 then getLast readString 0 c.toNat data
      else if c.toNat < 0xf0 then getMiddle readString 0 (c.toNat - 0xe0) data
      else match data with
        | [] => .failed []
        | d :: data =>
          if Continuation d then getMiddle readString ((c.toNat - 0xf0) * 262144) (d.toNat - 0x80) data
          else .failed data := by
  have unfolded : utf8Get (c :: data) =
      if c = 0 then ⟨0, false, data⟩
      else if 0xc2 ≤ c.toNat ∧ c.toNat ≤ 0xf4 then
        if 0xe0 ≤ c.toNat then
          if 0xf0 ≤ c.toNat then
            if noContinuation (readString data).1 then .failed (readString data).2
            else getMiddle readString ((c.toNat &&& 0x07) <<< 18) ((readString data).1.toNat &&& 0x3f)
              (readString data).2
          else getMiddle readString 0 (c.toNat &&& 0x0f) data
        else getLast readString 0 c.toNat data
      else if 0x80 ≤ c.toNat then .failed data
      else ⟨c.toNat, false, data⟩ := rfl
  rw [unfolded]
  by_cases zero : c = 0
  · rw [if_pos zero, if_pos zero]
  rw [if_neg zero, if_neg zero]
  by_cases one : c.toNat < 0x80
  · rw [if_neg (by omega), if_neg (by omega), if_pos one]
  rw [if_neg one]
  by_cases none : c.toNat < 0xc2 ∨ 0xf4 < c.toNat
  · rw [if_neg (by omega), if_pos (by omega), if_pos none]
  rw [if_pos (by omega), if_neg none]
  by_cases two : c.toNat < 0xe0
  · rw [if_neg (by omega), if_pos two]
  rw [if_pos (by omega), if_neg two]
  by_cases three : c.toNat < 0xf0
  · have bits : c.toNat &&& 0x0f = c.toNat - 0xe0 := by
      rw [show 0x0f = 2 ^ 4 - 1 from rfl, Nat.and_two_pow_sub_one_eq_mod]
      omega
    rw [if_neg (by omega), if_pos three, bits]
  · have bits : (c.toNat &&& 0x07) <<< 18 = (c.toNat - 0xf0) * 262144 := by
      rw [show 0x07 = 2 ^ 3 - 1 from rfl, Nat.and_two_pow_sub_one_eq_mod, Nat.shiftLeft_eq]
      omega
    rw [if_pos (by omega), if_neg three, bits]
    cases data with
    | nil => rfl
    | cons d data =>
      show (if noContinuation d then _ else _) = _
      by_cases more : Continuation d
      · rw [if_neg (noContinuation_iff.not.mpr (not_not.mpr more)), readString, six_bits, more.bits]
        exact (if_pos more).symm
      · rw [if_pos (noContinuation_iff.mpr more)]
        exact (if_neg more).symm

theorem utf8Get_of_reads (reads : Reads s code rest) : utf8Get s = ⟨code, false, rest⟩ := by
  cases reads with
  | ended => rfl
  | one char lead => rw [utf8Get_cons, if_neg char, if_pos lead]
  | @two _ c d lead lead' more =>
    have value : 0 + c.toNat % 64 * 64 + (d.toNat - 0x80) = value2 c d := by
      unfold value2
      omega
    rw [utf8Get_cons, if_neg (UInt8.pos_iff_ne_zero.mp (show 0 < c.toNat by omega)), if_neg (by omega),
      if_neg (by omega), if_pos lead', getLast_cons, if_pos more, value]
  | @three _ c d e lead lead' more more' =>
    have value : 0 + (c.toNat - 0xe0) * 4096 + d.toNat % 64 * 64 + (e.toNat - 0x80) = value3 c d e := by
      unfold value3
      rw [more.bits]
      omega
    rw [utf8Get_cons, if_neg (UInt8.pos_iff_ne_zero.mp (show 0 < c.toNat by omega)), if_neg (by omega),
      if_neg (by omega), if_neg (by omega),
      if_pos lead', getMiddle_cons _ _ _ _ (Nat.dvd_zero _), if_neg (by omega), if_pos more, getLast_cons, if_pos more',
      value]
  | @four _ c d e f lead range more more' more'' =>
    have value : (c.toNat - 0xf0) * 262144 + (d.toNat - 0x80) * 4096 + e.toNat % 64 * 64 + (f.toNat - 0x80) =
        value4 c d e f := by
      unfold value4
      rw [more'.bits]
    unfold value4 at range
    rw [utf8Get_cons, if_neg (UInt8.pos_iff_ne_zero.mp (show 0 < c.toNat by omega)), if_neg (by omega),
      if_neg (by omega), if_neg (by omega), if_neg (by omega)]
    dsimp only
    rw [if_pos more, getMiddle_cons _ _ _ _ (by omega), if_neg (by omega), if_pos more', getLast_cons, if_pos more'',
      value]

private theorem getLast_accepts (read : (getLast readString code ch data).error = false) :
    ∃ d rest, data = d :: rest ∧ Continuation d := by
  cases data with
  | nil => cases read
  | cons d rest =>
    refine ⟨d, rest, rfl, ?_⟩
    by_contra other
    rw [getLast_cons, if_neg other] at read
    cases read

private theorem getMiddle_accepts (page : 4096 ∣ code) (read : (getMiddle readString code ch data).error = false) :
    ∃ d e rest, data = d :: e :: rest ∧ code + ch * 4096 < 0x110000 ∧ Continuation d ∧ Continuation e := by
  cases data with
  | nil =>
    unfold getMiddle at read
    dsimp only at read
    split at read <;> cases read
  | cons d data =>
    rw [getMiddle_cons _ _ _ _ page] at read
    by_cases large : 0x110000 ≤ code + ch * 4096
    · rw [if_pos large] at read
      cases read
    by_cases more : Continuation d
    · rw [if_neg large, if_pos more] at read
      obtain ⟨e, rest, rfl, more'⟩ := getLast_accepts read
      exact ⟨d, e, rest, rfl, Nat.lt_of_not_le large, more, more'⟩
    · rw [if_neg large, if_neg more] at read
      cases read

/-- The range test is made before the last two bytes. -/
theorem value4_lt (range : (c.toNat - 0xf0) * 262144 + (d.toNat - 0x80) * 4096 < 0x110000) (more' : Continuation e)
    (more'' : Continuation f) : value4 c d e f < 0x110000 := by
  replace range : (c.toNat - 0xf0) * 64 + (d.toNat - 0x80) < 272 := by omega
  have low : (e.toNat - 0x80) * 64 + (f.toNat - 0x80) < 4096 := by
    unfold Continuation at more' more''
    omega
  unfold value4
  omega

theorem reads_of_utf8Get (clean : 0 ∉ s) (read : (utf8Get s).error = false) : ∃ code rest, Reads s code rest := by
  cases s with
  | nil => exact ⟨0, [], .ended⟩
  | cons c data =>
    have char : c ≠ 0 := fun zero => clean (zero ▸ List.mem_cons_self)
    rw [utf8Get_cons, if_neg char] at read
    by_cases one : c.toNat < 0x80
    · exact ⟨_, data, .one char one⟩
    rw [if_neg one] at read
    by_cases none : c.toNat < 0xc2 ∨ 0xf4 < c.toNat
    · rw [if_pos none] at read
      cases read
    rw [if_neg none] at read
    by_cases two : c.toNat < 0xe0
    · rw [if_pos two] at read
      obtain ⟨d, rest, rfl, more⟩ := getLast_accepts read
      exact ⟨_, rest, .two (by omega) two more⟩
    rw [if_neg two] at read
    by_cases three : c.toNat < 0xf0
    · rw [if_pos three] at read
      obtain ⟨d, e, rest, rfl, -, more, more'⟩ := getMiddle_accepts (Nat.dvd_zero _) read
      exact ⟨_, rest, .three (by omega) three more more'⟩
    rw [if_neg three] at read
    cases data with
    | nil => cases read
    | cons d data =>
      dsimp only at read
      by_cases more : Continuation d
      · rw [if_pos more] at read
        obtain ⟨e, f, rest, rfl, range, more', more''⟩ := getMiddle_accepts (by omega) read
        exact ⟨_, rest, .four (Nat.le_of_not_lt three) (value4_lt range more' more'') more more' more''⟩
      · rw [if_neg more] at read
        cases read

/-- What is left is a part of what was there, and an error gives the replacement
character. -/
structure Bounded (src : List UInt8) (got : Decoded (List UInt8)) : Prop where
  rest : got.rest <:+ src
  replaced : got.error = true → got.code = replacement.toNat

theorem Bounded.failed (rest : data <:+ src) : Bounded src (.failed data) := ⟨rest, fun _ => rfl⟩

theorem Bounded.read (rest : data <:+ src) : Bounded src ⟨code, false, data⟩ := ⟨rest, nofun⟩

theorem Bounded.trans (bounded : Bounded data got) (rest : data <:+ src) : Bounded src got :=
  ⟨bounded.rest.trans rest, bounded.replaced⟩

private theorem getLast_bounded (code ch : Nat) (data : List UInt8) :
    Bounded data (getLast readString code ch data) := by
  cases data with
  | nil => exact .failed List.suffix_rfl
  | cons d data =>
    rw [getLast_cons]
    split
    · exact .read (List.suffix_cons d data)
    · exact .failed (List.suffix_cons d data)

private theorem getMiddle_bounded (page : 4096 ∣ code) (data : List UInt8) :
    Bounded data (getMiddle readString code ch data) := by
  cases data with
  | nil =>
    unfold getMiddle
    dsimp only
    split <;> exact .failed List.suffix_rfl
  | cons d data =>
    rw [getMiddle_cons _ _ _ _ page]
    split
    · exact .failed List.suffix_rfl
    split
    · exact (getLast_bounded _ _ data).trans (List.suffix_cons d data)
    · exact .failed (List.suffix_cons d data)

theorem utf8Get_bounded (c : UInt8) (data : List UInt8) : Bounded data (utf8Get (c :: data)) := by
  rw [utf8Get_cons]
  split
  · exact .read List.suffix_rfl
  split
  · exact .read List.suffix_rfl
  split
  · exact .failed List.suffix_rfl
  split
  · exact getLast_bounded _ _ data
  split
  · exact getMiddle_bounded (Nat.dvd_zero _) data
  cases data with
  | nil => exact .failed List.suffix_rfl
  | cons d data =>
    dsimp only
    split
    · exact (getMiddle_bounded (by omega) data).trans (List.suffix_cons d data)
    · exact .failed (List.suffix_cons d data)

theorem Reads.range (reads : Reads s code rest) : code < 0x110000 := by
  cases reads with
  | ended => decide
  | one char lead => omega
  | @two rest c d lead lead' more =>
    unfold Continuation at more
    unfold value2
    omega
  | @three rest c d e lead lead' more more' =>
    unfold Continuation at more more'
    unfold value3
    omega
  | four lead range more more' more'' => exact range

theorem utf8Get_code (clean : 0 ∉ s) : ∃ c < 0x110000, (utf8Get s).code = (c : Nat) := by
  cases error : (utf8Get s).error with
  | false =>
    obtain ⟨code, rest, reads⟩ := reads_of_utf8Get clean error
    exact ⟨code, reads.range, by rw [utf8Get_of_reads reads]⟩
  | true =>
    cases s with
    | nil => cases error
    | cons c data => exact ⟨_, by decide, (utf8Get_bounded c data).replaced error⟩

/-! ## Both -/

private theorem byte_eq (c : UInt8) (same : n = c.toNat) : UInt8.ofNat n = c := by
  rw [same, UInt8.ofNat_toNat]

private theorem encode_value2 (lead : 0xc2 ≤ c.toNat) (lead' : c.toNat < 0xe0) (more : Continuation d) :
    encode8 (value2 c d) = [c, d] := by
  unfold Continuation at more
  unfold value2
  rw [encode8, if_neg (by omega), if_pos (by omega), byte_eq c (by omega), byte_eq d (by omega)]

private theorem encode_value3 (lead : 0xe0 ≤ c.toNat) (lead' : c.toNat < 0xf0) (more : Continuation d)
    (more' : Continuation e) (long : 0x800 ≤ value3 c d e) : encode8 (value3 c d e) = [c, d, e] := by
  unfold Continuation at more more'
  unfold value3 at long ⊢
  rw [encode8, if_neg (by omega), if_neg (by omega), if_pos (by omega), byte_eq c (by omega), byte_eq d (by omega),
    byte_eq e (by omega)]

private theorem encode_value4 (lead : 0xf0 ≤ c.toNat) (more : Continuation d) (more' : Continuation e)
    (more'' : Continuation f) (long : 0x10000 ≤ value4 c d e f) : encode8 (value4 c d e f) = [c, d, e, f] := by
  unfold Continuation at more more' more''
  unfold value4 at long ⊢
  rw [encode8, if_neg (by omega), if_neg (by omega), if_neg (by omega), byte_eq c (by omega), byte_eq d (by omega),
    byte_eq e (by omega), byte_eq f (by omega)]

private theorem same_reads (same : code = c) (reads : Reads src code rest) : Reads src c rest := same ▸ reads

private theorem reads_encode (positive : c ≠ 0) (scalar : c < 0x110000) : Reads (encode8 c ++ rest) c rest := by
  have more (n : Nat) : Continuation (UInt8.ofNat (0x80 + n % 64)) := by
    unfold Continuation
    rw [UInt8.toNat_ofNat_of_lt' (show _ < 256 by omega)]
    omega
  unfold encode8
  by_cases one : c < 0x80
  · rw [if_pos one]
    have same : (UInt8.ofNat c).toNat = c := UInt8.toNat_ofNat_of_lt' (show _ < 256 by omega)
    exact same_reads same (.one (UInt8.pos_iff_ne_zero.mp (show 0 < (UInt8.ofNat c).toNat by omega)) (by omega))
  rw [if_neg one]
  by_cases two : c < 0x800
  · rw [if_pos two]
    have lead : (UInt8.ofNat (0xC0 + c / 64)).toNat = 0xC0 + c / 64 := UInt8.toNat_ofNat_of_lt' (show _ < 256 by omega)
    have same : value2 (UInt8.ofNat (0xC0 + c / 64)) (UInt8.ofNat (0x80 + c % 64)) = c := by
      unfold value2
      rw [lead, UInt8.toNat_ofNat_of_lt' (show _ < 256 by omega)]
      omega
    exact same_reads same (.two (by omega) (by omega) (more c))
  rw [if_neg two]
  by_cases three : c < 0x10000
  · rw [if_pos three]
    have lead : (UInt8.ofNat (0xE0 + c / 4096)).toNat = 0xE0 + c / 4096 :=
        UInt8.toNat_ofNat_of_lt' (show _ < 256 by omega)
    have same : value3 (UInt8.ofNat (0xE0 + c / 4096)) (UInt8.ofNat (0x80 + c / 64 % 64))
        (UInt8.ofNat (0x80 + c % 64)) = c := by
      unfold value3
      rw [lead, UInt8.toNat_ofNat_of_lt' (show _ < 256 by omega), UInt8.toNat_ofNat_of_lt' (show _ < 256 by omega)]
      omega
    exact same_reads same (.three (by omega) (by omega) (more (c / 64)) (more c))
  · rw [if_neg three]
    have lead : (UInt8.ofNat (0xF0 + c / 262144)).toNat = 0xF0 + c / 262144 :=
        UInt8.toNat_ofNat_of_lt' (show _ < 256 by omega)
    have same : value4 (UInt8.ofNat (0xF0 + c / 262144)) (UInt8.ofNat (0x80 + c / 4096 % 64))
        (UInt8.ofNat (0x80 + c / 64 % 64)) (UInt8.ofNat (0x80 + c % 64)) = c := by
      unfold value4
      rw [lead, UInt8.toNat_ofNat_of_lt' (show _ < 256 by omega), UInt8.toNat_ofNat_of_lt' (show _ < 256 by omega),
        UInt8.toNat_ofNat_of_lt' (show _ < 256 by omega)]
      omega
    exact same_reads same (.four (by omega) (by omega) (more (c / 4096)) (more (c / 64)) (more c))

/-- Three bytes for less than `0x800` or for a surrogate, and four for less than
`0x10000`. -/
inductive Misencoded : List UInt8 → Prop
  | overlong3 {d : UInt8} (second : d.toNat < 0xa0) (more : Continuation d) (more' : Continuation e) :
      Misencoded (0xe0 :: d :: e :: rest)
  | surrogate {d : UInt8} (second : 0xa0 ≤ d.toNat) (more : Continuation d) (more' : Continuation e) :
      Misencoded (0xed :: d :: e :: rest)
  | overlong4 {d : UInt8} (second : d.toNat < 0x90) (more : Continuation d) (more' : Continuation e)
      (more'' : Continuation f) : Misencoded (0xf0 :: d :: e :: f :: rest)

/-- What is read without an error is the end of the string, or a code point that would be
written with the bytes it was read from. -/
def Exact (s : List UInt8) : Prop :=
  (utf8Get s).error = false →
    ((utf8Get s).code = 0 → s = []) ∧
      ((utf8Get s).code ≠ 0 → ∃ used, utf8Put (utf8Get s).code = some used ∧ s = used ++ (utf8Get s).rest)

private theorem exact_iff (reads : Reads s code rest) :
    Exact s ↔ s = [] ∨ code ≠ 0 ∧ Scalar code ∧ s = encode8 code ++ rest := by
  unfold Exact
  rw [utf8Get_of_reads reads]
  constructor
  · intro exact
    obtain ⟨ended, bytes⟩ := exact rfl
    by_cases zero : code = 0
    · exact .inl (ended (congrArg _ zero))
    obtain ⟨used, put, split⟩ := bytes (Int.natCast_ne_zero.mpr zero)
    have scalar : Scalar code := by
      by_contra refused
      rw [utf8Put_refused refused] at put
      cases put
    rw [utf8Put_encode scalar, Option.some.injEq] at put
    exact .inr ⟨zero, scalar, put ▸ split⟩
  · rintro (rfl | ⟨positive, scalar, split⟩) -
    · cases reads
      exact ⟨fun _ => rfl, fun positive => absurd rfl positive⟩
    · exact ⟨fun zero => absurd (Int.natCast_eq_zero.mp zero) positive, fun _ => ⟨_, utf8Put_encode scalar, split⟩⟩

theorem byte_inj {c d : UInt8} (same : c.toNat = d.toNat) : c = d := UInt8.toNat_inj.mp same

/-- What is read from bytes of another form is what they are written for. -/
theorem Reads.exact (reads : Reads s code rest) (wellFormed : ¬ Misencoded s) : Exact s := by
  rw [exact_iff reads]
  have range := reads.range
  cases reads with
  | ended => exact .inl rfl
  | @one rest c char lead =>
    have positive : c.toNat ≠ 0 := fun zero => char (byte_inj zero)
    refine .inr ⟨positive, ⟨by omega, by unfold Surrogate; omega⟩, ?_⟩
    rw [encode8, if_pos lead, UInt8.ofNat_toNat]
    rfl
  | @two rest c d lead lead' more =>
    have range : 0x80 ≤ value2 c d ∧ value2 c d < 0x800 := by
      unfold Continuation at more
      unfold value2
      omega
    refine .inr ⟨by omega, ⟨by omega, by unfold Surrogate; omega⟩, ?_⟩
    rw [encode_value2 lead lead' more]
    rfl
  | @three rest c d e lead lead' more more' =>
    -- the code never asks for the shortest form
    have long : 0x800 ≤ value3 c d e := by
      by_contra short
      unfold value3 at short
      obtain rfl : c = 0xe0 := byte_inj (show c.toNat = 0xe0 by omega)
      exact wellFormed (.overlong3 (by omega) more more')
    have scalar : ¬ Surrogate (value3 c d e) := by
      intro surrogate
      unfold Surrogate value3 at surrogate
      unfold Continuation at more more'
      obtain rfl : c = 0xed := byte_inj (show c.toNat = 0xed by omega)
      exact wellFormed (.surrogate (by omega) more more')
    refine .inr ⟨by omega, ⟨range, scalar⟩, ?_⟩
    rw [encode_value3 lead lead' more more' long]
    rfl
  | @four rest c d e f lead _ more more' more'' =>
    have long : 0x10000 ≤ value4 c d e f := by
      by_contra short
      unfold value4 at short
      obtain rfl : c = 0xf0 := byte_inj (show c.toNat = 0xf0 by omega)
      exact wellFormed (.overlong4 (by omega) more more' more'')
    refine .inr ⟨by omega, ⟨range, by unfold Surrogate; omega⟩, ?_⟩
    rw [encode_value4 lead more more' more'' long]
    rfl

private theorem Misencoded.not_exact (bad : Misencoded s) : ¬ Exact s := by
  cases bad with
  | @overlong3 e rest d second more more' =>
    rw [exact_iff (.three (Nat.le_refl _) (by decide) more more')]
    rintro (none | ⟨-, -, split⟩)
    · cases none
    have short : value3 0xe0 d e < 0x800 := by
      unfold Continuation at more'
      unfold value3
      show (224 - 224) * 4096 + _ + _ < 2048
      omega
    have lengths := congrArg List.length split
    have bytes := encode8_length (value3 0xe0 d e)
    simp only [List.length_append, List.length_cons] at lengths
    split_ifs at bytes <;> omega
  | @surrogate e rest d second more more' =>
    rw [exact_iff (.three (by decide) (by decide) more more')]
    rintro (none | ⟨-, scalar, -⟩)
    · cases none
    apply scalar.2
    unfold Continuation at more more'
    unfold Surrogate value3
    show 0xD800 ≤ (237 - 224) * 4096 + _ + _ ∧ (237 - 224) * 4096 + _ + _ ≤ 0xDFFF
    omega
  | @overlong4 e f rest d second more more' more'' =>
    have short : value4 0xf0 d e f < 0x10000 := by
      unfold Continuation at more' more''
      unfold value4
      show (240 - 240) * 262144 + _ + _ + _ < 65536
      omega
    rw [exact_iff (.four (Nat.le_refl _) (by omega) more more' more'')]
    rintro (none | ⟨-, -, split⟩)
    · cases none
    have lengths := congrArg List.length split
    have bytes := encode8_length (value4 0xf0 d e f)
    simp only [List.length_append, List.length_cons] at lengths
    split_ifs at bytes <;> omega

/-- Every scalar value is read back from what is written for it. A string that is not read
with an error is read as what it was written for, if it does not start with one of the
forms that only the last bytes show to be wrong. -/
theorem utf8_decoding_iff (s : List UInt8) (clean : 0 ∉ s) :
    (Exact s ↔ ¬ Misencoded s) ∧
      ∀ c rest, Scalar c → c ≠ 0 → ∃ bytes, utf8Put c = some bytes ∧ utf8Get (bytes ++ rest) = ⟨c, false, rest⟩ := by
  refine ⟨⟨fun exact bad => bad.not_exact exact, fun wellFormed read => ?_⟩, fun c rest scalar positive => ?_⟩
  · obtain ⟨code, rest, reads⟩ := reads_of_utf8Get clean read
    exact reads.exact wellFormed read
  · exact ⟨encode8 c, utf8Put_encode scalar, utf8Get_of_reads (reads_encode positive scalar.1)⟩

theorem utf8_decoding_euro : (0 : UInt8) ∉ [0xe2, 0x82, 0xac] ∧ Exact [0xe2, 0x82, 0xac] := by
  have clean : (0 : UInt8) ∉ [0xe2, 0x82, 0xac] := by decide
  refine ⟨clean, (utf8_decoding_iff _ clean).1.mpr ?_⟩
  rintro ⟨⟩

/-- The first surrogate is read from three bytes, and `utf8_put` does not write it. -/
theorem surrogate_read :
    utf8Get [0xed, 0xa0, 0x80] = ⟨0xD800, false, []⟩ ∧ utf8Put 0xD800 = none ∧ ¬ Exact [0xed, 0xa0, 0x80] :=
  ⟨rfl, rfl, (Misencoded.surrogate (Nat.le_refl _) (by decide) (by decide)).not_exact⟩

end RockOs.Utf8Codec
