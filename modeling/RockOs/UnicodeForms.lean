import Mathlib.Data.Nat.Bitwise

/-! The two encoding forms of Unicode, by arithmetic on code points: bytes (UTF-8) and
16 bit units (UTF-16). -/
namespace RockOs.UnicodeForms

def HighSurrogate (c : Nat) : Prop := 0xD800 ≤ c ∧ c ≤ 0xDBFF

def LowSurrogate (c : Nat) : Prop := 0xDC00 ≤ c ∧ c ≤ 0xDFFF

def Surrogate (c : Nat) : Prop := 0xD800 ≤ c ∧ c ≤ 0xDFFF

/-- A code point that is no surrogate. -/
def Scalar (c : Nat) : Prop := c < 0x110000 ∧ ¬ Surrogate c

instance : Decidable (HighSurrogate c) := inferInstanceAs (Decidable (_ ∧ _))

instance : Decidable (LowSurrogate c) := inferInstanceAs (Decidable (_ ∧ _))

instance : Decidable (Surrogate c) := inferInstanceAs (Decidable (_ ∧ _))

instance : Decidable (Scalar c) := inferInstanceAs (Decidable (_ ∧ _))

/-- The bytes of a code point. -/
def encode8 (c : Nat) : List UInt8 :=
  if c < 0x80 then [UInt8.ofNat c]
  else if c < 0x800 then [UInt8.ofNat (0xC0 + c / 64), UInt8.ofNat (0x80 + c % 64)]
  else if c < 0x10000 then
    [UInt8.ofNat (0xE0 + c / 4096), UInt8.ofNat (0x80 + c / 64 % 64), UInt8.ofNat (0x80 + c % 64)]
  else
    [UInt8.ofNat (0xF0 + c / 262144), UInt8.ofNat (0x80 + c / 4096 % 64), UInt8.ofNat (0x80 + c / 64 % 64),
      UInt8.ofNat (0x80 + c % 64)]

theorem encode8_length (c : Nat) :
    (encode8 c).length = if c < 0x80 then 1 else if c < 0x800 then 2 else if c < 0x10000 then 3 else 4 := by
  unfold encode8
  split
  · rfl
  split
  · rfl
  split <;> rfl

/-- The code point of a surrogate pair. -/
def pairCode (high low : Nat) : Nat := (high - 0xD800) * 1024 + (low - 0xDC00) + 0x10000

/-- The units of a code point. -/
def encode16 (c : Nat) : List UInt16 :=
  if c < 0x10000 then [UInt16.ofNat c]
  else [UInt16.ofNat (0xD800 + (c - 0x10000) / 1024), UInt16.ofNat (0xDC00 + (c - 0x10000) % 1024)]

/-! ## Bits -/

/-- Bits put beside a constant. -/
theorem or_eq_add (a n : Nat) (small : b < 2 ^ n) : b ||| 2 ^ n * a = 2 ^ n * a + b := by
  rw [Nat.lor_comm, ← Nat.two_pow_add_eq_or_of_lt small]

theorem lead_two (small : c < 0x800) : c >>> 6 ||| 0xC0 = 0xC0 + c / 64 := by
  rw [Nat.shiftRight_eq_div_pow]
  exact or_eq_add 3 6 (by omega)

theorem lead_three (small : c < 0x10000) : c >>> 12 ||| 0xE0 = 0xE0 + c / 4096 := by
  rw [Nat.shiftRight_eq_div_pow]
  exact or_eq_add 7 5 (by omega)

theorem lead_four (small : c < 0x200000) : c >>> 18 ||| 0xF0 = 0xF0 + c / 262144 := by
  rw [Nat.shiftRight_eq_div_pow]
  exact or_eq_add 15 4 (by omega)

theorem six_bits (c : Nat) : c &&& 0x3F = c % 64 := Nat.and_two_pow_sub_one_eq_mod c 6

theorem continuation (c : Nat) : c &&& 0x3F ||| 0x80 = 0x80 + c % 64 := by
  rw [six_bits]
  exact or_eq_add 1 7 (by omega)

theorem continuation_six (c : Nat) : c >>> 6 &&& 0x3F ||| 0x80 = 0x80 + c / 64 % 64 := by
  rw [continuation, Nat.shiftRight_eq_div_pow]

theorem continuation_twelve (c : Nat) : c >>> 12 &&& 0x3F ||| 0x80 = 0x80 + c / 4096 % 64 := by
  rw [continuation, Nat.shiftRight_eq_div_pow]

end RockOs.UnicodeForms
