import Mathlib.Data.Nat.Bitwise

/-! Arithmetic on 64 bit machine words kept as natural numbers: wrapping
subtraction and masks that keep or clear the low bits. -/
namespace RockOs.WordBits

/-- Subtraction of 64 bit words. -/
def sub64 (left right : Nat) : Nat := (left + 2 ^ 64 - right) % 2 ^ 64

theorem sub64_of_le (order : right ≤ left) (fits : left < 2 ^ 64) : sub64 left right = left - right := by
  unfold sub64
  omega

/-- Clearing the low bits rounds down. -/
theorem and_high_mask (fits : word < 2 ^ 64) (low : bits ≤ 64) :
    word &&& (2 ^ 64 - 2 ^ bits) = word / 2 ^ bits * 2 ^ bits := by
  have mask : 2 ^ 64 - 2 ^ bits = 2 ^ bits * (2 ^ (64 - bits) - 1) := by
    rw [Nat.mul_sub, ← Nat.pow_add, Nat.mul_one]
    congr 2
    omega
  apply Nat.eq_of_testBit_eq
  intro i
  rw [mask, Nat.testBit_and, Nat.mul_comm (word / 2 ^ bits), Nat.testBit_two_pow_mul, Nat.testBit_two_pow_mul,
    Nat.testBit_two_pow_sub_one, Nat.testBit_div_two_pow]
  by_cases high : bits ≤ i
  · by_cases inside : i - bits < 64 - bits
    · simp [high, inside, Nat.sub_add_cancel high]
    · have zero : word.testBit i = false :=
        Nat.testBit_lt_two_pow (lt_of_lt_of_le fits (Nat.pow_le_pow_right (by decide) (by omega)))
      simp [inside, zero, Nat.sub_add_cancel high]
  · simp [high]

/-- `GENMASK_ULL(h, l)`: the bits from `l` up to `h`. -/
def genmask (h l : Nat) : Nat := ((2 ^ 64 - 1) <<< l % 2 ^ 64) &&& ((2 ^ 64 - 1) >>> (63 - h))

private theorem genmask_bit (inside : h < 64) (i : Nat) : (genmask h l).testBit i = decide (l ≤ i ∧ i ≤ h) := by
  rw [genmask, Nat.testBit_and, Nat.testBit_mod_two_pow, Nat.testBit_shiftLeft, Nat.testBit_shiftRight,
    Nat.testBit_two_pow_sub_one, Nat.testBit_two_pow_sub_one, Bool.eq_iff_iff]
  simp only [Bool.and_eq_true, decide_eq_true_eq]
  omega

/-- A mask keeps a field in place. -/
theorem and_genmask (inside : h < 64) : word &&& genmask h l = word / 2 ^ l % 2 ^ (h + 1 - l) * 2 ^ l := by
  apply Nat.eq_of_testBit_eq
  intro i
  rw [Nat.testBit_and, genmask_bit inside, Nat.mul_comm, Nat.testBit_two_pow_mul, Nat.testBit_mod_two_pow,
    Nat.testBit_div_two_pow]
  by_cases low : l ≤ i
  · have bound : i - l < h + 1 - l ↔ i ≤ h := by omega
    simp [low, bound, Bool.and_comm]
  · simp [low]

theorem and_genmask_eq (inside : h < 64) (order : l ≤ h) (aligned : word % 2 ^ l = 0) (fits : word < 2 ^ (h + 1)) :
    word &&& genmask h l = word := by
  have quotient : word / 2 ^ l < 2 ^ (h + 1 - l) := by
    rw [Nat.div_lt_iff_lt_mul (Nat.two_pow_pos l), ← Nat.pow_add]
    rwa [show h + 1 - l + l = h + 1 by omega]
  rw [and_genmask inside, Nat.mod_eq_of_lt quotient, Nat.div_mul_cancel (Nat.dvd_of_mod_eq_zero aligned)]

end RockOs.WordBits
