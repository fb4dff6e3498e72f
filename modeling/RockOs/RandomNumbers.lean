import Mathlib.Data.Finset.Card
import Mathlib.Order.Interval.Finset.Nat
import Mathlib.Tactic.NormNum.Prime
import RockOs.BinaryPolynomials

/-! `lib/rand.c`. The generator is a linear map of words under exclusive or, and its powers
are those of a polynomial of degree 32 that it satisfies. -/
namespace RockOs.RandomNumbers
open BinaryPolynomials

/-- The result, and the seed that is left. -/
def randR (seed : BitVec 32) : BitVec 32 × BitVec 32 :=
  let seed := seed ^^^ (seed <<< 13)
  let seed := seed ^^^ (seed >>> 17)
  let seed := seed ^^^ (seed <<< 5)
  (seed, seed)

/-- The seed after some calls. -/
def seedAfter : (calls : Nat) → (seed : BitVec 32) → BitVec 32
  | 0, seed => seed
  | calls + 1, seed => seedAfter calls (randR seed).2

/-- What the call after `calls` calls returns. -/
def drawn (seed : BitVec 32) (calls : Nat) : BitVec 32 := (randR (seedAfter calls seed)).1

/-! ## The linear map -/

/-- One call, as a product of the three steps. -/
def xorshift : AddMonoid.End (Word 32) := (1 + shiftLeft 5) * (1 + shiftRight 17) * (1 + shiftLeft 13)

private theorem seedAfter_eq (calls : Nat) (seed : BitVec 32) : seedAfter calls seed = xorshift^[calls] seed := by
  induction calls generalizing seed with
  | zero => rfl
  | succ calls ih => exact ih _

private theorem drawn_eq (seed : BitVec 32) (calls : Nat) : drawn seed calls = xorshift^[calls] (xorshift seed) :=
  (congrArg xorshift (seedAfter_eq calls seed)).trans ((Function.Commute.iterate_self xorshift calls).symm seed)

/-- The characteristic polynomial: powers 32, 21 to 17, 15, 14, 9, 6 and 0. -/
def characteristic : Nat := 0x1003ec241

private theorem characteristic_basis :
    ∀ i < 32, evAt (fun seed => (randR seed).2) 33 characteristic (BitVec.ofNat 32 (2 ^ i)) = 0 := by
  decide +kernel

private theorem characteristic_root : ev xorshift characteristic = 0 :=
  end_eq_zero _ fun i small => (ev_apply xorshift _ (by decide)).trans (characteristic_basis i small)

/-- The number of words that are not zero. -/
def period : Nat := 2 ^ 32 - 1

private theorem xorshift_period : xorshift ^ period = 1 := by
  have bits : powMod characteristic 32 2 period = 1 := by decide +kernel
  have power := ev_powMod xorshift end_add_self characteristic_root 32 2 period
  rwa [bits, ev_one, ev_two, eq_comm] at power

/-- An inverse `z` modulo the polynomial shows that no word but zero has period `k`. -/
theorem not_fixed (z k : Nat) (inverse : mulMod characteristic 32 z (powMod characteristic 32 2 k ^^^ 1) = 1)
    (positive : seed ≠ 0) : xorshift^[k] seed ≠ seed := by
  intro fixed
  refine positive (fixed_eq_zero xorshift (ev xorshift z) ?_ fixed)
  have value : ev xorshift (powMod characteristic 32 2 k ^^^ 1) = xorshift ^ k + 1 := by
    rw [ev_xor xorshift end_add_self, ev_powMod xorshift end_add_self characteristic_root, ev_two, ev_one]
  rw [← value, ← ev_mulMod xorshift end_add_self characteristic_root 32, inverse, ev_one]

private theorem prime_factors (prime : p.Prime) (divides : p ∣ period) :
    p = 3 ∨ p = 5 ∨ p = 17 ∨ p = 257 ∨ p = 65537 := by
  have split : period = 3 * (5 * (17 * (257 * 65537))) := by decide
  rw [split, prime.dvd_mul, prime.dvd_mul, prime.dvd_mul, prime.dvd_mul,
    Nat.prime_dvd_prime_iff_eq prime (by norm_num), Nat.prime_dvd_prime_iff_eq prime (by norm_num),
    Nat.prime_dvd_prime_iff_eq prime (by norm_num), Nat.prime_dvd_prime_iff_eq prime (by norm_num),
    Nat.prime_dvd_prime_iff_eq prime (by norm_num)] at divides
  exact divides

private theorem minimalPeriod_xorshift (positive : seed ≠ 0) : Function.minimalPeriod xorshift seed = period := by
  refine minimalPeriod_eq ?_ fun p prime divides => ?_
  · rw [← AddMonoid.End.coe_pow, xorshift_period]
    rfl
  obtain rfl | rfl | rfl | rfl | rfl := prime_factors prime divides
  · exact not_fixed 0x9a1b191d (period / 3) (by decide +kernel) positive
  · exact not_fixed 0x256daa81 (period / 5) (by decide +kernel) positive
  · exact not_fixed 0x552bd776 (period / 17) (by decide +kernel) positive
  · exact not_fixed 0xac9b5802 (period / 257) (by decide +kernel) positive
  · exact not_fixed 0xd1472012 (period / 65537) (by decide +kernel) positive

/-! ## The sequence -/

private theorem xorshift_ne_zero (positive : seed ≠ 0) : xorshift seed ≠ 0 := by
  intro zero
  have back : xorshift^[period] seed = seed := by
    rw [← AddMonoid.End.coe_pow, xorshift_period]
    rfl
  have vanishes : xorshift^[period] seed = 0 := by
    rw [show period = (period - 1) + 1 from rfl, Function.iterate_succ_apply, zero, iterate_map_zero]
  exact positive (back.symm.trans vanishes)

private theorem iterate_ne_zero (calls : Nat) (positive : seed ≠ 0) : xorshift^[calls] seed ≠ 0 := by
  induction calls with
  | zero => exact positive
  | succ calls ih =>
    rw [Function.iterate_succ_apply']
    exact xorshift_ne_zero ih

/-- As many different words come as there are words other than zero. -/
theorem every_value (positive : seed ≠ 0) (value : BitVec 32) (other : value ≠ 0) :
    ∃ calls < period, xorshift^[calls] seed = value := by
  -- counted as numbers from 1 to `period`, so that no set of words is ever listed
  let number (calls : Nat) : Nat := BitVec.toNat (xorshift^[calls] seed)
  have distinct : Set.InjOn number (Finset.range period) := by
    intro i small j small' same
    rw [Finset.coe_range, ← minimalPeriod_xorshift positive] at small small'
    exact Function.iterate_injOn_Iio_minimalPeriod small small' (BitVec.eq_of_toNat_eq same)
  have within : (Finset.range period).image number ⊆ Finset.Icc 1 period := by
    intro n member
    obtain ⟨calls, -, rfl⟩ := Finset.mem_image.mp member
    have nonzero : number calls ≠ 0 := fun zero => iterate_ne_zero calls positive (BitVec.eq_of_toNat_eq zero)
    have bound : number calls < 2 ^ 32 := BitVec.isLt _
    exact Finset.mem_Icc.mpr ⟨Nat.pos_of_ne_zero nonzero, Nat.le_sub_one_of_lt bound⟩
  have all : (Finset.range period).image number = Finset.Icc 1 period := by
    refine Finset.eq_of_subset_of_card_le within ?_
    rw [Finset.card_image_of_injOn distinct, Finset.card_range, Nat.card_Icc, Nat.add_sub_cancel]
  have nonzero : value.toNat ≠ 0 := fun zero => other (BitVec.eq_of_toNat_eq zero)
  have member : value.toNat ∈ Finset.Icc 1 period :=
    Finset.mem_Icc.mpr ⟨Nat.pos_of_ne_zero nonzero, Nat.le_sub_one_of_lt value.isLt⟩
  rw [← all] at member
  obtain ⟨calls, small, same⟩ := Finset.mem_image.mp member
  exact ⟨calls, Finset.mem_range.mp small, BitVec.eq_of_toNat_eq same⟩

/-- Zero is never returned, every other word is returned exactly once in `period` calls,
and then they come again. -/
theorem rand_full_period (seed : BitVec 32) (positive : seed ≠ 0) :
    (∀ calls, drawn seed calls ≠ 0) ∧
      (∀ value, value ≠ 0 → ∃! calls, calls < period ∧ drawn seed calls = value) ∧
      ∀ calls, drawn seed (calls + period) = drawn seed calls := by
  have first : xorshift seed ≠ 0 := xorshift_ne_zero positive
  have least : Function.minimalPeriod xorshift (xorshift seed) = period := minimalPeriod_xorshift first
  refine ⟨fun calls => ?_, fun value other => ?_, fun calls => ?_⟩
  · rw [drawn_eq]
    exact iterate_ne_zero calls first
  · obtain ⟨calls, small, same⟩ := every_value first value other
    refine ⟨calls, ⟨small, (drawn_eq seed calls).trans same⟩, ?_⟩
    rintro calls' ⟨small', same'⟩
    rw [drawn_eq] at same'
    rw [← least] at small small'
    exact Function.iterate_injOn_Iio_minimalPeriod small' small (same'.trans same.symm)
  · rw [drawn_eq, drawn_eq, ← least]
    exact Function.iterate_add_minimalPeriod_eq

/-- From the seed that the static variable starts with. -/
theorem full_period_one : (1 : BitVec 32) ≠ 0 ∧ ∀ calls, drawn 1 calls ≠ 0 := by
  have positive : (1 : BitVec 32) ≠ 0 := by decide
  exact ⟨positive, (rand_full_period 1 positive).1⟩

end RockOs.RandomNumbers
