import Mathlib.Algebra.Group.Hom.End
import Mathlib.Algebra.Ring.Commute
import Mathlib.Data.Nat.Bitwise
import Mathlib.Data.Nat.Prime.Basic
import Mathlib.Dynamics.PeriodicPts.Defs

/-! Polynomials over the field of two elements as the bits of a natural number, evaluated
in a ring where every element is its own negative. Products and powers modulo a polynomial
that vanishes at a point are computed on the bits, so that powers of a linear map of words,
and with them the periods of its points, are found by arithmetic on numbers. -/
namespace RockOs.BinaryPolynomials

section Evaluation
variable {R : Type*} [Semiring R] (T : R)

/-- The value of a polynomial. -/
def ev (p : Nat) : R := if p = 0 then 0 else (if p % 2 = 1 then 1 else 0) + T * ev (p / 2)
  termination_by p
  decreasing_by omega

private theorem ev_zero : ev T 0 = 0 := by
  rw [ev, if_pos rfl]

private theorem ev_eq (p : Nat) : ev T p = (if p % 2 = 1 then 1 else 0) + T * ev T (p / 2) := by
  by_cases zero : p = 0
  · rw [zero, Nat.zero_div, ev_zero, mul_zero, add_zero, if_neg (by decide)]
  · rw [ev, if_neg zero]

theorem ev_one : ev T 1 = 1 := by
  rw [ev_eq, if_pos rfl, Nat.div_eq_of_lt (by decide), ev_zero, mul_zero, add_zero]

private theorem ev_double (p : Nat) : ev T (2 * p) = T * ev T p := by
  rw [ev_eq, if_neg (by omega), Nat.mul_div_cancel_left p (by decide), zero_add]

theorem ev_two : ev T 2 = T := by
  rw [show 2 = 2 * 1 from rfl, ev_double, ev_one, mul_one]

private theorem ev_commute (p : Nat) : Commute T (ev T p) := by
  induction p using Nat.strong_induction_on with
  | _ p ih =>
    by_cases zero : p = 0
    · rw [zero, ev_zero]
      exact Commute.zero_right T
    · rw [ev_eq]
      refine Commute.add_right ?_ ((Commute.refl T).mul_right (ih (p / 2) (by omega)))
      split
      · exact Commute.one_right T
      · exact Commute.zero_right T

variable (char : ∀ a : R, a + a = 0)
include char

theorem ev_xor (p q : Nat) : ev T (p ^^^ q) = ev T p + ev T q := by
  induction p using Nat.strong_induction_on generalizing q with
  | _ p ih =>
    by_cases zero : p = 0
    · rw [zero, Nat.zero_xor, ev_zero, zero_add]
    rw [ev_eq T (p ^^^ q), ev_eq T p, ev_eq T q, Nat.xor_div_two, ih (p / 2) (by omega), mul_add, add_add_add_comm]
    congr 1
    rw [Nat.xor_mod_two_eq]
    by_cases left : p % 2 = 1 <;> by_cases right : q % 2 = 1
    · rw [if_pos left, if_pos right, char, if_neg (by omega)]
    · rw [if_pos left, if_neg right, add_zero, if_pos (by omega)]
    · rw [if_neg left, if_pos right, zero_add, if_pos (by omega)]
    · rw [if_neg left, if_neg right, add_zero, if_neg (by omega)]

end Evaluation

/-! ## Modulo a polynomial -/

/-- The product with the variable, modulo `f` of degree `n`. -/
def mulX (f n p : Nat) : Nat := if (2 * p).testBit n then 2 * p ^^^ f else 2 * p

/-- The product, by the bits of the second factor. -/
def mulBits (f n : Nat) : (bits p q : Nat) → Nat
  | 0, _, _ => 0
  | bits + 1, p, q => (if q % 2 = 1 then p else 0) ^^^ mulBits f n bits (mulX f n p) (q / 2)

def mulMod (f n p q : Nat) : Nat := mulBits f n (q.log2 + 1) p q

/-- The power, by the bits of the exponent. -/
def powBits (f n : Nat) : (bits p e : Nat) → Nat
  | 0, _, _ => 1
  | bits + 1, p, e =>
    let square := powBits f n bits (mulMod f n p p) (e / 2)
    if e % 2 = 1 then mulMod f n p square else square

def powMod (f n p e : Nat) : Nat := powBits f n (e.log2 + 1) p e

section Modulo
variable {R : Type*} [Semiring R] (T : R) (char : ∀ a : R, a + a = 0) (root : ev T f = 0)
include char root

private theorem ev_mulX (n p : Nat) : ev T (mulX f n p) = T * ev T p := by
  unfold mulX
  split
  · rw [ev_xor T char, root, add_zero, ev_double]
  · exact ev_double T p

private theorem ev_mulBits (small : q < 2 ^ bits) : ev T (mulBits f n bits p q) = ev T p * ev T q := by
  induction bits generalizing p q with
  | zero =>
    obtain rfl : q = 0 := by omega
    rw [mulBits, ev_zero, mul_zero]
  | succ bits ih =>
    rw [mulBits, ev_xor T char, ih (by omega), ev_mulX T char root, ev_eq T q, mul_add, ← mul_assoc (ev T p) T,
      (ev_commute T p).eq]
    congr 1
    split
    · rw [mul_one]
    · rw [ev_zero, mul_zero]

theorem ev_mulMod (n p q : Nat) : ev T (mulMod f n p q) = ev T p * ev T q :=
  ev_mulBits T char root Nat.lt_log2_self

private theorem ev_powBits (small : e < 2 ^ bits) : ev T (powBits f n bits p e) = ev T p ^ e := by
  induction bits generalizing p e with
  | zero =>
    obtain rfl : e = 0 := by omega
    rw [powBits, ev_one, pow_zero]
  | succ bits ih =>
    have half : ev T (powBits f n bits (mulMod f n p p) (e / 2)) = ev T p ^ (2 * (e / 2)) := by
      rw [ih (by omega), ev_mulMod T char root, ← pow_two, ← pow_mul]
    rw [powBits]
    split
    · rw [ev_mulMod T char root, half, ← pow_succ']
      congr 1
      omega
    · rw [half]
      congr 1
      omega

theorem ev_powMod (n p e : Nat) : ev T (powMod f n p e) = ev T p ^ e :=
  ev_powBits T char root Nat.lt_log2_self

end Modulo

/-! ## Words under exclusive or -/

/-- Words with the exclusive or as their sum. -/
def Word (w : Nat) : Type := BitVec w

instance : Add (Word w) := ⟨BitVec.xor⟩

instance : Zero (Word w) := ⟨0#w⟩

instance : DecidableEq (Word w) := inferInstanceAs (DecidableEq (BitVec w))

instance : AddCommMonoid (Word w) where
  add_assoc := BitVec.xor_assoc
  zero_add _ := BitVec.zero_xor
  add_zero _ := BitVec.xor_zero
  add_comm := BitVec.xor_comm
  nsmul := nsmulRec

private theorem word_add_self (a : Word w) : a + a = 0 := BitVec.xor_self

theorem end_add_self (g : AddMonoid.End (Word w)) : g + g = 0 := AddMonoidHom.ext fun a => word_add_self (g a)

/-- Shifts as linear maps. -/
def shiftLeft (n : Nat) : AddMonoid.End (Word w) where
  toFun a := BitVec.shiftLeft a n
  map_zero' := BitVec.zero_shiftLeft n
  map_add' a b := BitVec.shiftLeft_xor_distrib a b n

def shiftRight (n : Nat) : AddMonoid.End (Word w) where
  toFun a := BitVec.ushiftRight a n
  map_zero' := BitVec.zero_ushiftRight
  map_add' a b := BitVec.ushiftRight_xor_distrib a b n

private theorem two_pow_add_eq_xor (small : m < 2 ^ k) : 2 ^ k + m = 2 ^ k ^^^ m := by
  have beside := Nat.two_pow_add_eq_or_of_lt small 1
  rw [Nat.mul_one] at beside
  rw [beside]
  refine Nat.eq_of_testBit_eq fun j => ?_
  rw [Nat.testBit_or, Nat.testBit_xor, Nat.testBit_two_pow]
  by_cases same : k = j
  · rw [← same, Nat.testBit_lt_two_pow small, Bool.or_false, Bool.xor_false]
  · rw [decide_eq_false same, Bool.false_or, Bool.false_xor]

/-- A linear map that vanishes at every word of one bit vanishes. -/
theorem end_eq_zero (g : AddMonoid.End (Word w)) (basis : ∀ i < w, g (BitVec.ofNat w (2 ^ i)) = 0) : g = 0 := by
  -- by induction on the number of low bits in use: the highest one is split off
  have upTo (k : Nat) (bound : k ≤ w) : ∀ m < 2 ^ k, g (BitVec.ofNat w m) = 0 := by
    induction k with
    | zero =>
      intro m small
      obtain rfl : m = 0 := by omega
      exact map_zero g
    | succ k ih =>
      intro m small
      by_cases low : m < 2 ^ k
      · exact ih (by omega) m low
      obtain ⟨rest, rfl⟩ : ∃ rest, m = 2 ^ k + rest := ⟨m - 2 ^ k, by omega⟩
      have rest_small : rest < 2 ^ k := by omega
      rw [two_pow_add_eq_xor rest_small, BitVec.ofNat_xor]
      exact (map_add g _ _).trans (by rw [basis k (by omega), ih (by omega) rest rest_small, add_zero])
  refine AddMonoidHom.ext fun a => ?_
  have same : BitVec.ofNat w (BitVec.toNat a) = a := (BitVec.ofNat_toNat w a).trans (BitVec.setWidth_eq a)
  exact (congrArg g same.symm).trans (upTo w (Nat.le_refl w) (BitVec.toNat a) (BitVec.isLt a))

/-- The value at a linear map, applied to a word. -/
def evAt (step : Word w → Word w) : (bits p : Nat) → (a : Word w) → Word w
  | 0, _, _ => 0
  | bits + 1, p, a => (if p % 2 = 1 then a else 0) + step (evAt step bits (p / 2) a)

theorem ev_apply (T : AddMonoid.End (Word w)) (a : Word w) (small : p < 2 ^ bits) : ev T p a = evAt T bits p a := by
  induction bits generalizing p with
  | zero =>
    obtain rfl : p = 0 := by omega
    rw [ev_zero]
    rfl
  | succ bits ih =>
    rw [ev_eq, evAt, ← ih (by omega)]
    split <;> rfl

theorem fixed_eq_zero (T z : AddMonoid.End (Word w)) (inverse : z * (T ^ k + 1) = 1) (fixed : T^[k] a = a) : a = 0 := by
  have vanishes : (T ^ k + 1) a = 0 := by
    show (T ^ k) a + a = 0
    rw [AddMonoid.End.coe_pow, fixed]
    exact word_add_self a
  calc a = (z * (T ^ k + 1)) a := by rw [inverse]; rfl
    _ = z ((T ^ k + 1) a) := rfl
    _ = 0 := by rw [vanishes, map_zero]

/-! ## Periods -/

/-- A period is the least one, if no quotient by a prime is a period. -/
theorem minimalPeriod_eq {step : α → α} (period : step^[n] a = a)
    (proper : ∀ p, p.Prime → p ∣ n → step^[n / p] a ≠ a) : Function.minimalPeriod step a = n := by
  obtain ⟨k, split⟩ : Function.minimalPeriod step a ∣ n := Function.IsPeriodicPt.minimalPeriod_dvd period
  by_cases one : k = 1
  · rw [split, one, Nat.mul_one]
  have prime := Nat.minFac_prime one
  obtain ⟨j, factor⟩ := Nat.minFac_dvd k
  have divides : k.minFac ∣ n := split ▸ Dvd.dvd.mul_left (Nat.minFac_dvd k) _
  have quotient : n / k.minFac = Function.minimalPeriod step a * j := by
    refine Nat.div_eq_of_eq_mul_right prime.pos ?_
    calc n = Function.minimalPeriod step a * k := split
      _ = Function.minimalPeriod step a * (k.minFac * j) := by rw [← factor]
      _ = k.minFac * (Function.minimalPeriod step a * j) := Nat.mul_left_comm _ _ _
  refine absurd ?_ (proper k.minFac prime divides)
  exact Function.isPeriodicPt_iff_minimalPeriod_dvd.mpr (quotient ▸ Nat.dvd_mul_right _ j)

end RockOs.BinaryPolynomials
