import RockOs.CommandTable

/-! `strcmp` and `strncmp` of `lib/string.c`. A character is unsigned, and the
difference of two of them is kept in a `signed char`. So the sign of the result is
that of the lexicographic order as long as the first two characters that differ are
less than half the range apart. -/
namespace RockOs.StringOrder
open CommandTable

def strcmp : (cs ct : List UInt8) → Option Int
  | c :: cs, d :: ct =>
    let res := (c - d).toInt8.toInt
    if res ≠ 0 ∨ c = 0 then some res else strcmp cs ct
  | _, _ => none

/-- What `strcmp` returns for two strings. -/
def compared (a b : List UInt8) : Int := (strcmp (cstring a) (cstring b)).getD 0

/-! ## The first difference -/

/-- The first two characters that differ; a string that ends has its NUL there. -/
def firstDifference : (a b : List UInt8) → Option (UInt8 × UInt8)
  | [], [] => none
  | [], d :: _ => some (0, d)
  | c :: _, [] => some (c, 0)
  | c :: a, d :: b => if c = d then firstDifference a b else some (c, d)

/-- The difference of two characters as a `signed char`. -/
theorem difference_eq (c d : UInt8) : (c - d).toInt8.toInt = ((c.toNat : Int) - d.toNat).bmod 256 := by
  have byte : (c - d).toInt8.toInt = (c.toBitVec - d.toBitVec).toInt := rfl
  rw [byte, BitVec.toInt_sub, BitVec.toInt_eq_toNat_bmod, BitVec.toInt_eq_toNat_bmod]
  simp [Int.sub_bmod]

private theorem firstDifference_ne (differ : firstDifference a b = some (c, d)) (clean : 0 ∉ a) (clean' : 0 ∉ b) :
    c ≠ d := by
  induction a generalizing b with
  | nil =>
    cases b with
    | nil => cases differ
    | cons d b =>
      cases differ
      exact fun zero => clean' (zero ▸ List.mem_cons_self)
  | cons c a ih =>
    cases b with
    | nil =>
      cases differ
      exact fun zero => clean (zero ▸ List.mem_cons_self)
    | cons d b =>
      rw [firstDifference] at differ
      split at differ
      · exact ih differ (fun zero => clean (List.mem_cons_of_mem _ zero)) fun zero =>
          clean' (List.mem_cons_of_mem _ zero)
      · next other =>
        cases differ
        exact other

/-- `strcmp` goes to the first difference and reads nothing behind it. -/
theorem strcmp_eq (clean : 0 ∉ a) (clean' : 0 ∉ b) :
    strcmp (cstring a) (cstring b) =
      some (match firstDifference a b with
        | none => 0
        | some (c, d) => (c - d).toInt8.toInt) := by
  induction a generalizing b with
  | nil =>
    cases b with
    | nil => rfl
    | cons d b => simp [cstring, strcmp, firstDifference]
  | cons c a ih =>
    have char : c ≠ 0 := fun zero => clean (zero ▸ List.mem_cons_self)
    cases b with
    | nil =>
      have differ : (c - 0).toInt8.toInt ≠ 0 := (difference_zero c 0).not.mpr char
      rw [cstring, List.cons_append, cstring, List.nil_append, strcmp, if_pos (.inl differ), firstDifference]
    | cons d b =>
      have onward := ih (fun zero => clean (List.mem_cons_of_mem _ zero))
        (fun zero => clean' (List.mem_cons_of_mem _ zero))
      rw [cstring, List.cons_append, cstring, List.cons_append, strcmp, firstDifference]
      by_cases same : c = d
      · rw [if_pos same, if_neg (not_or.mpr ⟨not_not.mpr ((difference_zero c d).mpr same), char⟩)]
        exact onward
      · rw [if_neg same, if_pos (.inl ((difference_zero c d).not.mpr same))]

private theorem compared_eq (clean : 0 ∉ a) (clean' : 0 ∉ b) :
    compared a b = match firstDifference a b with
      | none => 0
      | some (c, d) => (c - d).toInt8.toInt := by
  rw [compared, strcmp_eq clean clean']
  rfl

private theorem strncmp_cut (clean : 0 ∉ a) (clean' : 0 ∉ b) (count : Nat) :
    strncmp (cstring a) (cstring b) count = strcmp (cstring (a.take count)) (cstring (b.take count)) := by
  induction count generalizing a b with
  | zero =>
    rw [List.take_zero, List.take_zero, strncmp]
    rfl
  | succ count ih =>
    cases a with
    | nil =>
      cases b with
      | nil => rfl
      | cons d b => simp [cstring, strcmp, strncmp]
    | cons c a =>
      have char : c ≠ 0 := fun zero => clean (zero ▸ List.mem_cons_self)
      cases b with
      | nil =>
        have differ : (c - 0).toInt8.toInt ≠ 0 := (difference_zero c 0).not.mpr char
        simp only [List.take_succ_cons, List.take_nil, cstring, List.cons_append, List.nil_append, strncmp, strcmp]
        rw [if_pos (.inl differ), if_pos (.inl differ)]
      | cons d b =>
        have onward := ih (fun zero => clean (List.mem_cons_of_mem _ zero))
          (fun zero => clean' (List.mem_cons_of_mem _ zero))
        simp only [cstring] at onward
        simp only [List.take_succ_cons, cstring, List.cons_append, strncmp, strcmp, onward]

/-! ## The lexicographic order -/

/-- The sign of a comparison in the lexicographic order of the characters. -/
def lexOrder (a b : List UInt8) : Int := if a < b then -1 else if a = b then 0 else 1

private theorem lexOrder_swap (a b : List UInt8) : lexOrder b a = -lexOrder a b := by
  unfold lexOrder
  by_cases less : a < b
  · have differ : b ≠ a := by
      rintro rfl
      exact List.lt_irrefl _ less
    rw [if_pos less, if_neg (List.lt_asymm less), if_neg differ]
    rfl
  rw [if_neg less]
  by_cases same : a = b
  · subst same
    rw [if_neg less, if_pos rfl]
    rfl
  · have greater : b < a := by
      by_contra other
      exact same (List.le_antisymm (List.not_lt.mp other) (List.not_lt.mp less))
    rw [if_neg same, if_pos greater]

theorem lexOrder_le_zero : lexOrder a b ≤ 0 ↔ a ≤ b := by
  rw [← List.not_lt]
  unfold lexOrder
  by_cases less : a < b
  · rw [if_pos less]
    exact iff_of_true (by decide) (List.lt_asymm less)
  rw [if_neg less]
  by_cases same : a = b
  · rw [if_pos same, ← same]
    exact iff_of_true (by decide) (List.lt_irrefl a)
  · rw [if_neg same]
    refine iff_of_false (by decide) (not_not.mpr ?_)
    by_contra other
    exact same (List.le_antisymm (List.not_lt.mp other) (List.not_lt.mp less))

private theorem lexOrder_difference (clean : 0 ∉ a) (clean' : 0 ∉ b) :
    lexOrder a b = match firstDifference a b with
      | none => 0
      | some (c, d) => ((c.toNat : Int) - d.toNat).sign := by
  induction a generalizing b with
  | nil =>
    cases b with
    | nil => rfl
    | cons d b =>
      have char : d ≠ 0 := fun zero => clean' (zero ▸ List.mem_cons_self)
      have positive : 0 < d.toNat := Nat.pos_of_ne_zero fun zero => char (UInt8.toNat_inj.mp zero)
      rw [firstDifference, lexOrder, if_pos (List.nil_lt_cons d b)]
      exact (Int.sign_eq_neg_one_of_neg (by simpa using positive)).symm
  | cons c a ih =>
    cases b with
    | nil =>
      have char : c ≠ 0 := fun zero => clean (zero ▸ List.mem_cons_self)
      have positive : 0 < c.toNat := Nat.pos_of_ne_zero fun zero => char (UInt8.toNat_inj.mp zero)
      rw [firstDifference, lexOrder, if_neg (List.not_lt_nil _), if_neg (List.cons_ne_nil c a)]
      exact (Int.sign_eq_one_of_pos (by simpa using positive)).symm
    | cons d b =>
      rw [firstDifference]
      by_cases same : c = d
      · subst same
        have onward := ih (fun zero => clean (List.mem_cons_of_mem _ zero))
          (fun zero => clean' (List.mem_cons_of_mem _ zero))
        rw [if_pos rfl, ← onward]
        simp [lexOrder]
      · have bytes : c.toNat ≠ d.toNat := fun equal => same (UInt8.toNat_inj.mp equal)
        have order : c :: a < d :: b ↔ c.toNat < d.toNat := by
          rw [List.cons_lt_cons_iff, UInt8.lt_iff_toNat_lt]
          simp [same]
        rw [if_neg same, lexOrder]
        by_cases less : c.toNat < d.toNat
        · rw [if_pos (order.mpr less)]
          exact (Int.sign_eq_neg_one_of_neg (by omega)).symm
        · rw [if_neg (order.not.mpr less), if_neg (by simp [same])]
          exact (Int.sign_eq_one_of_pos (by omega)).symm

/-! ## When the sign is right -/

/-- The first two characters that differ are less than half the range apart. -/
def Near (a b : List UInt8) : Prop :=
  ∀ c d, firstDifference a b = some (c, d) → c.toNat ≤ d.toNat + 127 ∧ d.toNat ≤ c.toNat + 128

private theorem sign_difference {c d : UInt8} (differ : c ≠ d) :
    (c - d).toInt8.toInt.sign = ((c.toNat : Int) - d.toNat).sign ↔
      c.toNat ≤ d.toNat + 127 ∧ d.toNat ≤ c.toNat + 128 := by
  have bytes : c.toNat ≠ d.toNat := fun equal => differ (UInt8.toNat_inj.mp equal)
  have small := c.toNat_lt
  have small' := d.toNat_lt
  rw [difference_eq]
  generalize c.toNat = x at *
  generalize d.toNat = y at *
  by_cases low : x + 128 < y
  · have wrapped : ((x : Int) - y).bmod 256 = x - y + 256 := by rw [Int.bmod_def]; omega
    rw [wrapped, Int.sign_eq_one_of_pos (by omega), Int.sign_eq_neg_one_of_neg (by omega)]
    exact iff_of_false (by decide) (by omega)
  by_cases high : y + 127 < x
  · have wrapped : ((x : Int) - y).bmod 256 = x - y - 256 := by rw [Int.bmod_def]; omega
    rw [wrapped, Int.sign_eq_neg_one_of_neg (by omega), Int.sign_eq_one_of_pos (by omega)]
    exact iff_of_false (by decide) (by omega)
  · have kept : ((x : Int) - y).bmod 256 = x - y := by rw [Int.bmod_def]; omega
    rw [kept]
    exact iff_of_true rfl (by omega)

theorem sign_compared (clean : 0 ∉ a) (clean' : 0 ∉ b) : (compared a b).sign = lexOrder a b ↔ Near a b := by
  rw [compared_eq clean clean', lexOrder_difference clean clean']
  unfold Near
  cases differ : firstDifference a b with
  | none => simp
  | some pair =>
    obtain ⟨c, d⟩ := pair
    rw [sign_difference (firstDifference_ne differ clean clean')]
    simp

private theorem firstDifference_self (a : List UInt8) : firstDifference a a = none := by
  induction a with
  | nil => rfl
  | cons c a ih => rw [firstDifference, if_pos rfl, ih]

/-- The result is zero for equal strings only, however far the characters are apart. -/
theorem compared_zero (clean : 0 ∉ a) (clean' : 0 ∉ b) : compared a b = 0 ↔ a = b := by
  constructor
  · intro zero
    rw [compared_eq clean clean'] at zero
    have order := lexOrder_difference clean clean'
    cases differ : firstDifference a b with
    | none =>
      rw [differ] at order
      unfold lexOrder at order
      split at order
      · cases order
      · split at order
        · assumption
        · cases order
    | some pair =>
      rw [differ] at zero
      exact absurd ((difference_zero pair.1 pair.2).mp zero) (firstDifference_ne differ clean clean')
  · rintro rfl
    rw [compared_eq clean clean, firstDifference_self]

/-- `strcmp` orders three strings, and `strncmp` agrees with it on what is cut off them. -/
structure Ordered (a b c : List UInt8) : Prop where
  inside : ∀ s ∈ [a, b, c], ∀ t ∈ [a, b, c], strcmp (cstring s) (cstring t) = some (compared s t)
  sign : ∀ s ∈ [a, b, c], ∀ t ∈ [a, b, c], (compared s t).sign = lexOrder s t
  antisymm : ∀ s ∈ [a, b, c], ∀ t ∈ [a, b, c], (compared t s).sign = -(compared s t).sign
  trans : ∀ s ∈ [a, b, c], ∀ t ∈ [a, b, c], ∀ u ∈ [a, b, c],
    compared s t ≤ 0 → compared t u ≤ 0 → compared s u ≤ 0
  zero : ∀ s ∈ [a, b, c], ∀ t ∈ [a, b, c], compared s t = 0 ↔ s = t
  cut : ∀ s ∈ [a, b, c], ∀ t ∈ [a, b, c], ∀ count,
    strncmp (cstring s) (cstring t) count = some (compared (s.take count) (t.take count))

/-- The order is right exactly where the characters that decide it are less than half
the range apart; in particular for all strings of ASCII characters. -/
theorem string_order_iff (a b c : List UInt8) (clean : ∀ s ∈ [a, b, c], 0 ∉ s) :
    Ordered a b c ↔ ∀ s ∈ [a, b, c], ∀ t ∈ [a, b, c], Near s t := by
  constructor
  · intro ordered s hs t ht
    exact (sign_compared (clean s hs) (clean t ht)).mp (ordered.sign s hs t ht)
  intro near
  have inside (s t : List UInt8) (clean : 0 ∉ s) (clean' : 0 ∉ t) :
      strcmp (cstring s) (cstring t) = some (compared s t) := by
    rw [strcmp_eq clean clean', compared_eq clean clean']
  have sign : ∀ s ∈ [a, b, c], ∀ t ∈ [a, b, c], (compared s t).sign = lexOrder s t :=
    fun s hs t ht => (sign_compared (clean s hs) (clean t ht)).mpr (near s hs t ht)
  have order : ∀ s ∈ [a, b, c], ∀ t ∈ [a, b, c], compared s t ≤ 0 ↔ s ≤ t := by
    intro s hs t ht
    rw [← lexOrder_le_zero, ← sign s hs t ht, Int.sign_nonpos_iff]
  constructor
  · exact fun s hs t ht => inside s t (clean s hs) (clean t ht)
  · exact sign
  · intro s hs t ht
    rw [sign s hs t ht, sign t ht s hs, lexOrder_swap]
  · intro s hs t ht u hu first second
    exact (order s hs u hu).mpr (List.le_trans ((order s hs t ht).mp first) ((order t ht u hu).mp second))
  · exact fun s hs t ht => compared_zero (clean s hs) (clean t ht)
  · intro s hs t ht count
    rw [strncmp_cut (clean s hs) (clean t ht)]
    exact inside _ _ (fun zero => clean s hs (List.mem_of_mem_take zero))
      fun zero => clean t ht (List.mem_of_mem_take zero)

/-- ASCII characters are near. -/
theorem near_ascii (ascii : ∀ c ∈ a, c < 128) (ascii' : ∀ c ∈ b, c < 128) : Near a b := by
  have zero : (0 : UInt8).toNat = 0 := rfl
  have small {c : UInt8} (low : c < 128) : c.toNat < 128 := low
  induction a generalizing b with
  | nil =>
    cases b with
    | nil =>
      intro c d differ
      cases differ
    | cons d b =>
      have low := small (ascii' d List.mem_cons_self)
      intro c d differ
      cases differ
      omega
  | cons c a ih =>
    have low := small (ascii c List.mem_cons_self)
    cases b with
    | nil =>
      intro c d differ
      cases differ
      omega
    | cons d b =>
      have low' := small (ascii' d List.mem_cons_self)
      have rest := ih (fun c member => ascii c (List.mem_cons_of_mem _ member))
        (fun c member => ascii' c (List.mem_cons_of_mem _ member))
      intro x y differ
      rw [firstDifference] at differ
      split at differ
      · exact rest x y differ
      · cases differ
        omega

theorem string_order_names : Ordered [0x63, 0x6d, 0x70] [0x63, 0x70] [0x63] := by
  refine (string_order_iff _ _ _ (by decide)).mpr fun s hs t ht => near_ascii ?_ ?_
  · revert s
    simp
  · revert t
    simp

/-- A character of the upper half compares less than the end of the string, and the end
of the string less than it. -/
theorem string_order_upper :
    compared [0x80] [] = -128 ∧ compared [] [0x80] = -128 ∧ ¬ Ordered [0x80] [] [] := by
  refine ⟨by decide, by decide, fun ordered => ?_⟩
  exact absurd (ordered.antisymm [0x80] (by simp) [] (by simp)) (by decide)

end RockOs.StringOrder
