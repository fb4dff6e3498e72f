import Mathlib.Data.Nat.Bitwise
import Mathlib.Tactic.IntervalCases
import RockOs.PageTables

/-! The descriptors of `asm/mmu.h` bit by bit: what the type bits say, which
address a leaf holds, and what building, splitting and changing a descriptor
does to its address, its attributes and its type. -/
namespace RockOs.PageDescriptors
open PageTables

variable {d attrs : BitVec 64} {level phys i j : Nat}

theorem level2shift_eq (small : level ≤ 3) : level2shift level = 12 + 9 * (3 - level) := by
  unfold level2shift
  omega

/-! ## Types -/

private theorem pteType_toNat : (pteType d).toNat = d.toNat % 4 := by
  rw [pteType, pteTypeMask, BitVec.toNat_and]
  exact Nat.and_two_pow_sub_one_eq_mod d.toNat 2

private theorem bit_zero : d.getLsbD 0 = decide (d.toNat % 2 = 1) := by
  rw [BitVec.getLsbD, Nat.testBit_zero]

private theorem bit_one : d.getLsbD 1 = decide (d.toNat / 2 % 2 = 1) := by
  rw [BitVec.getLsbD, Nat.testBit_succ, Nat.testBit_zero]

theorem type_table_iff : pteType d = pteTypeTable ↔ d.getLsbD 0 = true ∧ d.getLsbD 1 = true := by
  rw [← BitVec.toNat_inj, pteType_toNat, bit_zero, bit_one, pteTypeTable]
  simp only [BitVec.toNat_ofNat, decide_eq_true_eq]
  omega

theorem type_block_iff : pteType d = pteTypeBlock ↔ d.getLsbD 0 = true ∧ d.getLsbD 1 = false := by
  rw [← BitVec.toNat_inj, pteType_toNat, bit_zero, bit_one, pteTypeBlock]
  simp only [BitVec.toNat_ofNat, decide_eq_true_eq, decide_eq_false_iff_not]
  omega

theorem type_fault_iff : pteType d = pteTypeFault ↔ d.getLsbD 0 = false ∧ d.getLsbD 1 = false := by
  rw [← BitVec.toNat_inj, pteType_toNat, bit_zero, bit_one, pteTypeFault]
  simp only [BitVec.toNat_ofNat, decide_eq_false_iff_not]
  omega

/-! ## Masks -/

/-- The bits of a constant, from its low 64 bits. -/
private theorem bits_eq {mask : BitVec 64} (p : Nat → Bool) (low : ∀ i < 64, mask.getLsbD i = p i)
    (high : p i = true → i < 64) : mask.getLsbD i = p i := by
  by_cases small : i < 64
  · exact low i small
  · rw [BitVec.getLsbD_of_ge _ _ (by omega)]
    by_contra set
    exact small (high (by simpa using set))

theorem addrMask_bit (i : Nat) : (0x0000fffffffff000#64).getLsbD i = decide (12 ≤ i ∧ i < 48) :=
  bits_eq (fun i => decide (12 ≤ i ∧ i < 48)) (by decide) (fun set => by have := of_decide_eq_true set; omega)

private theorem attrMask_bit (i : Nat) :
    (~~~0x0000fffffffff003#64).getLsbD i = decide (i < 64 ∧ ¬ (i < 2 ∨ 12 ≤ i ∧ i < 48)) :=
  bits_eq (fun i => decide (i < 64 ∧ ¬ (i < 2 ∨ 12 ≤ i ∧ i < 48))) (by decide)
    (fun set => by have := of_decide_eq_true set; omega)

private theorem typeTable_bit (i : Nat) : pteTypeTable.getLsbD i = decide (i < 2) :=
  bits_eq (fun i => decide (i < 2)) (by decide) (fun set => by have := of_decide_eq_true set; omega)

private theorem typeBlock_bit (i : Nat) : pteTypeBlock.getLsbD i = decide (i = 0) :=
  bits_eq (fun i => decide (i = 0)) (by decide) (fun set => by have := of_decide_eq_true set; omega)

private theorem blockAf_bit (i : Nat) : pteBlockAf.getLsbD i = decide (i = 10) :=
  bits_eq (fun i => decide (i = 10)) (by decide) (fun set => by have := of_decide_eq_true set; omega)

/-- The bits that `mmu_change_region_attr` changes. -/
theorem attrmask_bit (i : Nat) :
    pmdAttrmask.getLsbD i = decide (i = 0 ∨ 2 ≤ i ∧ i < 5 ∨ i = 53 ∨ i = 54) :=
  bits_eq (fun i => decide (i = 0 ∨ 2 ≤ i ∧ i < 5 ∨ i = 53 ∨ i = 54)) (by decide)
    (fun set => by have := of_decide_eq_true set; omega)

private theorem attrindx_bit (i : Nat) : pmdAttrindxMask.getLsbD i = decide (2 ≤ i ∧ i < 5) :=
  bits_eq (fun i => decide (2 ≤ i ∧ i < 5)) (by decide) (fun set => by have := of_decide_eq_true set; omega)

/-! ## Addresses -/

/-- The address bits 47 to `shift` of a descriptor. -/
def addrBits (shift : Nat) (d : BitVec 64) : Nat := d.toNat % 2 ^ 48 / 2 ^ shift * 2 ^ shift

/-- The descriptor without its address and type bits. -/
def leafAttrs (d : BitVec 64) : BitVec 64 := d &&& ~~~0x0000fffffffff003#64

theorem addrBits_testBit (i : Nat) :
    (addrBits shift d).testBit i = (decide (shift ≤ i ∧ i < 48) && d.getLsbD i) := by
  rw [addrBits, Nat.mul_comm, Nat.testBit_two_pow_mul, Nat.testBit_div_two_pow, Nat.testBit_mod_two_pow]
  by_cases low : shift ≤ i
  · have back : i - shift + shift = i := by omega
    simp [low, back, BitVec.getLsbD]
  · simp [low]

private theorem leafAttrs_bit (i : Nat) :
    (leafAttrs d).getLsbD i = (decide (i < 64 ∧ ¬ (i < 2 ∨ 12 ≤ i ∧ i < 48)) && d.getLsbD i) := by
  rw [leafAttrs, BitVec.getLsbD_and, attrMask_bit, Bool.and_comm]

/-- The low bits of a multiple of a power of two are clear. -/
theorem testBit_of_multiple (multiple : n % 2 ^ k = 0) (low : i < k) : n.testBit i = false := by
  have bit : (n % 2 ^ k).testBit i = (decide (i < k) && n.testBit i) := Nat.testBit_mod_two_pow n k i
  rw [multiple, Nat.zero_testBit, decide_eq_true low, Bool.true_and] at bit
  exact bit.symm

private theorem testBit_of_lt (small : n < 2 ^ k) (high : k ≤ i) : n.testBit i = false :=
  Nat.testBit_lt_two_pow (lt_of_lt_of_le small (Nat.pow_le_pow_right (by decide) high))

/-! ## Table descriptors -/

/-- What `set_pte_table` stores. -/
def tableDesc (table : Nat) : BitVec 64 := pteTypeTable ||| BitVec.ofNat 64 table

theorem tableDesc_type (table : Nat) : pteType (tableDesc table) = pteTypeTable := by
  rw [type_table_iff, tableDesc, BitVec.getLsbD_or, BitVec.getLsbD_or, typeTable_bit, typeTable_bit]
  exact ⟨rfl, rfl⟩

/-- A table descriptor has no attributes above its address. -/
theorem tableDesc_plain (fits : table < 2 ^ 48) : (tableDesc table).toNat < 2 ^ 48 := by
  rw [tableDesc, BitVec.toNat_or, BitVec.toNat_ofNat, Nat.mod_eq_of_lt (by omega)]
  exact Nat.or_lt_two_pow (by decide) fits

theorem nextTable_tableDesc (aligned : table % 4096 = 0) (fits : table < 2 ^ 48) :
    nextTable (tableDesc table) = table := by
  apply Nat.eq_of_testBit_eq
  intro i
  show (tableDesc table &&& 0x0000fffffffff000#64).getLsbD i = _
  rw [BitVec.getLsbD_and, addrMask_bit, tableDesc, BitVec.getLsbD_or, typeTable_bit, BitVec.getLsbD_ofNat]
  by_cases low : i < 12
  · rw [testBit_of_multiple (show table % 2 ^ 12 = 0 from aligned) low]
    simp [show ¬ 12 ≤ i by omega]
  · by_cases high : i < 48
    · simp [show ¬ i < 2 by omega, show i < 64 by omega, show 12 ≤ i by omega, high]
    · rw [testBit_of_lt fits (by omega)]
      simp [high]

theorem nextTable_aligned (d : BitVec 64) : nextTable d % 4096 = 0 := by
  show nextTable d % 2 ^ 12 = 0
  apply Nat.eq_of_testBit_eq
  intro i
  have bit : (nextTable d).testBit i = (d &&& 0x0000fffffffff000#64).getLsbD i := rfl
  rw [Nat.testBit_mod_two_pow, bit, BitVec.getLsbD_and, addrMask_bit, Nat.zero_testBit]
  by_cases low : i < 12
  · simp [show ¬ 12 ≤ i by omega]
  · simp [low]

/-! ## Leaves -/

/-- No address bits between the page and the block size: the block is where
its level can put it. -/
def Aligned (level : Nat) (d : BitVec 64) : Prop := ∀ i, 12 ≤ i → i < level2shift level → d.getLsbD i = false

/-- What `add_map` stores on a level: a block, or a page on the last one. -/
def leafDesc (level phys : Nat) (attrs : BitVec 64) : BitVec 64 :=
  if level = 3 then BitVec.ofNat 64 phys ||| attrs ||| pteTypePage else BitVec.ofNat 64 phys ||| attrs

/-- The attributes `add_map` gives a region. -/
def regionAttrs (attrs : BitVec 64) : BitVec 64 := attrs ||| pteTypeBlock ||| pteBlockAf

theorem leafDesc_bit (i : Nat) : (leafDesc level phys (regionAttrs attrs)).getLsbD i =
    (decide (i < 64) && phys.testBit i || attrs.getLsbD i || decide (i = 0) || decide (i = 10) ||
      decide (level = 3 ∧ i < 2)) := by
  have page : pteTypePage.getLsbD i = decide (i < 2) := typeTable_bit i
  unfold leafDesc regionAttrs
  split
  · simp [BitVec.getLsbD_or, BitVec.getLsbD_ofNat, typeBlock_bit, blockAf_bit, *, Bool.or_assoc]
  · simp [BitVec.getLsbD_or, BitVec.getLsbD_ofNat, typeBlock_bit, blockAf_bit, *, Bool.or_assoc]

theorem leafDesc_valid : (leafDesc level phys (regionAttrs attrs)).getLsbD 0 = true := by
  rw [leafDesc_bit]
  simp

/-- The attributes of a region have neither address nor type bits. -/
def Clear (attrs : BitVec 64) : Prop := attrs &&& 0x0000fffffffff003#64 = 0#64

instance (attrs : BitVec 64) : Decidable (Clear attrs) := inferInstanceAs (Decidable (_ = _))

theorem Clear.bit (clear : Clear attrs) (inside : i < 2 ∨ 12 ≤ i ∧ i < 48) : attrs.getLsbD i = false := by
  have mask : (0x0000fffffffff003#64).getLsbD i = true := by
    have bits : (0x0000fffffffff003#64).getLsbD i = decide (i < 2 ∨ 12 ≤ i ∧ i < 48) :=
      bits_eq (fun i => decide (i < 2 ∨ 12 ≤ i ∧ i < 48)) (by decide)
        (fun set => by have := of_decide_eq_true set; omega)
    rw [bits, decide_eq_true inside]
  have bit := congrArg (fun x => x.getLsbD i) clear
  simpa only [BitVec.getLsbD_and, mask, Bool.and_true, BitVec.getLsbD_zero] using bit

/-- The address of a leaf is the one it is made for, cut to the size of its block. -/
theorem leafDesc_address (clear : Clear attrs) (small : level ≤ 3) (phys : Nat) :
    addrBits (level2shift level) (leafDesc level phys (regionAttrs attrs)) =
      phys % 2 ^ 48 / 2 ^ level2shift level * 2 ^ level2shift level := by
  have shift := level2shift_eq small
  apply Nat.eq_of_testBit_eq
  intro i
  rw [addrBits_testBit, leafDesc_bit, Nat.testBit_mul_two_pow, Nat.testBit_div_two_pow, Nat.testBit_mod_two_pow]
  by_cases low : level2shift level ≤ i
  · rw [show i - level2shift level + level2shift level = i by omega]
    by_cases high : i < 48
    · rw [clear.bit (by omega)]
      simp [low, high, show i < 64 by omega, show ¬ i = 0 by omega, show ¬ i = 10 by omega, show ¬ i < 2 by omega]
    · simp [high]
  · simp [low]

section Leaf
variable (clear : Clear attrs) (small : level ≤ 3) (aligned : phys % 2 ^ level2shift level = 0)
include clear small aligned

theorem leafDesc_page : (leafDesc level phys (regionAttrs attrs)).getLsbD 1 = decide (level = 3) := by
  have shift := level2shift_eq small
  rw [leafDesc_bit, clear.bit (by omega), testBit_of_multiple aligned (by omega)]
  simp

theorem leafDesc_addrBits (fits : phys < 2 ^ 48) :
    addrBits (level2shift level) (leafDesc level phys (regionAttrs attrs)) = phys := by
  rw [leafDesc_address clear small, Nat.mod_eq_of_lt fits, Nat.div_mul_cancel (Nat.dvd_of_mod_eq_zero aligned)]

theorem leafDesc_attrs (fits : phys < 2 ^ 48) :
    leafAttrs (leafDesc level phys (regionAttrs attrs)) = attrs ||| pteBlockAf := by
  have shift := level2shift_eq small
  apply BitVec.eq_of_getLsbD_eq
  intro i inside
  rw [leafAttrs_bit, leafDesc_bit, BitVec.getLsbD_or, blockAf_bit]
  by_cases type : i < 2 ∨ 12 ≤ i ∧ i < 48
  · rw [clear.bit type, decide_eq_false (fun free => free.2 type), decide_eq_false (show ¬ i = 10 by omega)]
    rfl
  · have noAddress : phys.testBit i = false := by
      by_cases low : i < 12
      · exact testBit_of_multiple aligned (by omega)
      · exact testBit_of_lt fits (by omega)
    rw [noAddress, decide_eq_true (show i < 64 ∧ ¬ (i < 2 ∨ 12 ≤ i ∧ i < 48) from ⟨inside, type⟩)]
    simp [show ¬ i = 0 by omega, show ¬ i < 2 by omega]

theorem leafDesc_aligned : Aligned level (leafDesc level phys (regionAttrs attrs)) := by
  have shift := level2shift_eq small
  intro i low high
  rw [leafDesc_bit, clear.bit (by omega), testBit_of_multiple aligned high]
  simp [show ¬ i = 0 by omega, show ¬ i = 10 by omega, show ¬ i < 2 by omega]

end Leaf

/-! ## Splitting -/

private theorem splitEntry_bit (i : Nat) : (splitEntry d level j).getLsbD i =
    (d.getLsbD i || (decide (i < 64 ∧ level2shift (level + 1 : Nat) ≤ i) && j.testBit
      (i - level2shift (level + 1 : Nat))) || decide (level = 2 ∧ i < 2)) := by
  have shifted : (BitVec.ofNat 64 j <<< level2shift (level + 1 : Nat)).getLsbD i =
      (decide (i < 64 ∧ level2shift (level + 1 : Nat) ≤ i) && j.testBit (i - level2shift (level + 1 : Nat))) := by
    rw [BitVec.getLsbD_shiftLeft, BitVec.getLsbD_ofNat]
    generalize level2shift (level + 1 : Nat) = shift
    by_cases small : i < 64
    · by_cases low : shift ≤ i
      · simp [small, low, show i - shift < 64 by omega]
      · simp [low]
    · simp [small]
  unfold splitEntry
  rw [show level2shift ((level : Int) + 1) = level2shift (level + 1 : Nat) from rfl]
  by_cases last : level + 1 = 3
  · rw [if_pos last, BitVec.getLsbD_or, BitVec.getLsbD_or, shifted, typeTable_bit]
    simp [show level = 2 by omega]
  · rw [if_neg last, BitVec.getLsbD_or, shifted]
    simp [show ¬ level = 2 by omega]

section Split
variable (upper : 1 ≤ level) (lower : level ≤ 2)
include upper lower

private theorem split_shift : level2shift level = level2shift (level + 1 : Nat) + 9 ∧
    12 ≤ level2shift (level + 1 : Nat) ∧ level2shift (level + 1 : Nat) ≤ 21 := by
  have first : level2shift level = 12 + 9 * (3 - level) := level2shift_eq (by omega)
  have second : level2shift (level + 1 : Nat) = 12 + 9 * (3 - (level + 1)) := level2shift_eq (by omega)
  omega

theorem splitEntry_addrBits (slot : j < 512) (aligned : Aligned level d) :
    addrBits (level2shift (level + 1 : Nat)) (splitEntry d level j) =
      addrBits (level2shift level) d + j * 2 ^ level2shift (level + 1 : Nat) := by
  obtain ⟨shift, low, high⟩ := split_shift upper lower
  have small : j * 2 ^ level2shift (level + 1 : Nat) < 2 ^ level2shift level := by
    rw [shift, Nat.pow_add, Nat.mul_comm]
    exact Nat.mul_lt_mul_of_pos_left (by omega) (Nat.two_pow_pos _)
  have disjoint : addrBits (level2shift level) d + j * 2 ^ level2shift (level + 1 : Nat) =
      addrBits (level2shift level) d ||| j * 2 ^ level2shift (level + 1 : Nat) := by
    rw [addrBits, Nat.mul_comm _ (2 ^ level2shift level)]
    exact Nat.two_pow_add_eq_or_of_lt small _
  rw [disjoint]
  apply Nat.eq_of_testBit_eq
  intro i
  have clear := aligned i
  rw [Nat.testBit_or, addrBits_testBit, addrBits_testBit, splitEntry_bit, Nat.mul_comm j, Nat.testBit_two_pow_mul]
  generalize level2shift (level + 1 : Nat) = fine at shift low high
  generalize level2shift level = coarse at shift clear
  by_cases inside : fine ≤ i
  · by_cases top : i < 48
    · by_cases above : coarse ≤ i
      · simp [inside, top, above, show i < 64 by omega, show ¬ i < 2 by omega]
      · rw [clear (by omega) (by omega)]
        simp [inside, top, above, show i < 64 by omega, show ¬ i < 2 by omega]
    · rw [testBit_of_lt (show j < 2 ^ 9 from slot) (show 9 ≤ i - fine by omega)]
      simp [top]
  · simp [inside, show ¬ coarse ≤ i by omega]

theorem splitEntry_attrs (slot : j < 512) : leafAttrs (splitEntry d level j) = leafAttrs d := by
  obtain ⟨shift, low, high⟩ := split_shift upper lower
  apply BitVec.eq_of_getLsbD_eq
  intro i _
  rw [leafAttrs_bit, leafAttrs_bit, splitEntry_bit]
  generalize level2shift (level + 1 : Nat) = fine at shift low high
  by_cases type : i < 2 ∨ 12 ≤ i ∧ i < 48
  · rw [decide_eq_false (fun free => free.2 type), Bool.false_and, Bool.false_and]
  · by_cases below : i < 12
    · simp [show ¬ fine ≤ i by omega, show ¬ i < 2 by omega]
    · rw [testBit_of_lt (show j < 2 ^ 9 from slot) (show 9 ≤ i - fine by omega)]
      simp [show ¬ i < 2 by omega]

theorem splitEntry_aligned (aligned : Aligned level d) : Aligned (level + 1) (splitEntry d level j) := by
  obtain ⟨shift, low, high⟩ := split_shift upper lower
  intro i above below
  rw [splitEntry_bit, aligned i above (by omega)]
  generalize level2shift (level + 1 : Nat) = fine at below
  simp [show ¬ fine ≤ i by omega, show ¬ i < 2 by omega]

/-- A piece of a block is a block, or a page on the last level. -/
theorem splitEntry_type (block : pteType d = pteTypeBlock) :
    (splitEntry d level j).getLsbD 0 = true ∧ (splitEntry d level j).getLsbD 1 = decide (level + 1 = 3) := by
  obtain ⟨shift, low, high⟩ := split_shift upper lower
  obtain ⟨valid, leaf⟩ := type_block_iff.mp block
  rw [splitEntry_bit, splitEntry_bit, valid, leaf]
  generalize level2shift (level + 1 : Nat) = fine at low
  simp [show ¬ fine ≤ 1 by omega, show level + 1 = 3 ↔ level = 2 by omega]

end Split

/-! ## Changing attributes -/

/-- The bits that an update changes. -/
def changedBits (flag : Bool) : BitVec 64 := if flag then pmdAttrmask else pmdAttrindxMask

theorem changedBits_bit (flag : Bool) (i : Nat) :
    (changedBits flag).getLsbD i = (decide (2 ≤ i ∧ i < 5) || flag && decide (i = 0 ∨ i = 53 ∨ i = 54)) := by
  cases flag with
  | true =>
    rw [changedBits, if_pos rfl, attrmask_bit]
    by_cases index : 2 ≤ i ∧ i < 5
    · simp [index]
    · simp [index]
  | false =>
    rw [changedBits, if_neg (by decide), attrindx_bit]
    simp

theorem withAttrs_bit (inside : i < 64) (flag : Bool) : (withAttrs d attrs flag).getLsbD i =
    if (changedBits flag).getLsbD i then attrs.getLsbD i else d.getLsbD i := by
  have form : withAttrs d attrs flag = d &&& ~~~changedBits flag ||| attrs &&& changedBits flag := by
    cases flag <;> rfl
  rw [form, BitVec.getLsbD_or, BitVec.getLsbD_and, BitVec.getLsbD_and, BitVec.getLsbD_not, decide_eq_true inside]
  cases (changedBits flag).getLsbD i <;> simp

/-- The last change counts. -/
theorem withAttrs_withAttrs (before : BitVec 64) (flag : Bool) :
    withAttrs (withAttrs d before flag) attrs flag = withAttrs d attrs flag := by
  apply BitVec.eq_of_getLsbD_eq
  intro i inside
  rw [withAttrs_bit inside, withAttrs_bit inside, withAttrs_bit inside]
  split <;> rfl

/-- Whether and where an entry leads on is not an attribute. -/
theorem withAttrs_same (kept : i = 1 ∨ 12 ≤ i ∧ i < 48) (flag : Bool) :
    (withAttrs d attrs flag).getLsbD i = d.getLsbD i := by
  rw [withAttrs_bit (by omega), changedBits_bit]
  cases flag <;> simp <;> omega

theorem withAttrs_addrBits (low : 12 ≤ shift) (flag : Bool) :
    addrBits shift (withAttrs d attrs flag) = addrBits shift d := by
  apply Nat.eq_of_testBit_eq
  intro i
  rw [addrBits_testBit, addrBits_testBit]
  by_cases inside : shift ≤ i ∧ i < 48
  · rw [withAttrs_same (by omega)]
  · simp [inside]

theorem withAttrs_nextTable (flag : Bool) : nextTable (withAttrs d attrs flag) = nextTable d := by
  apply Nat.eq_of_testBit_eq
  intro i
  show (withAttrs d attrs flag &&& 0x0000fffffffff000#64).getLsbD i = (d &&& 0x0000fffffffff000#64).getLsbD i
  rw [BitVec.getLsbD_and, BitVec.getLsbD_and, addrMask_bit]
  by_cases inside : 12 ≤ i ∧ i < 48
  · rw [withAttrs_same (.inr inside)]
  · simp [inside]

theorem withAttrs_aligned (small : level ≤ 3) (aligned : Aligned level d) (flag : Bool) :
    Aligned level (withAttrs d attrs flag) := by
  intro i low high
  have shift := level2shift_eq small
  rw [withAttrs_same (by omega)]
  exact aligned i low high

end RockOs.PageDescriptors
