import RockOs.CacheOptions

/-! `change_memory_attr` on the tables that `setup_pgtables` builds. The function
has a walk of its own. It starts on level 1 whatever the tables start on, takes a
page for one more table, and asks the memory type whether the NS bit is to be
left alone. So it edits the leaf of an address only where none of this matters. -/
namespace RockOs.MemoryAttributes
open Machine PageTables PageDescriptors PageWalk PageTableSteps PageLeaves PageTableSetup RadixTable
open CacheOptions

/-! ## The code -/

/-- The `MT_*` constants. -/
inductive MemoryType where
  | deviceNgnrne
  | deviceNgnre
  | deviceGre
  | normalNc
  | normal
  | deviceNgre
  | ignore
  deriving DecidableEq, Repr

def MemoryType.value : MemoryType → Nat
  | deviceNgnrne => 0
  | deviceNgnre => 1
  | deviceGre => 2
  | normalNc => 3
  | normal => 4
  | deviceNgre => 5
  | ignore => 0xff

/-- The `MEMORY_*` constants. -/
inductive Security where
  | secure
  | nonSecure
  | nsIgnore
  deriving DecidableEq, Repr

def Security.value : Security → Nat
  | secure => 0
  | nonSecure => 1
  | nsIgnore => 2

/-- The two stores to the entry on which the walk ends. The second test is on
`memory_type`, as in the source. -/
def changeAttrs (memoryType isNonSecure : Nat) (d : BitVec 64) : BitVec 64 :=
  let typed :=
    if memoryType ≠ MemoryType.ignore.value then
      BitVec.ofNat 64 ((memoryType &&& 0x7) <<< 2) ||| (d &&& ~~~(7#64 <<< 2))
    else d
  if memoryType ≠ Security.nsIgnore.value then
    BitVec.ofNat 64 ((isNonSecure &&& 0x1) <<< 5) ||| (typed &&& ~~~(1#64 <<< 5))
  else typed

/-- The loop from level `i` on, with `left` levels to go. -/
def changeLoop (mem : Nat → BitVec 64) (va memoryType isNonSecure : Nat) : (left i table : Nat) → Nat → BitVec 64
  | 0, _, _ => mem
  | left + 1, i, table =>
    let pte := table + 8 * (va >>> level2shift i &&& 0x1ff)
    if pteType (mem pte) = pteTypeTable then
      changeLoop mem va memoryType isNonSecure left (i + 1) (mem pte &&& ~~~0xfff#64).toNat
    else Function.update mem pte (changeAttrs memoryType isNonSecure (mem pte))

/-- The memory after `change_memory_attr`, for what `get_current_ttbr` returns. -/
def changeMemoryAttr (ttbr va memoryType isNonSecure : Nat) (mem : Nat → BitVec 64) : Nat → BitVec 64 :=
  changeLoop mem va memoryType isNonSecure 3 1 (BitVec.ofNat 64 ttbr &&& ~~~0xfff#64).toNat

/-! ## What it is for -/

/-- The NS bit of a leaf. -/
def ns (d : BitVec 64) : Bool := d.getLsbD 5

/-- A descriptor with the type and the security that are asked for, and otherwise
the old one. -/
structure Edited (type : MemoryType) (security : Security) (old new : BitVec 64) : Prop where
  type : attrIndx new = if type = .ignore then attrIndx old else BitVec.ofNat 3 type.value
  security : ns new = if security = .nsIgnore then ns old else decide (security = .nonSecure)
  rest : ∀ i, ¬ (2 ≤ i ∧ i < 6) → new.getLsbD i = old.getLsbD i

/-- The entry that maps `va` is edited, and no other word changes. -/
def EditsLeaf (memMap : List MmRegion) (s : Mmu) (va : Nat) (type : MemoryType) (security : Security)
    (mem : Nat → BitVec 64) : Prop :=
  ∃ slot, (slots (startLevel memMap) s va).getLast? = some slot ∧ Edited type security (s.mem slot) (mem slot) ∧
    ∀ x, x ≠ slot → mem x = s.mem x

/-! ## Where it does that -/

/-- The address whose tables the loop walks. With tables from level 0 on every
index is used one level too high. -/
def walked (memMap : List MmRegion) (va : Nat) : Nat :=
  if startLevel memMap = 1 then va else va / 2 ^ 12 % 2 ^ 27 * 2 ^ 21

/-- What is asked for is what the leaf has. -/
def AlreadySet (type : MemoryType) (security : Security) (d : BitVec 64) : Prop :=
  (type = .ignore ∨ attrIndx d = BitVec.ofNat 3 type.value) ∧
    (security = .nsIgnore ∨ ns d = decide (security = .nonSecure))

/-- The stores change nothing. -/
def StoresSame (type : MemoryType) (security : Security) (d : BitVec 64) : Prop :=
  (type = .ignore ∨ attrIndx d = BitVec.ofNat 3 type.value) ∧
    (type = .deviceGre ∨ ns d = decide (security = .nonSecure))

/-- The NS bit comes out right although the memory type decides about it. -/
def SecurityRight (type : MemoryType) (security : Security) (d : BitVec 64) : Prop :=
  if type = .deviceGre then security = .nsIgnore ∨ ns d = decide (security = .nonSecure)
  else security ≠ .nsIgnore ∨ ns d = false

/-- When the call edits the leaf of `va`. Where the walk of the loop ends on that
leaf above the pages, this is a matter of the NS bit. Elsewhere nothing may be
left to do, and what the loop finds instead must not change. -/
def EditRight (memMap : List MmRegion) (va : Nat) (leaf : Nat × BitVec 64) (type : MemoryType) (security : Security) :
    Prop :=
  let found := mapLeaves memMap (walked memMap va)
  if found.1 ≠ 3 ∧ SameBlock leaf.1 (walked memMap va) va then SecurityRight type security leaf.2
  else AlreadySet type security leaf.2 ∧ (found.1 = 3 ∨ StoresSame type security found.2)

section Decide
variable (type : MemoryType) (security : Security) (d : BitVec 64)

instance : Decidable (AlreadySet type security d) := inferInstanceAs (Decidable (_ ∧ _))

instance : Decidable (StoresSame type security d) := inferInstanceAs (Decidable (_ ∧ _))

instance : Decidable (SecurityRight type security d) :=
  inferInstanceAs (Decidable (ite (type = .deviceGre) (_ ∨ _) (_ ∨ _)))

instance (memMap : List MmRegion) (va : Nat) (leaf : Nat × BitVec 64) :
    Decidable (EditRight memMap va leaf type security) :=
  inferInstanceAs (Decidable (ite (_ ∧ _) (SecurityRight type security leaf.2) (_ ∧ _)))

end Decide

/-- A store to a field of `w` bits from bit `k` on. -/
theorem field_bit (d : BitVec 64) (v : Nat) {k w : Nat} (inside : k + w ≤ 64) (i : Nat) :
    (BitVec.ofNat 64 ((v &&& (2 ^ w - 1)) <<< k) ||| (d &&& ~~~(BitVec.ofNat 64 (2 ^ w - 1) <<< k))).getLsbD i =
      if k ≤ i ∧ i < k + w then v.testBit (i - k) else d.getLsbD i := by
  rw [BitVec.getLsbD_or, BitVec.getLsbD_and, BitVec.getLsbD_not, BitVec.getLsbD_shiftLeft, BitVec.getLsbD_ofNat,
    BitVec.getLsbD_ofNat, Nat.testBit_shiftLeft, Nat.testBit_and, Nat.testBit_two_pow_sub_one]
  by_cases word : i < 64
  · by_cases low : k ≤ i
    · by_cases high : i < k + w
      · simp [word, low, high, show i - k < w by omega, show i - k < 64 by omega]
      · simp [word, low, high, show ¬ i - k < w by omega]
    · simp [word, low, show i < k by omega]
  · rw [if_neg (by omega), BitVec.getLsbD_of_ge _ _ (by omega)]
    simp [word]

section Bits
variable (type : MemoryType) (security : Security) (d : BitVec 64)

private theorem changeAttrs_bit (i : Nat) : (changeAttrs type.value security.value d).getLsbD i =
    if i = 5 ∧ type ≠ .deviceGre then decide (security = .nonSecure)
    else if (2 ≤ i ∧ i < 5) ∧ type ≠ .ignore then type.value.testBit (i - 2)
    else d.getLsbD i := by
  have typeField : (BitVec.ofNat 64 ((type.value &&& 0x7) <<< 2) ||| (d &&& ~~~(7#64 <<< 2))).getLsbD i =
      if 2 ≤ i ∧ i < 5 then type.value.testBit (i - 2) else d.getLsbD i :=
    field_bit d type.value (show 2 + 3 ≤ 64 by decide) i
  have securityField : ∀ word : BitVec 64,
      (BitVec.ofNat 64 ((security.value &&& 0x1) <<< 5) ||| (word &&& ~~~(1#64 <<< 5))).getLsbD i =
        if 5 ≤ i ∧ i < 6 then security.value.testBit (i - 5) else word.getLsbD i :=
    fun word => field_bit word security.value (show 5 + 1 ≤ 64 by decide) i
  have typed : type.value ≠ MemoryType.ignore.value ↔ type ≠ .ignore := by cases type <;> decide
  have secured : type.value ≠ Security.nsIgnore.value ↔ type ≠ .deviceGre := by cases type <;> decide
  have bit : security.value.testBit 0 = decide (security = .nonSecure) := by cases security <;> decide
  simp only [changeAttrs, typed, secured]
  generalize whole : (if type ≠ .ignore then BitVec.ofNat 64 ((type.value &&& 0x7) <<< 2) ||| (d &&& ~~~(7#64 <<< 2))
    else d) = word
  have inner : word.getLsbD i =
      if (2 ≤ i ∧ i < 5) ∧ type ≠ .ignore then type.value.testBit (i - 2) else d.getLsbD i := by
    rw [← whole]
    by_cases none : type = .ignore
    · rw [if_neg (not_not.mpr none), if_neg (fun both => both.2 none)]
    · rw [if_pos none, typeField]
      simp only [ne_eq, none, not_false_eq_true, and_true]
  by_cases gre : type = .deviceGre
  · rw [if_neg (not_not.mpr gre), if_neg (fun both => both.2 gre), inner]
  · rw [if_pos gre, securityField]
    by_cases five : i = 5
    · rw [if_pos (by omega), if_pos ⟨five, gre⟩, five, bit]
    · rw [if_neg (by omega), if_neg (fun both => five both.1), inner]

private theorem changeAttrs_index : attrIndx (changeAttrs type.value security.value d) =
    if type = .ignore then attrIndx d else BitVec.ofNat 3 type.value := by
  apply BitVec.eq_of_getLsbD_eq
  intro i inside
  rw [attrIndx, BitVec.getLsbD_extractLsb', changeAttrs_bit, if_neg (by omega)]
  by_cases none : type = .ignore
  · rw [if_neg (fun both => both.2 none), if_pos none, attrIndx, BitVec.getLsbD_extractLsb']
  · rw [if_pos ⟨by omega, none⟩, if_neg none, BitVec.getLsbD_ofNat, Nat.add_sub_cancel_left]

private theorem changeAttrs_ns : ns (changeAttrs type.value security.value d) =
    if type = .deviceGre then ns d else decide (security = .nonSecure) := by
  rw [ns, changeAttrs_bit]
  by_cases gre : type = .deviceGre
  · rw [if_neg (fun both => both.2 gre), if_neg (by omega), if_pos gre, ns]
  · rw [if_pos ⟨rfl, gre⟩, if_neg gre]

private theorem changeAttrs_rest (i : Nat) (outside : ¬ (2 ≤ i ∧ i < 6)) :
    (changeAttrs type.value security.value d).getLsbD i = d.getLsbD i := by
  rw [changeAttrs_bit, if_neg (by omega), if_neg (by omega)]

/-- Two words that agree in the fields and elsewhere. -/
theorem fields_ext {d e : BitVec 64} (index : attrIndx d = attrIndx e) (bit : ns d = ns e)
    (rest : ∀ i, ¬ (2 ≤ i ∧ i < 6) → d.getLsbD i = e.getLsbD i) : d = e := by
  apply BitVec.eq_of_getLsbD_eq
  intro i _
  by_cases five : i = 5
  · rw [five]
    exact bit
  · by_cases inside : 2 ≤ i ∧ i < 5
    · have same := congrArg (fun index => index.getLsbD (i - 2)) index
      simp only [attrIndx, BitVec.getLsbD_extractLsb', show 2 + (i - 2) = i by omega] at same
      simpa [show i - 2 < 3 by omega] using same
    · exact rest i (by omega)

private theorem stored_iff :
    Edited type security d (changeAttrs type.value security.value d) ↔ SecurityRight type security d := by
  have index := changeAttrs_index type security d
  have bit := changeAttrs_ns type security d
  have right : ns (changeAttrs type.value security.value d) =
      (if security = .nsIgnore then ns d else decide (security = .nonSecure)) ↔ SecurityRight type security d := by
    rw [bit, SecurityRight]
    by_cases gre : type = .deviceGre
    · rw [if_pos gre, if_pos gre]
      cases security <;> simp
    · rw [if_neg gre, if_neg gre]
      cases security <;> cases ns d <;> decide
  exact ⟨fun edited => right.mp edited.security,
    fun holds => ⟨index, right.mpr holds, changeAttrs_rest type security d⟩⟩

private theorem unstored_iff : Edited type security d d ↔ AlreadySet type security d := by
  rw [AlreadySet, or_iff_not_imp_left, or_iff_not_imp_left, ← left_eq_ite_iff, ← left_eq_ite_iff]
  exact ⟨fun edited => ⟨edited.type, edited.security⟩, fun set => ⟨set.1, set.2, fun _ _ => rfl⟩⟩

private theorem stores_same_iff : changeAttrs type.value security.value d = d ↔ StoresSame type security d := by
  rw [StoresSame, or_iff_not_imp_left, or_iff_not_imp_left, ← left_eq_ite_iff, ← left_eq_ite_iff,
    ← changeAttrs_index type security d, ← changeAttrs_ns type security d]
  constructor
  · intro same
    rw [same]
    exact ⟨rfl, rfl⟩
  · rintro ⟨index, bit⟩
    exact fields_ext index.symm bit.symm (changeAttrs_rest type security d)

end Bits

/-! ## The walk -/

private theorem clear_offset (d : BitVec 64) : (d &&& ~~~0xfff#64).toNat = d.toNat / 4096 * 4096 := by
  apply Nat.eq_of_testBit_eq
  intro i
  have low : (0xfff#64).getLsbD i = decide (i < 12) := by
    rw [show 0xfff#64 = BitVec.ofNat 64 (2 ^ 12 - 1) from rfl, BitVec.getLsbD_ofNat, Nat.testBit_two_pow_sub_one]
    by_cases inside : i < 64
    · simp [inside]
    · simp [inside, show ¬ i < 12 by omega]
  rw [show (4096 : Nat) = 2 ^ 12 from rfl, Nat.testBit_mul_two_pow, Nat.testBit_div_two_pow, BitVec.testBit_toNat,
    BitVec.getLsbD_and, BitVec.getLsbD_not, low, BitVec.testBit_toNat]
  by_cases address : 12 ≤ i
  · by_cases inside : i < 64
    · simp [address, inside, show ¬ i < 12 by omega]
    · rw [show i - 12 + 12 = i by omega, BitVec.getLsbD_of_ge d i (by omega)]
      simp
  · simp [address, show i < 12 by omega]

/-- The loop drops the low bits of a table descriptor only, which leaves the
address if there is nothing above it. -/
theorem nextTable_plain {d : BitVec 64} (plain : d.toNat < 2 ^ 48) : (d &&& ~~~0xfff#64).toNat = nextTable d := by
  have address : nextTable d = addrBits 12 d := by
    apply Nat.eq_of_testBit_eq
    intro i
    rw [addrBits_testBit, nextTable, BitVec.testBit_toNat, BitVec.getLsbD_and, addrMask_bit]
    cases d.getLsbD i <;> simp
  rw [clear_offset, address, addrBits, Nat.mod_eq_of_lt plain, show (4096 : Nat) = 2 ^ 12 from rfl]

/-- The loop uses the indices of another address. -/
theorem index_walked (memMap : List MmRegion) (va : Nat) {k : Nat} (small : k < 3) :
    va >>> level2shift (1 + k : Nat) &&& 0x1ff = format.index (startLevel memMap + k) (walked memMap va) := by
  have top : startLevel memMap ≤ 1 := startLevel_le
  unfold walked
  by_cases first : startLevel memMap = 1
  · rw [if_pos first, first]
    rfl
  · rw [if_neg first, show startLevel memMap = 0 by omega]
    change format.index (1 + k) va = _
    rw [index_eq, index_eq, level2shift_eq (by omega), level2shift_eq (by omega)]
    obtain rfl | rfl | rfl : k = 0 ∨ k = 1 ∨ k = 2 := by omega
    all_goals simp only [Nat.reduceAdd, Nat.reduceSub, Nat.reduceMul, Nat.reducePow]; omega

section Walk
variable {mem : Nat → BitVec 64} {va b memoryType isNonSecure left i j table slot : Nat} {d : BitVec 64}
  {front : List (BitVec 64)}

/-- Through tables the loop follows the walk of `b`, as far as it goes. It stores
to the last entry unless that looks like one more table. -/
theorem changeLoop_walk (indices : ∀ k < left, va >>> level2shift (i + k : Nat) &&& 0x1ff = format.index (j + k) b)
    (levels : j + left ≤ 4) (split : entriesFrom mem b j table = front ++ [d])
    (last : (pathFrom mem b j table).getLast? = some slot) (tables : ∀ e ∈ front, pteType e = pteTypeTable)
    (plain : ∀ e ∈ front, e.toNat < 2 ^ 48) :
    changeLoop mem va memoryType isNonSecure left i table =
      if front.length < left ∧ pteType d ≠ pteTypeTable then
        Function.update mem slot (changeAttrs memoryType isNonSecure (mem slot))
      else mem := by
  induction left generalizing i j table front with
  | zero => rw [changeLoop, if_neg (by omega)]
  | succ left ih =>
    have first : table + 8 * (va >>> level2shift i &&& 0x1ff) = format.slot j table b := by
      have index := indices 0 (by omega)
      rw [Nat.add_zero, Nat.add_zero] at index
      rw [index]
      rfl
    have shape := entriesFrom_shape (by omega) split
    rw [entriesFrom_cons (by omega)] at split
    rw [pathFrom, levelsFrom_cons (by omega), path_cons] at last
    rw [changeLoop]
    simp only [first]
    cases front with
    | nil =>
      rw [List.nil_append, List.cons.injEq, List.map_eq_nil_iff] at split
      obtain ⟨entry, ends⟩ := split
      rw [ends, List.getLast?_singleton, Option.some.injEq] at last
      rw [last] at entry ⊢
      by_cases leads : pteType d = pteTypeTable
      · -- only a page looks like a table here, and then the loop is over
        have deep : ¬ j < 3 := fun above => by
          have clear := shape.2 (by simpa using above)
          rw [(type_table_iff.mp leads).2] at clear
          cases clear
        obtain rfl : left = 0 := by omega
        rw [if_pos (by rw [entry, leads]), changeLoop, if_neg (fun both => both.2 leads)]
      · rw [if_neg (by rw [entry]; exact leads), if_pos ⟨Nat.succ_pos _, leads⟩]
    | cons e front =>
      rw [List.cons_append, List.cons.injEq] at split
      obtain ⟨entry, rest⟩ := split
      have leads := tables e List.mem_cons_self
      have child := child_of_table (type_table_iff.mp leads).2
      rw [entry, child] at rest last
      have next : entriesFrom mem b (j + 1) (nextTable e) = front ++ [d] := rest
      have more : pathFrom mem b (j + 1) (nextTable e) ≠ [] := fun none => by
        rw [entriesFrom, Format.entries, show format.path mem b _ _ = [] from none] at next
        cases front <;> cases next
      have lastNext : (pathFrom mem b (j + 1) (nextTable e)).getLast? = some slot := by
        rw [← last, Format.behind, List.getLast?_cons_of_ne_nil more]
      rw [if_pos (by rw [entry, leads]), entry, nextTable_plain (plain e List.mem_cons_self),
        ih (fun k small => ?_) (by omega) next lastNext (fun f member => tables f (List.mem_cons_of_mem _ member))
          (fun f member => plain f (List.mem_cons_of_mem _ member)), List.length_cons]
      · simp only [Nat.add_lt_add_iff_right]
      · have index := indices (k + 1) (by omega)
        rw [show j + 1 + k = j + (k + 1) by omega, ← index, show i + 1 + k = i + (k + 1) by omega]

end Walk

/-! ## The call -/

section Call
variable {memMap : List MmRegion} {start va b slot : Nat} {other : Nat → Prop} {m : Leaves} {s : Mmu}
  {leaf : Nat × BitVec 64} {front : List (BitVec 64)} {type : MemoryType} {security : Security}

private theorem walked_reach (inside : va < 2 ^ (getTcr memMap 0).vaBits) :
    InReach (startLevel memMap) (walked memMap va) := by
  unfold walked
  by_cases first : startLevel memMap = 1
  · rw [if_pos first]
    exact PageWalk.reach inside
  · have top : startLevel memMap ≤ 1 := startLevel_le
    rw [if_neg first, InReach, show startLevel memMap = 0 by omega]
    change _ < 2 ^ 48
    omega

private theorem Clean.last_slot (clean : Clean start front leaf (entries start s b)) :
    ∃ slot, (slots start s b)[front.length]? = some slot ∧ (slots start s b).getLast? = some slot ∧
      s.mem slot = leaf.2 := by
  have long : (slots start s b).length = front.length + 1 := by
    rw [← entries_length, clean.split, List.length_append, List.length_singleton]
  obtain ⟨slot, met⟩ : ∃ slot, (slots start s b)[front.length]? = some slot :=
    ⟨_, List.getElem?_eq_getElem (show front.length < _ by omega)⟩
  refine ⟨slot, met, ?_, ?_⟩
  · rw [List.getLast?_eq_getElem?, long, Nat.add_sub_cancel, met]
  · have entry := entry_of_slot met
    rw [clean.split, List.getElem?_concat_length, Option.some.injEq] at entry
    exact entry.symm

private theorem editsLeaf_iff {mem : Nat → BitVec 64} (last : (slots (startLevel memMap) s va).getLast? = some slot) :
    EditsLeaf memMap s va type security mem ↔
      Edited type security (s.mem slot) (mem slot) ∧ ∀ x, x ≠ slot → mem x = s.mem x := by
  unfold EditsLeaf
  rw [last]
  constructor
  · rintro ⟨_, same, edited⟩
    cases same
    exact edited
  · exact fun edited => ⟨slot, rfl, edited⟩

/-- What the call does to the memory. -/
theorem changeMemoryAttr_eq (built : Built (startLevel memMap) other m s) (aligned : s.tlbAddr % 4096 = 0)
    (inside : va < 2 ^ (getTcr memMap 0).vaBits) (mapped : (m va).2.getLsbD 0 = true)
    (last : (slots (startLevel memMap) s (walked memMap va)).getLast? = some slot) (memoryType isNonSecure : Nat) :
    changeMemoryAttr s.tlbAddr va memoryType isNonSecure s.mem =
      if (m (walked memMap va)).1 = 3 then s.mem
      else Function.update s.mem slot (changeAttrs memoryType isNonSecure (s.mem slot)) := by
  have top : startLevel memMap ≤ 1 := startLevel_le
  obtain ⟨front, clean⟩ := built.clean _ (walked_reach inside)
  have base : (BitVec.ofNat 64 s.tlbAddr &&& ~~~0xfff#64).toNat = s.tlbAddr := by
    have low := built.low
    have high := built.high
    have fits := built.fits
    rw [clear_offset, BitVec.toNat_ofNat, Nat.mod_eq_of_lt (by omega)]
    omega
  have level := clean.level
  have short := clean.short
  unfold changeMemoryAttr
  rw [base, changeLoop_walk (fun k small => index_walked memMap va small) (by omega) clean.split last clean.tables
    clean.plain]
  by_cases page : (m (walked memMap va)).1 = 3
  · rw [if_pos page, if_neg]
    rintro ⟨early, leaf⟩
    -- only tables from level 1 on are walked down to the pages, and there the address is the same
    have first : startLevel memMap = 1 := by omega
    rw [walked, if_pos first] at clean leaf page
    obtain ⟨_, valid, bit⟩ := clean.shape.resolve_left (fun fault => by
      rw [(type_fault_iff.mp fault).1] at mapped
      cases mapped)
    exact leaf (type_table_iff.mpr ⟨valid, by rw [bit, decide_eq_true page]⟩)
  · have leaf : pteType (m (walked memMap va)).2 ≠ pteTypeTable := by
      intro table
      rcases clean.shape with fault | ⟨_, _, bit⟩
      · rw [table] at fault
        exact absurd fault (by decide)
      · rw [(type_table_iff.mp table).2, decide_eq_false page] at bit
        cases bit
    rw [if_neg page, if_pos ⟨by omega, leaf⟩]

/-- The slots of two leaves. -/
theorem slot_eq_iff (built : Built (startLevel memMap) other m s) (reach : InReach (startLevel memMap) va)
    (reachB : InReach (startLevel memMap) b) {slotB : Nat}
    (last : (slots (startLevel memMap) s va).getLast? = some slot)
    (lastB : (slots (startLevel memMap) s b).getLast? = some slotB) :
    slotB = slot ↔ SameBlock (m va).1 b va := by
  obtain ⟨front, clean⟩ := built.clean va reach
  obtain ⟨frontB, cleanB⟩ := built.clean b reachB
  obtain ⟨_, met, same, entry⟩ := Clean.last_slot clean
  cases last.symm.trans same
  obtain ⟨_, metB, sameB, entryB⟩ := Clean.last_slot cleanB
  cases lastB.symm.trans sameB
  have level := clean.level
  have short := clean.short
  have blocks := same_block (show startLevel memMap + front.length < 4 by omega) reachB reach
  rw [level] at blocks
  rw [← blocks]
  constructor
  · rintro rfl
    obtain ⟨depth, agree⟩ := built.tree.apart b va reachB reach _ _ _ metB met
    rwa [depth] at agree
  · intro agree
    have through := visited_of_same met agree.symm
    rcases cleanB.entry (entry_of_slot through) with ⟨table, above, _⟩ | ⟨_, depth⟩
    · -- the leaf of `va` is a page then, and nothing is below it
      rw [entry] at table
      have shortB := cleanB.short
      rcases clean.shape with fault | ⟨_, _, bit⟩
      · rw [table] at fault
        exact absurd fault (by decide)
      · rw [(type_table_iff.mp table).2] at bit
        have page := of_decide_eq_true bit.symm
        omega
    · rw [← depth, through] at metB
      exact (Option.some.inj metB).symm

private theorem edits_iff (reserved : Reserved before) (built : setupPgtables memMap before = .ret () s)
    (proper : ∀ m ∈ regions memMap, Proper m) (mapped : leafOf memMap s va = some leaf) (type : MemoryType)
    (security : Security) :
    EditsLeaf memMap s va type security (changeMemoryAttr s.tlbAddr va type.value security.value s.mem) ↔
      EditRight memMap va leaf type security := by
  obtain ⟨within, tables⟩ := Outcome.Ends.of_ret (setupPgtables_spec
    (fun m member => pageAligned_of_proper (proper m member)) (fun m member => (proper m member).virtEnd) reserved)
    built
  have inside := inside_of_leaf mapped
  rw [leafOf_leaves tables inside] at mapped
  obtain ⟨rfl, valid⟩ := decode_some mapped
  obtain ⟨front, clean⟩ := tables.clean va (PageWalk.reach inside)
  obtain ⟨slot, _, last, entry⟩ := Clean.last_slot clean
  obtain ⟨frontW, cleanW⟩ := tables.clean _ (walked_reach inside)
  obtain ⟨slotW, _, lastW, entryW⟩ := Clean.last_slot cleanW
  have aligned : s.tlbAddr % 4096 = 0 := by
    rw [within.addr]
    exact reserved.aligned
  have slots := slot_eq_iff tables (PageWalk.reach inside) (walked_reach inside) last lastW
  rw [changeMemoryAttr_eq tables aligned inside valid lastW, editsLeaf_iff last]
  simp only [EditRight]
  by_cases page : (mapLeaves memMap (walked memMap va)).1 = 3
  · rw [if_pos page, if_neg (fun both => both.1 page), entry, unstored_iff]
    simp [page]
  · rw [if_neg page]
    by_cases same : slotW = slot
    · rw [if_pos ⟨page, slots.mp same⟩, same, Function.update_self, entry, stored_iff]
      exact and_iff_left (fun x different => Function.update_of_ne different _ _)
    · rw [if_neg (fun both => same (slots.mpr both.2)), Function.update_of_ne (Ne.symm same), entry, unstored_iff,
        or_iff_right page, ← stores_same_iff, ← entryW]
      refine and_congr_right (fun _ => ⟨fun kept => ?_, fun stays x _ => ?_⟩)
      · have unchanged := kept slotW same
        rwa [Function.update_self] at unchanged
      · rw [stays, Function.update_eq_self]

/-- On tables from `setup_pgtables` the call edits the leaf of a mapped address and
nothing else exactly under this condition. -/
theorem change_memory_attr_iff (memMap : List MmRegion) (proper : ∀ m ∈ regions memMap, Proper m) (before s : Mmu)
    (reserved : Reserved before) (built : setupPgtables memMap before = .ret () s) (va : Nat) (leaf : Nat × BitVec 64)
    (mapped : leafOf memMap s va = some leaf) (type : MemoryType) (security : Security) :
    EditsLeaf memMap s va type security (changeMemoryAttr s.tlbAddr va type.value security.value s.mem) ↔
      EditRight memMap va leaf type security :=
  edits_iff reserved built proper mapped type security

end Call

/-- 1 GiB of non-secure memory. -/
def nonSecureMap : List MmRegion :=
  [{ virt := 0x40000000, phys := 0x40000000, size := 0x40000000, attrs := 0x730#64 },
    { virt := 0, phys := 0, size := 0, attrs := 0#64 }]

def largeSpace : Mmu := { blankMmu with tlbSize := 0x200000000 }

private theorem nonSecureMap_proper : ∀ m ∈ regions nonSecureMap, Proper m := by
  have listed : regions nonSecureMap = nonSecureMap.take 1 := rfl
  rw [listed, nonSecureMap, List.take_succ_cons, List.take_zero, List.forall_mem_singleton]
  constructor
  all_goals decide

private theorem largeSpace_reserved : Reserved largeSpace := ⟨⟨by decide, by decide, by decide⟩, rfl⟩

private theorem nonSecureMap_tables : ∃ s, setupPgtables nonSecureMap largeSpace = .ret () s ∧
    leafOf nonSecureMap s 0x40000000 = some (1, 0x40000731#64) := by
  obtain ⟨_, s, built, _, tables⟩ := (setupPgtables_spec
    (fun m member => pageAligned_of_proper (nonSecureMap_proper m member))
    (fun m member => (nonSecureMap_proper m member).virtEnd) largeSpace_reserved).returns (by decide)
  refine ⟨s, built, ?_⟩
  rw [leafOf_leaves tables (by decide)]
  decide

/-- Asked for another type and to leave the NS bit alone, the call clears it. -/
theorem change_memory_attr_ns_lost : ∃ s, setupPgtables nonSecureMap largeSpace = .ret () s ∧
    leafOf nonSecureMap s 0x40000000 = some (1, 0x40000731#64) ∧
    ¬ EditsLeaf nonSecureMap s 0x40000000 .normalNc .nsIgnore
      (changeMemoryAttr s.tlbAddr 0x40000000 MemoryType.normalNc.value Security.nsIgnore.value s.mem) := by
  obtain ⟨s, built, mapped⟩ := nonSecureMap_tables
  refine ⟨s, built, mapped, ?_⟩
  rw [edits_iff largeSpace_reserved built nonSecureMap_proper mapped]
  decide

theorem change_memory_attr_secure : ∃ s, setupPgtables nonSecureMap largeSpace = .ret () s ∧
    EditsLeaf nonSecureMap s 0x40000000 .normalNc .secure
      (changeMemoryAttr s.tlbAddr 0x40000000 MemoryType.normalNc.value Security.secure.value s.mem) := by
  obtain ⟨s, built, mapped⟩ := nonSecureMap_tables
  refine ⟨s, built, (change_memory_attr_iff nonSecureMap nonSecureMap_proper largeSpace s largeSpace_reserved built _ _
    mapped .normalNc .secure).mpr ?_⟩
  decide

end RockOs.MemoryAttributes
