import RockOs.PageDescriptors
import RockOs.RadixTable

/-! What the tables mean. The hardware walks from the table base through valid
table descriptors to a valid block or page. The tables are a radix tree when
bit 1 alone decides whether an entry leads on, so that an entry made invalid
for a while keeps its subtree; `find_pte` and the hardware walk are then
functions of the entries the tree holds for an address. -/
namespace RockOs.PageWalk
open Machine PageTables PageDescriptors RadixTable

/-! ## The hardware -/

/-- The walk with a 4 KiB granule, from level `i` with `left` levels to go: the
level and the descriptor of the block or page reached. A level-0 entry cannot
be a block. -/
def hardwareWalk (mem : Nat → BitVec 64) (va : Nat) : (left i table : Nat) → Option (Nat × BitVec 64)
  | 0, _, _ => none
  | left + 1, i, table =>
    let d := mem (table + 8 * (va >>> level2shift i &&& 0x1ff))
    if d.getLsbD 0 = false then none
    else if i = 3 then if d.getLsbD 1 then some (3, d) else none
    else if d.getLsbD 1 then hardwareWalk mem va left (i + 1) (nextTable d)
    else if i = 0 then none
    else some (i, d)

/-- The leaf descriptor for `va` in the tables at `tlb_addr`, with the address
size that `get_tcr` programs; larger addresses fault. -/
def leafOf (memMap : List MmRegion) (s : Mmu) (va : Nat) : Option (Nat × BitVec 64) :=
  if 2 ^ (getTcr memMap 0).vaBits ≤ va then none
  else hardwareWalk s.mem va (4 - startLevel memMap) (startLevel memMap) s.tlbAddr

/-- The block or page address of a leaf and the offset of `va` in it. -/
def outputAddr (leaf : Nat × BitVec 64) (va : Nat) : Nat :=
  addrBits (level2shift leaf.1) leaf.2 + va % 2 ^ level2shift leaf.1

/-- Where `va` translates to, and with which attributes. -/
def translate (memMap : List MmRegion) (s : Mmu) (va : Nat) : Option (Nat × BitVec 64) :=
  (leafOf memMap s va).map (fun leaf => (outputAddr leaf va, leafAttrs leaf.2))

/-! ## The tree -/

/-- Tables of 512 descriptors. -/
def format : Format Nat (BitVec 64) where
  width := 8
  fanout := 512
  child d := if d.getLsbD 1 then some (nextTable d) else none
  index level va := va >>> level2shift level &&& 0x1ff
  width_pos := by decide
  index_lt level va := by
    have bound := @Nat.and_le_right (va >>> level2shift level) 0x1ff
    omega

/-- The levels from `i` down to the pages. -/
def levelsFrom (i : Nat) : List Nat := List.range' i (4 - i)

theorem levelsFrom_cons (more : i < 4) : levelsFrom i = i :: levelsFrom (i + 1) := by
  have count : 4 - i = 4 - (i + 1) + 1 := by omega
  rw [levelsFrom, levelsFrom, count, List.range'_succ]

theorem levelsFrom_get (small : i + k < 4) : (levelsFrom i)[k]? = some (i + k) := by
  rw [levelsFrom, List.getElem?_range' (by omega), Nat.one_mul]

/-- The piece of a block that an address is in. -/
abbrev pieceAt (level : Nat) (d : BitVec 64) (va : Nat) : BitVec 64 := splitEntry d level (format.index (level + 1) va)

theorem pieceAt_type (upper : 1 ≤ level) (lower : level ≤ 2) (block : pteType d = pteTypeBlock) (va : Nat) :
    (pieceAt level d va).getLsbD 0 = true ∧ (pieceAt level d va).getLsbD 1 = decide (level + 1 = 3) :=
  splitEntry_type upper lower block

section Walks
variable {mem : Nat → BitVec 64} {va table : Nat}

/-- The slots and entries of the walk from a table of level `i`. -/
abbrev pathFrom (mem : Nat → BitVec 64) (va i table : Nat) : List Nat := format.path mem va (levelsFrom i) table

abbrev entriesFrom (mem : Nat → BitVec 64) (va i table : Nat) : List (BitVec 64) :=
  format.entries mem va (levelsFrom i) table

theorem child_of_table (leads : d.getLsbD 1 = true) : format.child d = some (nextTable d) := if_pos leads

theorem child_of_leaf (leaf : d.getLsbD 1 = false) : format.child d = none := if_neg (by simpa using leaf)

theorem entriesFrom_cons (more : i < 4) :
    entriesFrom mem va i table = mem (format.slot i table va) ::
      (format.behind mem va (levelsFrom (i + 1)) (format.child (mem (format.slot i table va)))).map mem := by
  rw [entriesFrom, levelsFrom_cons more, Format.entries, path_cons, List.map_cons]

/-- `find_pte` reaches the slot of a level when the entries above it are valid
tables. -/
theorem findPteLoop_iff (below : i + k < 4) :
    findPteLoop mem va (i + k) (4 - i) i table = some a ↔
      (pathFrom mem va i table)[k]? = some a ∧
        ∀ d ∈ (entriesFrom mem va i table).take k, pteType d = pteTypeTable := by
  induction k generalizing i table with
  | zero =>
    have count : 4 - i = (4 - (i + 1)) + 1 := by omega
    rw [count, findPteLoop, pathFrom, levelsFrom_cons (by omega), path_cons]
    simp [format, Format.slot]
  | succ k ih =>
    have count : 4 - i = (4 - (i + 1)) + 1 := by omega
    have slot : table + 8 * (va >>> level2shift i &&& 0x1ff) = format.slot i table va := rfl
    rw [count, findPteLoop, entriesFrom_cons (by omega), pathFrom, levelsFrom_cons (by omega), path_cons]
    simp only [slot, show ¬ i = i + (k + 1) by omega, ↓reduceIte, List.getElem?_cons_succ, List.take_succ_cons,
      List.forall_mem_cons]
    by_cases isTable : pteType (mem (format.slot i table va)) = pteTypeTable
    · have leads := child_of_table (type_table_iff.mp isTable).2
      have rest : findPteLoop mem va (i + 1 + k) (4 - (i + 1)) (i + 1) (nextTable (mem (format.slot i table va))) =
          some a ↔ _ := ih (by omega)
      rw [show i + 1 + k = i + (k + 1) by omega] at rest
      simp only [isTable, ne_eq, not_true_eq_false, ↓reduceIte, leads, Format.behind, true_and, rest]
      rfl
    · simp [isTable]

/-- Validity along the walk decides what the hardware sees. -/
def decode : (i : Nat) → List (BitVec 64) → Option (Nat × BitVec 64)
  | _, [] => none
  | i, [d] => if d.getLsbD 0 ∧ (i = 3 → d.getLsbD 1) ∧ i ≠ 0 then some (i, d) else none
  | i, d :: e :: rest => if d.getLsbD 0 then decode (i + 1) (e :: rest) else none

theorem decode_cons (some : rest ≠ []) :
    decode i (d :: rest) = if d.getLsbD 0 then decode (i + 1) rest else none := by
  obtain ⟨e, rest, rfl⟩ := List.exists_cons_of_ne_nil some
  rw [decode]

theorem entriesFrom_ne_nil (more : i < 4) : entriesFrom mem va i table ≠ [] := by
  rw [entriesFrom_cons more]
  exact List.cons_ne_nil _ _

theorem hardwareWalk_eq (count : i + (left + 1) = 4) :
    hardwareWalk mem va (left + 1) i table = decode i (entriesFrom mem va i table) := by
  induction left generalizing i table with
  | zero =>
    obtain rfl : i = 3 := by omega
    have slot : table + 8 * (va >>> level2shift 3 &&& 0x1ff) = format.slot 3 table va := rfl
    have last : format.behind mem va (levelsFrom 4) (format.child (mem (format.slot 3 table va))) = [] := by
      cases format.child (mem (format.slot 3 table va)) <;> rfl
    rw [hardwareWalk, entriesFrom_cons (by decide), last, List.map_nil, decode]
    simp only [Nat.cast_ofNat, slot]
    cases (mem (format.slot 3 table va)).getLsbD 0 <;> cases (mem (format.slot 3 table va)).getLsbD 1 <;> simp
  | succ left ih =>
    have slot : table + 8 * (va >>> level2shift i &&& 0x1ff) = format.slot i table va := rfl
    rw [hardwareWalk, entriesFrom_cons (by omega)]
    simp only [slot, show ¬ i = 3 by omega, ↓reduceIte]
    cases leads : (mem (format.slot i table va)).getLsbD 1 with
    | true =>
      have rest : hardwareWalk mem va (left + 1) (i + 1) (nextTable (mem (format.slot i table va))) = _ :=
        ih (by omega)
      have more : entriesFrom mem va (i + 1) (nextTable (mem (format.slot i table va))) ≠ [] :=
        entriesFrom_ne_nil (by omega)
      rw [child_of_table leads, Format.behind, ← Format.entries, decode_cons more, ← rest]
      cases (mem (format.slot i table va)).getLsbD 0 <;> rfl
    | false =>
      rw [child_of_leaf leads, Format.behind, List.map_nil, decode]
      by_cases top : i = 0
      · simp [top]
      · cases (mem (format.slot i table va)).getLsbD 0 <;> simp [top, show ¬ i = 3 by omega]

/-- A walk passes through the tables above when all of them are valid. -/
theorem decode_append (some : rest ≠ []) :
    decode i (front ++ rest) =
      if ∀ d ∈ front, d.getLsbD 0 = true then decode (i + front.length) rest else none := by
  induction front generalizing i with
  | nil => simp
  | cons d front ih =>
    rw [List.cons_append, decode_cons (by simp [some]), ih, List.length_cons, Nat.add_right_comm, Nat.add_assoc]
    cases valid : d.getLsbD 0 with
    | true =>
      simp only [↓reduceIte, List.forall_mem_cons, valid, true_and]
    | false =>
      rw [if_neg Bool.false_ne_true, if_neg]
      intro all
      have set := all d (by simp)
      rw [valid] at set
      cases set

/-- Bit 1 leads a walk on, and is clear where a walk ends above the pages. -/
theorem entriesFrom_shape (more : i < 4) (split : entriesFrom mem va i table = front ++ [d]) :
    (∀ e ∈ front, e.getLsbD 1 = true) ∧ (i + front.length < 3 → d.getLsbD 1 = false) := by
  induction front generalizing i table with
  | nil =>
    refine ⟨by simp, fun above => ?_⟩
    rw [entriesFrom_cons more, List.nil_append, List.cons.injEq] at split
    obtain ⟨first, nothing⟩ := split
    cases leads : d.getLsbD 1 with
    | false => rfl
    | true =>
      rw [first, child_of_table leads, Format.behind, ← Format.entries] at nothing
      have some : entriesFrom mem va (i + 1) (nextTable d) ≠ [] := entriesFrom_ne_nil (by simp at above; omega)
      exact absurd nothing some
  | cons e front ih =>
    rw [entriesFrom_cons more, List.cons_append, List.cons.injEq] at split
    obtain ⟨first, rest⟩ := split
    cases leads : e.getLsbD 1 with
    | false =>
      rw [first, child_of_leaf leads, Format.behind, List.map_nil] at rest
      simp at rest
    | true =>
      rw [first, child_of_table leads, Format.behind, ← Format.entries] at rest
      have below : i + 1 < 4 := by
        by_contra last
        have none : levelsFrom (i + 1) = [] := by
          rw [levelsFrom, show 4 - (i + 1) = 0 by omega, List.range'_zero]
        rw [none] at rest
        simp [Format.entries, Format.path] at rest
      obtain ⟨tables, leaf⟩ := ih below rest
      refine ⟨?_, fun above => leaf (by rw [List.length_cons] at above; omega)⟩
      rw [List.forall_mem_cons]
      exact ⟨leads, tables⟩

/-- What entries say about an address. -/
def meaning (i : Nat) (es : List (BitVec 64)) (va : Nat) : Option (Nat × BitVec 64) :=
  (decode i es).map (fun leaf => (outputAddr leaf va, leafAttrs leaf.2))

end Walks

/-! ## Blocks of addresses -/

section Blocks
variable {level i k a b : Nat}

theorem index_eq (level va : Nat) : format.index level va = va / 2 ^ level2shift level % 512 := by
  show va >>> level2shift level &&& 0x1ff = _
  rw [Nat.shiftRight_eq_div_pow]
  exact Nat.and_two_pow_sub_one_eq_mod _ 9

theorem shift_succ (small : level < 3) : level2shift level = level2shift (level + 1 : Nat) + 9 := by
  rw [level2shift_eq (by omega), level2shift_eq (by omega)]
  omega

/-- Below the reach of the first table, walks share their first entries exactly
when the addresses lie in the same block of that level. -/
theorem same_iff (small : i + k < 4) (boundA : a < 2 ^ (level2shift i + 9)) (boundB : b < 2 ^ (level2shift i + 9)) :
    format.Same (levelsFrom i) (k + 1) a b ↔
      a / 2 ^ level2shift (i + k : Nat) = b / 2 ^ level2shift (i + k : Nat) := by
  induction k with
  | zero =>
    have topA : a / 2 ^ level2shift i < 512 := by
      rw [Nat.div_lt_iff_lt_mul (Nat.two_pow_pos _), Nat.mul_comm]
      rwa [Nat.pow_add] at boundA
    have topB : b / 2 ^ level2shift i < 512 := by
      rw [Nat.div_lt_iff_lt_mul (Nat.two_pow_pos _), Nat.mul_comm]
      rwa [Nat.pow_add] at boundB
    rw [levelsFrom_cons (by omega), Format.Same, List.take_succ_cons, List.take_zero, Nat.add_zero]
    simp only [List.mem_singleton, forall_eq, index_eq, Nat.mod_eq_of_lt topA, Nat.mod_eq_of_lt topB]
  | succ k ih =>
    have above := ih (by omega)
    have split : format.Same (levelsFrom i) (k + 1 + 1) a b ↔
        format.Same (levelsFrom i) (k + 1) a b ∧
          format.index (i + (k + 1)) a = format.index (i + (k + 1)) b := by
      rw [Format.Same, List.take_add_one, levelsFrom_get small]
      simp only [List.mem_append, Option.toList_some, List.mem_singleton, Format.Same]
      constructor
      · exact fun all => ⟨fun level member => all level (.inl member), all _ (.inr rfl)⟩
      · rintro ⟨before, last⟩ level (member | rfl)
        · exact before level member
        · exact last
    have shift : level2shift (i + k : Nat) = level2shift (i + (k + 1) : Nat) + 9 := shift_succ (by omega)
    rw [split, above, index_eq, index_eq, shift, Nat.pow_add, ← Nat.div_div_eq_div_mul, ← Nat.div_div_eq_div_mul]
    generalize a / 2 ^ level2shift (i + (k + 1) : Nat) = first
    generalize b / 2 ^ level2shift (i + (k + 1) : Nat) = second
    omega

end Blocks

/-! ## The address space -/

section Space
variable {memMap : List MmRegion} {s : Mmu} {va : Nat}

theorem startLevel_le : startLevel memMap ≤ 1 := by
  unfold startLevel
  split <;> omega

/-- Every address of the space is within reach of the first table. -/
theorem vaBits_le : (getTcr memMap 0).vaBits ≤ level2shift (startLevel memMap) + 9 := by
  have sizes : (getTcr memMap 0).vaBits ≤ 48 := by
    show (addrSizes (maxAddr memMap)).2 ≤ 48
    unfold addrSizes
    split_ifs <;> simp
  unfold startLevel
  split
  · have shift : level2shift (1 : Nat) = 30 := rfl
    omega
  · have shift : level2shift (0 : Nat) = 39 := rfl
    omega

theorem reach (inside : va < 2 ^ (getTcr memMap 0).vaBits) : va < 2 ^ (level2shift (startLevel memMap) + 9) :=
  lt_of_lt_of_le inside (Nat.pow_le_pow_right (by decide) vaBits_le)

theorem reach_le : 2 ^ (level2shift (startLevel memMap) + 9) ≤ 2 ^ 48 := by
  have first : startLevel memMap ≤ 1 := startLevel_le
  refine Nat.pow_le_pow_right (by decide) ?_
  rw [level2shift_eq (by omega)]
  omega

theorem leafOf_eq (inside : va < 2 ^ (getTcr memMap 0).vaBits) :
    leafOf memMap s va = decode (startLevel memMap) (entriesFrom s.mem va (startLevel memMap) s.tlbAddr) := by
  have first : startLevel memMap ≤ 1 := startLevel_le
  rw [leafOf, if_neg (Nat.not_le.mpr inside), show 4 - startLevel memMap = 3 - startLevel memMap + 1 by omega]
  exact hardwareWalk_eq (by omega)

theorem inside_of_leaf (found : leafOf memMap s va = some leaf) : va < 2 ^ (getTcr memMap 0).vaBits := by
  by_contra outside
  rw [leafOf, if_pos (Nat.not_lt.mp outside)] at found
  cases found

theorem translate_eq (inside : va < 2 ^ (getTcr memMap 0).vaBits) :
    translate memMap s va =
      meaning (startLevel memMap) (entriesFrom s.mem va (startLevel memMap) s.tlbAddr) va := by
  rw [PageWalk.translate, leafOf_eq inside]
  rfl

theorem translate_outside (outside : 2 ^ (getTcr memMap 0).vaBits ≤ va) : translate memMap s va = none := by
  rw [PageWalk.translate, leafOf, if_pos outside]
  rfl

private theorem largest_le_iff (maps : List MmRegion) (largest bound : Nat) :
    maps.foldl (fun largest map => max largest map.endAddr) largest ≤ bound ↔
      largest ≤ bound ∧ ∀ m ∈ maps, m.endAddr ≤ bound := by
  induction maps generalizing largest with
  | nil => simp
  | cons map maps ih => rw [List.foldl_cons, ih, max_le_iff, List.forall_mem_cons, and_assoc]

theorem maxAddr_le_iff (memMap : List MmRegion) (bound : Nat) :
    maxAddr memMap ≤ bound ↔ ∀ m ∈ regions memMap, m.endAddr ≤ bound := by
  rw [maxAddr, largest_le_iff]
  exact and_iff_right (Nat.zero_le bound)

/-- The address space holds every region of the map. -/
theorem region_in_space (ends : ∀ m ∈ regions memMap, m.virt + m.size ≤ 2 ^ 48) (member : m ∈ regions memMap) :
    m.virt + m.size ≤ 2 ^ (getTcr memMap 0).vaBits := by
  have exact_end : ∀ m ∈ regions memMap, m.endAddr = m.virt + m.size := by
    intro m member
    have bound := ends m member
    exact Nat.mod_eq_of_lt (by omega)
  have top : maxAddr memMap ≤ 2 ^ 48 :=
    (maxAddr_le_iff memMap _).mpr (fun m member => (exact_end m member).trans_le (ends m member))
  have below : m.endAddr ≤ maxAddr memMap := (maxAddr_le_iff memMap _).mp le_rfl m member
  rw [← exact_end m member]
  refine below.trans ?_
  show maxAddr memMap ≤ 2 ^ (addrSizes (maxAddr memMap)).2
  generalize maxAddr memMap = largest at top
  unfold addrSizes
  split_ifs <;> simp only <;> omega

/-- `find_pte` finds the slot of a level that the tree reaches through valid
tables. -/
theorem findPte_iff (small : startLevel memMap + k < 4) :
    findPte memMap s va (startLevel memMap + k) = some a ↔
      (pathFrom s.mem va (startLevel memMap) s.tlbAddr)[k]? = some a ∧
        ∀ d ∈ (entriesFrom s.mem va (startLevel memMap) s.tlbAddr).take k, pteType d = pteTypeTable := by
  rw [findPte, if_neg (by omega)]
  exact findPteLoop_iff small

end Space

end RockOs.PageWalk
