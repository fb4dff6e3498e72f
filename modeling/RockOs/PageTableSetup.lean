import RockOs.PageLeaves
import RockOs.PageTableSteps

/-! `setup_pgtables` builds tables for the leaves of `mem_map`. While a region
is mapped every walk leads through valid tables to its leaf; the code opens and
stores entries exactly where the map of leaves refines and stores them. -/
namespace RockOs.PageTableSetup
open Machine PageTables PageDescriptors PageWalk PageTableSteps PageLeaves RadixTable

/-- Where a walk may end on a level. -/
def Leaf (level : Nat) (d : BitVec 64) : Prop :=
  pteType d = pteTypeFault ∨ 1 ≤ level ∧ d.getLsbD 0 = true ∧ d.getLsbD 1 = decide (level = 3)

/-- The walk leads through the valid tables `front`, whose descriptors hold an
address and nothing else, to a leaf. -/
structure Clean (start : Nat) (front : List (BitVec 64)) (leaf : Nat × BitVec 64) (es : List (BitVec 64)) : Prop where
  split : es = front ++ [leaf.2]
  tables : ∀ d ∈ front, pteType d = pteTypeTable
  plain : ∀ d ∈ front, d.toNat < 2 ^ 48
  level : start + front.length = leaf.1
  short : leaf.1 ≤ 3
  shape : Leaf leaf.1 leaf.2

section Entries
variable {start k va : Nat} {d : BitVec 64} {leaf : Nat × BitVec 64} {front es : List (BitVec 64)}

/-- The hardware finds the leaf. -/
theorem Clean.decode_eq (clean : Clean start front leaf es) : decode start es = decode leaf.1 [leaf.2] := by
  have valid : ∀ d ∈ front, d.getLsbD 0 = true := fun d member => (type_table_iff.mp (clean.tables d member)).1
  rw [clean.split, decode_append (List.cons_ne_nil _ _), if_pos valid, clean.level]

/-- An entry of a walk is a table above the leaf, or the leaf. -/
theorem Clean.entry (clean : Clean start front leaf es) (met : es[k]? = some d) :
    pteType d = pteTypeTable ∧ start + k < leaf.1 ∧ k + 1 < es.length ∨ d = leaf.2 ∧ k = front.length := by
  have level := clean.level
  rw [clean.split] at met ⊢
  rcases Nat.lt_trichotomy k front.length with before | here | beyond
  · rw [List.getElem?_append_left before] at met
    refine .inl ⟨clean.tables d (List.mem_of_getElem? met), by omega, ?_⟩
    rw [List.length_append, List.length_singleton]
    omega
  · rw [here, List.getElem?_concat_length, Option.some.injEq] at met
    exact .inr ⟨met.symm, here⟩
  · rw [List.getElem?_eq_none (by rw [List.length_append, List.length_singleton]; omega)] at met
    cases met

/-- What is above an entry of a walk are valid tables. -/
theorem Clean.above (clean : Clean start front leaf es) (inside : k < es.length) :
    (es.take k).length = k ∧ (∀ d ∈ es.take k, pteType d = pteTypeTable) ∧ ∀ d ∈ es.take k, d.toNat < 2 ^ 48 := by
  rw [clean.split, List.length_append, List.length_singleton] at inside
  rw [clean.split, List.take_append_of_le_length (by omega)]
  exact ⟨by rw [List.length_take]; omega, fun d member => clean.tables d (List.mem_of_mem_take member),
    fun d member => clean.plain d (List.mem_of_mem_take member)⟩

end Entries

/-! ## Tables under construction -/

/-- The addresses that the first table reaches. -/
def InReach (start va : Nat) : Prop := va < 2 ^ (level2shift start + 9)

/-- The tables hold the leaves of `m`. -/
structure Built (start : Nat) (other : Nat → Prop) (m : Leaves) (s : Mmu) : Prop
    extends Tables start other (InReach start) s where
  clean : ∀ b, InReach start b → ∃ front, Clean start front (m b) (entries start s b)

section Build
variable {start level k va pte phys : Nat} {attrs : BitVec 64} {other : Nat → Prop} {m : Leaves} {s t : Mmu}

private theorem Built.of_eq {same : Leaves} (built : Built start other m s) (eq : ∀ b, InReach start b → same b = m b) :
    Built start other same s :=
  { built with clean := fun b reach => by rw [eq b reach]; exact built.clean b reach }

/-- The walks that share an entry are those of its block. -/
theorem same_block (small : start + k < 4) (reachA : InReach start a) (reachB : InReach start b) :
    format.Same (levelsFrom start) (k + 1) a b ↔ SameBlock (start + k) a b := same_iff small reachA reachB

section Visited
variable (built : Built start other m s) (reach : InReach start va) (visited : (slots start s va)[k]? = some pte)
include built reach visited

/-- A leaf that gets a table below it. -/
theorem Built.opened (upper : start + k < 3) (notTable : pteType (s.mem pte) ≠ pteTypeTable) {n : Nat}
    {piece : Nat → BitVec 64} (shape : ∀ b, Leaf (start + k + 1) (piece b))
    (refined : ∀ b, finer b (start + k, s.mem pte) = (start + k + 1, piece b))
    (tables : Tables start other (InReach start) t)
    (replaced : Replaced start (InReach start) va k (fun b => [tableDesc n, piece b]) s t) (fits : n < 2 ^ 48) :
    Built start other (m.refine va (start + k)) t ∧ k + 1 < (entries start t va).length := by
  have through : ∀ b, InReach start b → format.Same (levelsFrom start) (k + 1) va b →
      ∃ front, Clean start front (m.refine va (start + k) b) (entries start t b) ∧ front.length = k + 1 := by
    intro b reachB agree
    obtain ⟨front, clean⟩ := built.clean b reachB
    rcases clean.entry (entry_of_slot (visited_of_same visited agree)) with ⟨table, _⟩ | ⟨last, rfl⟩
    · exact absurd table notTable
    have leaf : m b = (start + front.length, s.mem pte) := Prod.ext clean.level.symm last.symm
    have block : SameBlock (start + front.length) va b := (same_block (by omega) reach reachB).mp agree
    have after : m.refine va (start + front.length) b = (start + front.length + 1, piece b) := by
      rw [← refined b, Leaves.refine, leaf, if_pos ⟨rfl, block⟩]
    refine ⟨front ++ [tableDesc n], ⟨?_, ?_, ?_, ?_, ?_, ?_⟩, by simp⟩
    · rw [replaced.through b reachB agree, clean.split, List.take_left, after]
      simp
    · intro d member
      rw [List.mem_append, List.mem_singleton] at member
      rcases member with above | rfl
      · exact clean.tables d above
      · exact tableDesc_type n
    · intro d member
      rw [List.mem_append, List.mem_singleton] at member
      rcases member with above | rfl
      · exact clean.plain d above
      · exact tableDesc_plain fits
    · rw [after, List.length_append, List.length_singleton, Nat.add_assoc]
    · rw [after]
      exact upper
    · rw [after]
      exact shape b
  refine ⟨{ tables with clean := fun b reachB => ?_ }, ?_⟩
  · by_cases agree : format.Same (levelsFrom start) (k + 1) va b
    · obtain ⟨front, clean, _⟩ := through b reachB agree
      exact ⟨front, clean⟩
    · have apart : ¬ SameBlock (start + k) va b := fun same => agree ((same_block (by omega) reach reachB).mpr same)
      rw [replaced.other b reachB agree, Leaves.refine, if_neg (fun both => apart both.2)]
      exact built.clean b reachB
  · obtain ⟨front, clean, long⟩ := through va reach (Format.Same.refl va)
    rw [clean.split, List.length_append, List.length_singleton]
    omega

/-- Where there is a table already, nothing is refined. -/
theorem Built.deeper (table : start + k < 3) (isTable : pteType (s.mem pte) = pteTypeTable) :
    Built start other (m.refine va (start + k)) s := by
  refine built.of_eq (fun b reachB => ?_)
  rw [Leaves.refine, if_neg]
  rintro ⟨here, same⟩
  have agree := (same_block (by omega) reach reachB).mpr same
  obtain ⟨front, clean⟩ := built.clean b reachB
  rcases clean.entry (entry_of_slot (visited_of_same visited agree)) with ⟨_, above, _⟩ | ⟨last, _⟩
  · omega
  · rcases clean.shape with fault | ⟨_, _, page⟩
    · rw [← last, isTable] at fault
      exact absurd fault (by decide)
    · rw [← last, (type_table_iff.mp isTable).2, here] at page
      exact absurd (of_decide_eq_true page.symm) (by omega)

private theorem newSubtable_built (upper : start + k < 3) (fault : pteType (s.mem pte) = pteTypeFault) :
    Builds other 1 s (fun _ t => Built start other (m.refine va (start + k)) t ∧ k + 1 < (entries start t va).length)
      (newSubtable pte s) := by
  refine (newSubtable_spec built.toTables reach visited upper).mono le_rfl (fun _ t holds => ?_)
  obtain ⟨tables, replaced, fits⟩ := holds
  have refined : ∀ b, finer b (start + k, s.mem pte) = (start + k + 1, 0#64) := fun b => by
    rw [finer, if_pos fault]
  exact built.opened reach visited upper (by rw [fault]; decide) (fun _ => .inl (by decide)) refined tables replaced fits

private theorem openPte_spec (upper : start + k < 3) :
    Builds other 1 s (fun _ t => Built start other (m.refine va (start + k)) t ∧ k + 1 < (entries start t va).length)
      (openPte pte (start + k) s) := by
  obtain ⟨front, clean⟩ := built.clean va reach
  unfold openPte
  rw [read_bind]
  by_cases fault : pteType (s.mem pte) = pteTypeFault
  · rw [if_pos fault]
    exact newSubtable_built built reach visited upper fault
  · rw [if_neg fault]
    rcases clean.entry (entry_of_slot visited) with ⟨table, _, deeper⟩ | ⟨last, rfl⟩
    · rw [if_neg (by rw [table]; decide)]
      exact ⟨Within.refl s, built.deeper reach visited upper table, deeper⟩
    · obtain ⟨lower, valid, page⟩ := clean.shape.resolve_left (last ▸ fault)
      rw [← clean.level] at lower page
      rw [← last] at valid page
      have block : pteType (s.mem pte) = pteTypeBlock :=
        type_block_iff.mpr ⟨valid, by rw [page, decide_eq_false (by omega)]⟩
      rw [if_pos block]
      refine ((splitBlock_spec built.toTables reach visited lower upper block).builds le_rfl).mono le_rfl
        (fun _ t holds => ?_)
      obtain ⟨tables, replaced, _, fits⟩ := holds
      refine built.opened reach visited upper (by rw [block]; decide) (fun b => ?_) (fun b => ?_) tables replaced fits
      · have type := pieceAt_type lower (by omega) block b
        exact .inr ⟨by omega, type.1, type.2⟩
      · rw [finer, if_neg fault]

end Visited

/-- The level-0 entry never holds a block. -/
theorem openTop_spec {memMap : List MmRegion} (built : Built (startLevel memMap) other m s)
    (reach : InReach (startLevel memMap) va) :
    Builds other 1 s (fun _ t => Built (startLevel memMap) other (m.refine va 0) t ∧
      1 < startLevel memMap + (entries (startLevel memMap) t va).length) (openTop memMap va s) := by
  have first : startLevel memMap ≤ 1 := startLevel_le
  have some : 0 < (entries (startLevel memMap) s va).length :=
    List.length_pos_of_ne_nil (entriesFrom_ne_nil (by omega))
  unfold openTop
  rw [read_bind]
  by_cases top : startLevel memMap = 0
  · have inside : 0 < (slots (startLevel memMap) s va).length := by rwa [entries_length] at some
    have visited : (slots (startLevel memMap) s va)[0]? = Option.some _ := List.getElem?_eq_getElem inside
    have found : findPte memMap s va (startLevel memMap + 0) = Option.some _ :=
      (findPte_iff (by omega)).mpr ⟨visited, by simp⟩
    generalize (slots (startLevel memMap) s va)[0] = pte at visited found
    rw [Nat.add_zero, top] at found
    rw [found]
    have level : startLevel memMap + 0 = 0 := by omega
    by_cases fault : pteType (s.mem pte) = pteTypeFault
    · simp only [fault, ↓reduceIte]
      refine (newSubtable_built built reach visited (by omega) fault).mono le_rfl (fun _ t holds => ?_)
      obtain ⟨after, deeper⟩ := holds
      rw [level] at after
      exact ⟨after, by omega⟩
    · simp only [fault, ↓reduceIte]
      obtain ⟨front, clean⟩ := built.clean va reach
      rcases clean.entry (entry_of_slot visited) with ⟨table, _, deeper⟩ | ⟨last, here⟩
      · have after := built.deeper reach visited (by omega) table
        rw [level] at after
        exact ⟨Within.refl s, after, by omega⟩
      · have upper := (clean.shape.resolve_left (last ▸ fault)).1
        have level := clean.level
        omega
  · rw [findPte, if_pos (by omega)]
    refine ⟨Within.refl s, built.of_eq (fun b reachB => ?_), by omega⟩
    obtain ⟨front, clean⟩ := built.clean b reachB
    have level := clean.level
    rw [Leaves.refine, if_neg (fun both => absurd both.1 (by omega))]

private theorem store_built (built : Built start other m s) (reach : InReach start va)
    (visited : (slots start s va)[k]? = some pte) (shape : Leaf (start + k) d)
    (ends : d.getLsbD 1 = false ∨ start + k = 3) :
    Within other 0 s (s.set pte d) ∧ Built start other (m.store va (start + k) d) (s.set pte d) := by
  have lower := slots_lt visited
  obtain ⟨within, tables, replaced⟩ := built.toTables.store reach visited ends
  refine ⟨within, { tables with clean := fun b reachB => ?_ }⟩
  obtain ⟨front, clean⟩ := built.clean b reachB
  by_cases agree : format.Same (levelsFrom start) (k + 1) va b
  · have inside := (List.getElem?_eq_some_iff.mp (entry_of_slot (visited_of_same visited agree))).1
    obtain ⟨long, above, plain⟩ := clean.above inside
    rw [Leaves.store, if_pos ((same_block lower reach reachB).mp agree)]
    exact ⟨_, replaced.through b reachB agree, above, plain, by rw [long], by simp only; omega, shape⟩
  · rw [replaced.other b reachB agree, Leaves.store,
      if_neg (fun same => agree ((same_block lower reach reachB).mpr same))]
    exact ⟨front, clean⟩

/-- The attributes of the region do not make its blocks tables. -/
def NoTable (attrs : BitVec 64) : Prop := attrs.getLsbD 1 = false

theorem leafDesc_shape (clear : NoTable attrs) (aligned : phys % 4096 = 0) (upper : 1 ≤ level) :
    Leaf level (leafDesc level phys (regionAttrs attrs)) ∧
      ((leafDesc level phys (regionAttrs attrs)).getLsbD 1 = false ∨ level = 3) := by
  have page : (leafDesc level phys (regionAttrs attrs)).getLsbD 1 = decide (level = 3) := by
    rw [leafDesc_bit, show attrs.getLsbD 1 = false from clear,
      testBit_of_multiple (show phys % 2 ^ 12 = 0 from aligned) (by omega)]
    simp
  refine ⟨.inr ⟨upper, leafDesc_valid, page⟩, ?_⟩
  by_cases last : level = 3
  · exact .inr last
  · exact .inl (by rw [page, decide_eq_false last])

end Build

/-! ## Mapping a region -/

section Regions
variable {memMap : List MmRegion} {virt phys size k level count pte fuel : Nat} {attrs : BitVec 64}
  {other : Nat → Prop} {m : Leaves} {s : Mmu}

/-- `find_pte` finds every entry of the walk. -/
theorem Built.findPte (built : Built (startLevel memMap) other m s) (reach : InReach (startLevel memMap) virt)
    (deep : k < (entries (startLevel memMap) s virt).length) :
    ∃ pte, PageTables.findPte memMap s virt (startLevel memMap + k) = some pte ∧
      (slots (startLevel memMap) s virt)[k]? = some pte := by
  obtain ⟨front, clean⟩ := built.clean virt reach
  have inside : k < (slots (startLevel memMap) s virt).length := by rwa [entries_length] at deep
  have visited : (slots (startLevel memMap) s virt)[k]? = some _ := List.getElem?_eq_getElem inside
  exact ⟨_, (findPte_iff (slots_lt visited)).mpr ⟨visited, (clean.above deep).2.1⟩, visited⟩

/-- One block or page is mapped as on the leaves. -/
theorem mapBlock_spec (built : Built (startLevel memMap) other m s) (reach : InReach (startLevel memMap) virt)
    (virtAligned : virt % 4096 = 0) (physAligned : phys % 4096 = 0) (large : 4096 ≤ size) (clear : NoTable attrs)
    (levels : level + count = 3) (upper : 1 ≤ level)
    (deep : level < startLevel memMap + (entries (startLevel memMap) s virt).length) :
    Builds other count s (fun blocksize t =>
      blocksize = (mapLeaf virt phys size (regionAttrs attrs) (levelsFrom level) m).1 ∧
        Built (startLevel memMap) other (mapLeaf virt phys size (regionAttrs attrs) (levelsFrom level) m).2 t)
      (mapBlock memMap virt phys size (regionAttrs attrs) (levelsFrom level) s) := by
  have top : startLevel memMap ≤ 1 := startLevel_le
  induction count generalizing level m s with
  | zero =>
    obtain ⟨k, rfl⟩ : ∃ k, level = startLevel memMap + k := ⟨level - startLevel memMap, by omega⟩
    obtain ⟨pte, found, visited⟩ := built.findPte reach (show k < _ by omega)
    have page : level2shift (startLevel memMap + k : Nat) = 12 := by
      rw [level2shift_eq (by omega)]
      omega
    have fits : Fits virt size (startLevel memMap + k) := by
      unfold Fits
      rw [page]
      exact ⟨large, virtAligned⟩
    rw [levelsFrom_cons (by omega), mapBlock, read_bind, found, mapLeaf, if_pos fits]
    simp only [Nat.and_two_pow_sub_one_eq_mod]
    rw [if_pos (show _ ∧ _ from fits)]
    obtain ⟨shape, ends⟩ := leafDesc_shape clear physAligned upper
    obtain ⟨within, after⟩ := store_built built reach visited shape ends
    exact ⟨within, rfl, after⟩
  | succ count ih =>
    obtain ⟨k, rfl⟩ : ∃ k, level = startLevel memMap + k := ⟨level - startLevel memMap, by omega⟩
    obtain ⟨pte, found, visited⟩ := built.findPte reach (show k < _ by omega)
    rw [levelsFrom_cons (by omega), mapBlock, read_bind, found, mapLeaf]
    simp only [Nat.and_two_pow_sub_one_eq_mod]
    by_cases fits : Fits virt size (startLevel memMap + k)
    · rw [if_pos fits, if_pos (show _ ∧ _ from fits)]
      obtain ⟨shape, ends⟩ := leafDesc_shape clear physAligned upper
      obtain ⟨within, after⟩ := store_built built reach visited shape ends
      exact ⟨within.mono (Nat.zero_le _), rfl, after⟩
    · rw [if_neg fits, if_neg (show ¬ (_ ∧ _) from fits), Nat.add_comm count 1]
      refine (openPte_spec built reach visited (by omega)).bind (fun _ between holds => ?_)
      obtain ⟨opened, deeper⟩ := holds
      exact ih opened (show startLevel memMap + k + 1 + count = 3 by omega) (by omega) (by omega)

/-- A region is mapped as on the leaves. -/
theorem addMapLoop_spec (built : Built (startLevel memMap) other m s) (clear : NoTable attrs)
    (virtAligned : virt % 4096 = 0) (physAligned : phys % 4096 = 0) (sizeAligned : size % 4096 = 0)
    (reach : virt + size ≤ 2 ^ (level2shift (startLevel memMap) + 9)) (enough : size / 4096 < fuel) :
    Builds other (3 * (size / 4096)) s
      (fun _ t => Built (startLevel memMap) other (mapRegion (regionAttrs attrs) fuel virt phys size m) t)
      (addMapLoop memMap (regionAttrs attrs) fuel virt phys size s) := by
  induction fuel generalizing virt phys size m s with
  | zero => omega
  | succ fuel ih =>
    rw [addMapLoop, mapRegion]
    by_cases done : size = 0
    · rw [if_pos done, if_pos done]
      exact ⟨Within.refl s, built⟩
    · have space : 2 ^ (level2shift (startLevel memMap) + 9) ≤ 2 ^ 48 := reach_le
      have inReach : InReach (startLevel memMap) virt := by
        unfold InReach
        omega
      have total : 1 + (2 + 3 * (size / 4096 - 1)) = 3 * (size / 4096) := by omega
      rw [if_neg done, if_neg done, ← total]
      refine (openTop_spec built inReach).bind (fun _ opened holds => ?_)
      obtain ⟨builtOpened, deep⟩ := holds
      refine (mapBlock_spec builtOpened inReach virtAligned physAligned (by omega) clear (show 1 + 2 = 3 from rfl) le_rfl
        deep).bind (fun blocksize mapped holds => ?_)
      obtain ⟨same, builtMapped⟩ := holds
      obtain ⟨large, small, pages⟩ := mapLeaf_size phys (regionAttrs attrs) (m.refine virt 0) virtAligned sizeAligned
        (by omega) (show 1 + 2 = 3 from rfl)
      simp only
      generalize mapLeaf virt phys size (regionAttrs attrs) (levelsFrom 1) (m.refine virt 0) = step
        at same builtMapped large small pages ⊢
      rw [same, show (virt + step.1) % 2 ^ 64 = virt + step.1 from Nat.mod_eq_of_lt (by omega)]
      exact (ih builtMapped (by omega) (by omega) (by omega) (by omega) (by omega)).mono (by omega)
        (fun _ _ after => after)

/-- What every region of a map needs for its tables to be built. -/
structure PageAligned (m : MmRegion) : Prop where
  virtAligned : m.virt % 4096 = 0
  physAligned : m.phys % 4096 = 0
  sizeAligned : m.size % 4096 = 0
  noTable : NoTable m.attrs

/-- Table pages that are always enough below the first table: three for every
page that is mapped. -/
def pagesEnough : List MmRegion → Nat
  | [] => 0
  | m :: maps => 3 * (m.size / 4096) + pagesEnough maps

private theorem addMaps_spec {maps : List MmRegion} (built : Built (startLevel memMap) other m s)
    (aligned : ∀ m ∈ maps, PageAligned m) (inSpace : ∀ m ∈ maps, m.virt + m.size ≤ 2 ^ (getTcr memMap 0).vaBits) :
    Builds other (pagesEnough maps) s (fun _ t => Built (startLevel memMap) other (mapRegions maps m) t)
      (addMaps memMap maps s) := by
  induction maps generalizing m s with
  | nil => exact ⟨Within.refl s, built⟩
  | cons region maps ih =>
    rw [addMaps, mapRegions, pagesEnough]
    obtain ⟨virtAligned, physAligned, sizeAligned, noTable⟩ := aligned region (by simp)
    have reach : region.virt + region.size ≤ 2 ^ (level2shift (startLevel memMap) + 9) :=
      (inSpace region (by simp)).trans (Nat.pow_le_pow_right (by decide) vaBits_le)
    have first : Builds other (3 * (region.size / 4096)) s _ (addMap memMap region s) :=
      addMapLoop_spec built noTable virtAligned physAligned sizeAligned reach (by omega)
    refine first.bind (fun _ between mapped => ?_)
    exact ih mapped (fun m member => aligned m (by simp [member])) (fun m member => inSpace m (by simp [member]))

end Regions

/-! ## The whole map -/

/-- The space that `reserve_mmu` sets aside. -/
structure TableSpace (s : Mmu) : Prop where
  nonzero : s.tlbAddr ≠ 0
  aligned : s.tlbAddr % 4096 = 0
  fits : s.tlbAddr + s.tlbSize ≤ 2 ^ 48

/-- The space before any table is built. -/
structure Reserved (s : Mmu) : Prop extends TableSpace s where
  empty : s.tlbFillptr = s.tlbAddr

/-- The leaves of the tables that `setup_pgtables` builds. -/
def mapLeaves (memMap : List MmRegion) : Leaves := mapRegions (regions memMap) (fun _ => (startLevel memMap, 0#64))

section Board
variable {memMap : List MmRegion} {s : Mmu}

/-- A single table of invalid entries. -/
theorem createTable_built (reserved : Reserved s) (start : Nat) (top : start ≤ 1) :
    Builds (· < s.tlbAddr) 1 s (fun _ t => Built start (· < s.tlbAddr) (fun _ => (start, 0#64)) t) (createTable s) := by
  obtain ⟨⟨_, aligned, fits⟩, empty⟩ := reserved
  have space : Space s := ⟨by omega, by omega, by omega, fits⟩
  by_cases full : pagesLeft s = 0
  · rw [createTable_panic space full]
    exact ⟨rfl, by omega⟩
  · rw [createTable_ret space full, empty]
    have inNew : ∀ j < 512, clearTable s.mem s.tlbAddr (s.tlbAddr + 8 * j) = 0#64 :=
      fun j small => clearTable_inside (Nat.le_add_right _ _) (by omega)
    have outside : ∀ x < s.tlbAddr, clearTable s.mem s.tlbAddr x = s.mem x := fun x => clearTable_outside
    have used : s.tlbAddr + 4096 ≤ s.tlbAddr + s.tlbSize := by
      unfold pagesLeft at full
      omega
    generalize clearTable s.mem s.tlbAddr = cleared at inNew outside ⊢
    have single : Tree format (start :: levelsFrom (start + 1)) s.tlbAddr
        (fun x => s.tlbAddr ≤ x ∧ x < s.tlbAddr + format.width * format.fanout) (InReach start) cleared ∧ _ :=
      Tree.single (fun j small => by
        rw [show format.width = 8 from rfl, inNew j small]
        exact child_of_leaf BitVec.getLsbD_zero)
    rw [← levelsFrom_cons (by omega)] at single
    have alone : ∀ b, format.entries cleared b (levelsFrom start) s.tlbAddr = [0#64] := by
      intro b
      rw [single.2 b]
      exact congrArg (fun d => [d]) (inNew _ (format.index_lt start b))
    refine ⟨⟨rfl, rfl, rfl, by simp only; omega, by simp only; omega, outside⟩,
      ⟨⟨⟨by simp only; omega, by simp only; omega, used, fits⟩, fun x below => Nat.lt_add_right _ below, ?_⟩,
        fun b _ => ?_⟩⟩
    · refine single.1.of_shorter (fun _ member => member) (fun x own => ?_) (fun _ _ _ _ met => met)
      exact ⟨own.2, Nat.not_lt.mpr own.1⟩
    · exact ⟨[], alone b, by simp, by simp, rfl, by simp only; omega, .inl (show pteType 0#64 = pteTypeFault by decide)⟩

/-- The tables that `setup_pgtables` builds hold the leaves of the map. -/
theorem setupPgtables_spec (aligned : ∀ m ∈ regions memMap, PageAligned m)
    (ends : ∀ m ∈ regions memMap, m.virt + m.size ≤ 2 ^ 48) (reserved : Reserved s) :
    Builds (· < s.tlbAddr) (1 + pagesEnough (regions memMap)) s
      (fun _ t => Built (startLevel memMap) (· < s.tlbAddr) (mapLeaves memMap) t) (setupPgtables memMap s) := by
  have nonzero := reserved.nonzero
  have empty := reserved.empty
  unfold setupPgtables
  rw [read_bind, if_neg (by omega)]
  refine (createTable_built reserved (startLevel memMap) startLevel_le).bind (fun _ between built => ?_)
  exact addMaps_spec built aligned (fun m member => region_in_space ends member)

theorem leafOf_leaves {other : Nat → Prop} {m : Leaves} (built : Built (startLevel memMap) other m s)
    (inside : va < 2 ^ (getTcr memMap 0).vaBits) : leafOf memMap s va = decode (m va).1 [(m va).2] := by
  obtain ⟨front, clean⟩ := built.clean va (reach inside)
  rw [leafOf_eq inside]
  exact clean.decode_eq

theorem translate_leaves {other : Nat → Prop} {m : Leaves} (built : Built (startLevel memMap) other m s)
    (inside : va < 2 ^ (getTcr memMap 0).vaBits) : translate memMap s va = m.view va := by
  rw [PageWalk.translate, leafOf_leaves built inside]
  rfl

theorem pageAligned_of_proper (proper : Proper m) : PageAligned m :=
  ⟨proper.virtAligned, proper.physAligned, proper.sizeAligned, proper.attrsClear.bit (by omega)⟩

theorem mapLeaves_sound (proper : ∀ m ∈ regions memMap, Proper m) : (∀ b, Sound (mapLeaves memMap b)) ∧
    ∀ b, (mapLeaves memMap).view b = (covering (regions memMap) b).map (image b) := by
  have blank : ∀ b, Sound ((fun _ => (startLevel memMap, 0#64) : Leaves) b) :=
    fun b => .inl rfl
  obtain ⟨sound, described⟩ := mapRegions_maps blank proper
  refine ⟨sound, fun b => (described b).trans ?_⟩
  rw [Leaves.view, meaning_fault (show pteType 0#64 = pteTypeFault by decide), Option.or_none]

/-- The tables implement the map: with enough space `setup_pgtables` returns,
and whenever it returns the walk from `tlb_addr` takes every covered address
where the last region that covers it says, and faults on the others. -/
theorem pgtables_implement_map (memMap : List MmRegion) (proper : ∀ m ∈ regions memMap, Proper m) (s : Mmu)
    (reserved : Reserved s) :
    (4096 * (1 + pagesEnough (regions memMap)) ≤ s.tlbSize → ∃ t, setupPgtables memMap s = .ret () t) ∧
      ∀ t, setupPgtables memMap s = .ret () t → t.tlbAddr = s.tlbAddr ∧
        ∀ va, translate memMap t va = (covering (regions memMap) va).map (image va) := by
  have builds := setupPgtables_spec (fun m member => pageAligned_of_proper (proper m member))
    (fun m member => (proper m member).virtEnd) reserved
  constructor
  · intro enough
    have empty := reserved.empty
    obtain ⟨_, t, returned, _⟩ := builds.returns (by unfold pagesLeft; omega)
    exact ⟨t, returned⟩
  · intro t returned
    obtain ⟨within, built⟩ := Outcome.Ends.of_ret builds returned
    refine ⟨within.addr, fun va => ?_⟩
    by_cases inside : va < 2 ^ (getTcr memMap 0).vaBits
    · rw [translate_leaves built inside]
      exact (mapLeaves_sound proper).2 va
    · rw [translate_outside (by omega), covering, List.find?_eq_none.mpr, Option.map_none]
      intro m member
      have inSpace := region_in_space (fun m member => (proper m member).virtEnd) (List.mem_reverse.mp member)
      simp only [covers, decide_eq_true_eq]
      omega

end Board

/-- Two regions, the second over the last page of the first. -/
def overlapMap : List MmRegion :=
  [{ virt := 0x40000000, phys := 0x80000000, size := 0x2000, attrs := 0x404#64 },
    { virt := 0x40001000, phys := 0x40001000, size := 0x1000, attrs := 0x8#64 },
    { virt := 0, phys := 0, size := 0, attrs := 0#64 }]

/-- Sixteen pages for tables, none used. -/
def blankMmu : Mmu :=
  { mem := fun _ => 0#64, tlbAddr := 0x10000, tlbSize := 0x10000, tlbFillptr := 0x10000, tlbEmerg := 0 }

theorem overlapMap_proper : ∀ m ∈ regions overlapMap, Proper m := by
  have listed : regions overlapMap = overlapMap.take 2 := rfl
  rw [listed, overlapMap, List.take_succ_cons, List.take_succ_cons, List.take_zero, List.forall_mem_cons,
    List.forall_mem_cons]
  refine ⟨⟨?_, ?_, ?_, ?_, ?_, ?_, ?_⟩, ⟨?_, ?_, ?_, ?_, ?_, ?_, ?_⟩, fun _ none => by cases none⟩
  all_goals decide

private theorem blankMmu_reserved : Reserved blankMmu := ⟨⟨by decide, by decide, by decide⟩, rfl⟩

theorem pgtables_implement_overlap : ∃ t, setupPgtables overlapMap blankMmu = .ret () t ∧
    translate overlapMap t 0x40000010 = some (0x80000010, 0x404#64) ∧
    translate overlapMap t 0x40001010 = some (0x40001010, 0x408#64) ∧ translate overlapMap t 0x40002000 = none := by
  obtain ⟨returns, correct⟩ := pgtables_implement_map overlapMap overlapMap_proper blankMmu blankMmu_reserved
  obtain ⟨t, returned⟩ := returns (by decide)
  have described := (correct t returned).2
  exact ⟨t, returned, described _, described _, described _⟩

end RockOs.PageTableSetup
