import RockOs.PageTableEstimate
import RockOs.PageTableSetup

/-! The tables that `setup_pgtables` builds stay within the estimate. As long as
no region is mapped twice, an address that is not mapped yet leads through
tables to an empty entry; so no block is ever split, and each new table is one
that the region needs and that was not there before. -/
namespace RockOs.PageTableBudget
open Machine PageTables PageDescriptors PageWalk PageTableSteps PageLeaves PageTableSetup PageTableEstimate RadixTable

/-- The table behind the entry of a level that an address uses. -/
def tableOf (level va : Nat) : Table := (level + 1, va / 2 ^ level2shift level * 2 ^ level2shift level)

private theorem tableOf_eq_iff : tableOf level a = tableOf level b ↔ SameBlock level a b := by
  unfold tableOf SameBlock
  rw [Prod.mk.injEq]
  constructor
  · exact fun same => Nat.eq_of_mul_eq_mul_right (Nat.two_pow_pos _) same.2
  · exact fun same => ⟨rfl, by rw [same]⟩

/-- The tables in use are those of `nodes`, and the addresses of `todo` are not
mapped. -/
structure Budget (memMap : List MmRegion) (addr size : Nat) (todo : Nat → Prop) (nodes : List Table) (s : Mmu) : Prop
    extends Tables (startLevel memMap) (· < addr) todo s where
  reach : ∀ b, todo b → InReach (startLevel memMap) b
  addr_eq : s.tlbAddr = addr
  size_eq : s.tlbSize = size
  used : s.tlbFillptr ≤ addr + 4096 * nodes.length
  blank : ∀ b, todo b →
    ∃ front, entries (startLevel memMap) s b = front ++ [0#64] ∧ ∀ d ∈ front, pteType d = pteTypeTable
  distinct : nodes.Nodup
  needed : ∀ node ∈ nodes, Needed memMap node
  deep : ∀ b, todo b → ∀ k, tableOf (startLevel memMap + k) b ∈ nodes → k + 1 < (entries (startLevel memMap) s b).length

/-- There is space for all the tables that are needed. -/
def Roomy (memMap : List MmRegion) (size : Nat) : Prop :=
  ∀ tables : List Table, tables.Nodup → (∀ table ∈ tables, Needed memMap table) → 4096 * tables.length ≤ size

section Steps
variable {memMap : List MmRegion} {addr size va k pte : Nat} {todo : Nat → Prop} {nodes : List Table} {s : Mmu}

theorem Budget.findPte (budget : Budget memMap addr size todo nodes s) (unmapped : todo va)
    (deep : k < (entries (startLevel memMap) s va).length) :
    ∃ pte, PageTables.findPte memMap s va (startLevel memMap + k) = some pte ∧
      (slots (startLevel memMap) s va)[k]? = some pte := by
  obtain ⟨front, split, tables⟩ := budget.blank va unmapped
  have inside : k < (slots (startLevel memMap) s va).length := by rwa [entries_length] at deep
  have visited : (slots (startLevel memMap) s va)[k]? = some _ := List.getElem?_eq_getElem inside
  refine ⟨_, (findPte_iff (slots_lt visited)).mpr ⟨visited, fun d member => ?_⟩, visited⟩
  rw [split, List.length_append, List.length_singleton] at deep
  rw [show entriesFrom s.mem va (startLevel memMap) s.tlbAddr = _ from split,
    List.take_append_of_le_length (by omega)] at member
  exact tables d (List.mem_of_mem_take member)

/-- An entry that an unmapped address uses is empty, or a table with more behind
it. -/
theorem Budget.entry (budget : Budget memMap addr size todo nodes s) (unmapped : todo va)
    (visited : (slots (startLevel memMap) s va)[k]? = some pte) :
    s.mem pte = 0#64 ∧ (entries (startLevel memMap) s va).length = k + 1 ∨
      pteType (s.mem pte) = pteTypeTable ∧ k + 1 < (entries (startLevel memMap) s va).length := by
  obtain ⟨front, split, tables⟩ := budget.blank va unmapped
  have met := entry_of_slot visited
  rw [split] at met ⊢
  rw [List.length_append, List.length_singleton]
  have inside := (List.getElem?_eq_some_iff.mp met).1
  rw [List.length_append, List.length_singleton] at inside
  by_cases last : k = front.length
  · rw [last, List.getElem?_concat_length, Option.some.injEq] at met
    exact .inl ⟨met.symm, by omega⟩
  · rw [List.getElem?_append_left (by omega)] at met
    exact .inr ⟨tables _ (List.mem_of_getElem? met), by omega⟩

/-- One more table that is needed fits. -/
private theorem Budget.room (roomy : Roomy memMap size) (budget : Budget memMap addr size todo nodes s)
    (distinct : (node :: nodes).Nodup) (needed : ∀ other ∈ node :: nodes, Needed memMap other) : 1 ≤ pagesLeft s := by
  have space := roomy _ distinct needed
  have used := budget.used
  rw [List.length_cons] at space
  unfold pagesLeft
  rw [budget.addr_eq, budget.size_eq]
  omega

/-- All unmapped addresses that use an empty entry end there. -/
private theorem Budget.length_of_same (budget : Budget memMap addr size todo nodes s) (unmapped : todo va)
    (visited : (slots (startLevel memMap) s va)[k]? = some pte)
    (last : (entries (startLevel memMap) s va).length = k + 1) (unmappedB : todo b)
    (agree : format.Same (levelsFrom (startLevel memMap)) (k + 1) va b) :
    (entries (startLevel memMap) s b).length = k + 1 := by
  rcases budget.entry unmappedB (visited_of_same visited agree) with ⟨_, long⟩ | ⟨table, _⟩
  · exact long
  · rcases budget.entry unmapped visited with ⟨empty, _⟩ | ⟨_, longer⟩
    · rw [empty] at table
      exact absurd table (by decide)
    · omega

/-- Their walks go one table further now. -/
private theorem Budget.through {t : Mmu} (budget : Budget memMap addr size todo nodes s) (unmapped : todo va)
    (visited : (slots (startLevel memMap) s va)[k]? = some pte)
    (last : (entries (startLevel memMap) s va).length = k + 1)
    (replaced : Replaced (startLevel memMap) todo va k (fun _ => [tableDesc s.tlbFillptr, 0#64]) s t)
    (unmappedB : todo b) (agree : format.Same (levelsFrom (startLevel memMap)) (k + 1) va b) :
    ∃ front, (∀ d ∈ front, pteType d = pteTypeTable) ∧ front.length = k ∧
      entries (startLevel memMap) t b = front ++ [tableDesc s.tlbFillptr, 0#64] := by
  obtain ⟨front, split, above⟩ := budget.blank b unmappedB
  have long := budget.length_of_same unmapped visited last unmappedB agree
  rw [split, List.length_append, List.length_singleton] at long
  refine ⟨front, above, by omega, ?_⟩
  rw [replaced.through b unmappedB agree, split, List.take_append_of_le_length (by omega),
    List.take_of_length_le (by omega)]

section Unmapped
variable (roomy : Roomy memMap size) (budget : Budget memMap addr size todo nodes s) (unmapped : todo va)
include roomy budget unmapped

/-- An empty entry gets a table. -/
theorem newSubtable_budget (visited : (slots (startLevel memMap) s va)[k]? = some pte)
    (upper : startLevel memMap + k < 3) (last : (entries (startLevel memMap) s va).length = k + 1)
    (needs : Needed memMap (tableOf (startLevel memMap + k) va)) :
    ∃ t, newSubtable pte s = .ret () t ∧
      Budget memMap addr size todo (tableOf (startLevel memMap + k) va :: nodes) t ∧
      k + 1 < (entries (startLevel memMap) t va).length := by
  have fresh : tableOf (startLevel memMap + k) va ∉ nodes := by
    intro member
    have deeper := budget.deep va unmapped k member
    omega
  have distinct := List.nodup_cons.mpr ⟨fresh, budget.distinct⟩
  have needed : ∀ node ∈ tableOf (startLevel memMap + k) va :: nodes, Needed memMap node :=
    List.forall_mem_cons.mpr ⟨needs, budget.needed⟩
  obtain ⟨_, t, returned, within, tables, replaced, _⟩ :=
    (newSubtable_spec budget.toTables unmapped visited upper).returns (budget.room roomy distinct needed)
  have longer : ∀ b, todo b → format.Same (levelsFrom (startLevel memMap)) (k + 1) va b →
      (entries (startLevel memMap) t b).length = k + 2 := by
    intro b unmappedB agree
    obtain ⟨front, _, long, after⟩ := budget.through unmapped visited last replaced unmappedB agree
    rw [after, List.length_append, long]
    rfl
  have used : t.tlbFillptr ≤ addr + 4096 * (tableOf (startLevel memMap + k) va :: nodes).length := by
    rw [List.length_cons, Nat.mul_add, ← Nat.add_assoc]
    exact within.used.trans (Nat.add_le_add_right budget.used _)
  refine ⟨t, returned, ⟨tables, budget.reach, within.addr.trans budget.addr_eq, within.size.trans budget.size_eq, used,
    fun b unmappedB => ?blank, distinct, needed, fun b unmappedB j member => ?deep⟩, ?_⟩
  case blank =>
    by_cases agree : format.Same (levelsFrom (startLevel memMap)) (k + 1) va b
    · obtain ⟨front, above, _, after⟩ := budget.through unmapped visited last replaced unmappedB agree
      refine ⟨front ++ [tableDesc s.tlbFillptr], by rw [after]; simp, fun d member => ?_⟩
      rcases List.mem_append.mp member with old | new
      · exact above d old
      · rw [List.mem_singleton.mp new]
        exact tableDesc_type _
    · rw [replaced.other b unmappedB agree]
      exact budget.blank b unmappedB
  case deep =>
    rcases List.mem_cons.mp member with new | old
    · have level : startLevel memMap + j + 1 = startLevel memMap + k + 1 := congrArg Prod.fst new
      obtain rfl : j = k := by omega
      rw [longer b unmappedB ((same_block (by omega) (budget.reach va unmapped) (budget.reach b unmappedB)).mpr
        (tableOf_eq_iff.mp new.symm))]
      omega
    · have deeper := budget.deep b unmappedB j old
      by_cases agree : format.Same (levelsFrom (startLevel memMap)) (k + 1) va b
      · rw [budget.length_of_same unmapped visited last unmappedB agree] at deeper
        rw [longer b unmappedB agree]
        omega
      · rw [replaced.other b unmappedB agree]
        exact deeper
  · rw [longer va unmapped (Format.Same.refl va)]
    omega

/-- Opening an entry gives it a table, unless it has one. -/
theorem openPte_budget (visited : (slots (startLevel memMap) s va)[k]? = some pte) (upper : startLevel memMap + k < 3)
    (needs : Needed memMap (tableOf (startLevel memMap + k) va)) :
    ∃ t nodes', openPte pte (startLevel memMap + k) s = .ret () t ∧ Budget memMap addr size todo nodes' t ∧
      k + 1 < (entries (startLevel memMap) t va).length := by
  unfold openPte
  rw [read_bind]
  rcases budget.entry unmapped visited with ⟨empty, last⟩ | ⟨table, deeper⟩
  · obtain ⟨t, returned, after, deeper⟩ := newSubtable_budget roomy budget unmapped visited upper last needs
    rw [if_pos (by rw [empty]; decide)]
    exact ⟨t, _, returned, after, deeper⟩
  · rw [if_neg (by rw [table]; decide), if_neg (by rw [table]; decide)]
    exact ⟨s, nodes, rfl, budget, deeper⟩

private theorem openTop_budget (needs : startLevel memMap = 0 → Needed memMap (tableOf 0 va)) :
    ∃ t nodes', openTop memMap va s = .ret () t ∧ Budget memMap addr size todo nodes' t ∧
      1 < startLevel memMap + (entries (startLevel memMap) t va).length := by
  have first : startLevel memMap ≤ 1 := startLevel_le
  have some : 0 < (entries (startLevel memMap) s va).length :=
    List.length_pos_of_ne_nil (entriesFrom_ne_nil (by omega))
  unfold openTop
  rw [read_bind]
  by_cases top : startLevel memMap = 0
  · obtain ⟨pte, found, visited⟩ := budget.findPte unmapped some
    have level : startLevel memMap + 0 = 0 := by omega
    rw [level] at found
    rw [found]
    rcases budget.entry unmapped visited with ⟨empty, last⟩ | ⟨table, deeper⟩
    · obtain ⟨t, returned, after, deeper⟩ :=
        newSubtable_budget roomy budget unmapped visited (by omega) last (by rw [level]; exact needs top)
      simp only [empty, show pteType 0#64 = pteTypeFault by decide, ↓reduceIte]
      exact ⟨t, _, returned, after, Nat.lt_add_left _ deeper⟩
    · simp only [table, show pteTypeTable ≠ pteTypeFault by decide, ↓reduceIte]
      exact ⟨s, nodes, rfl, budget, Nat.lt_add_left _ deeper⟩
  · rw [findPte, if_pos (by omega)]
    exact ⟨s, nodes, rfl, budget, by omega⟩

end Unmapped

/-- A block or page is stored; its addresses are done. -/
theorem store_budget (budget : Budget memMap addr size todo nodes s) (unmapped : todo va)
    (visited : (slots (startLevel memMap) s va)[k]? = some pte) (d : BitVec 64) :
    Budget memMap addr size (fun b => todo b ∧ ¬ SameBlock (startLevel memMap + k) va b) nodes (s.set pte d) := by
  have small := slots_lt visited
  obtain ⟨tables, same⟩ := budget.toTables.leave unmapped visited d
  have apart : ∀ b, todo b ∧ ¬ SameBlock (startLevel memMap + k) va b →
      ¬ format.Same (levelsFrom (startLevel memMap)) (k + 1) va b :=
    fun b left agree => left.2 ((same_block small (budget.reach va unmapped) (budget.reach b left.1)).mp agree)
  refine ⟨⟨tables.toSpace, tables.outside, ?_⟩, fun b left => budget.reach b left.1, budget.addr_eq, budget.size_eq,
    budget.used, fun b left => ?_, budget.distinct, budget.needed, fun b left => ?_⟩
  · exact tables.tree.of_shorter (fun b left => ⟨left.1, apart b left⟩) (fun _ own => own) (fun _ _ _ _ met => met)
  · rw [same b left.1 (apart b left)]
    exact budget.blank b left.1
  · rw [same b left.1 (apart b left)]
    exact budget.deep b left.1

end Steps

/-! ## Mapping a region -/

section Regions
variable {memMap : List MmRegion} {addr size virt phys remaining level count : Nat} {attrs : BitVec 64}
  {todo : Nat → Prop} {nodes : List Table} {s : Mmu}

/-- One block or page: the first level that fits, through tables that are
needed. -/
theorem mapBlock_budget (phys : Nat) (attrs : BitVec 64) (roomy : Roomy memMap size)
    (budget : Budget memMap addr size todo nodes s) (unmapped : todo virt) (virtAligned : virt % 4096 = 0)
    (large : 4096 ≤ remaining) (levels : level + count = 3) (upper : 1 ≤ level)
    (needs : ∀ i, level ≤ i → i < 3 → ¬ Fits virt remaining i → Needed memMap (tableOf i virt))
    (deep : level < startLevel memMap + (entries (startLevel memMap) s virt).length) :
    ∃ (last : Nat) (t : Mmu) (nodes' : List Table),
      mapBlock memMap virt phys remaining attrs (levelsFrom level) s = .ret (2 ^ level2shift last) t ∧
      level ≤ last ∧ last ≤ 3 ∧ Fits virt remaining last ∧ (∀ i, level ≤ i → i < last → ¬ Fits virt remaining i) ∧
      Budget memMap addr size (fun b => todo b ∧ ¬ SameBlock last virt b) nodes' t := by
  have top : startLevel memMap ≤ 1 := startLevel_le
  induction count generalizing level nodes s with
  | zero =>
    obtain ⟨k, rfl⟩ : ∃ k, level = startLevel memMap + k := ⟨level - startLevel memMap, by omega⟩
    obtain ⟨pte, found, visited⟩ := budget.findPte unmapped (show k < _ by omega)
    have page : level2shift (startLevel memMap + k : Nat) = 12 := by
      rw [level2shift_eq (by omega)]
      omega
    have fits : Fits virt remaining (startLevel memMap + k) := by
      unfold Fits
      rw [page]
      exact ⟨large, virtAligned⟩
    rw [levelsFrom_cons (by omega), mapBlock, read_bind, found]
    simp only [Nat.and_two_pow_sub_one_eq_mod]
    rw [if_pos (show _ ∧ _ from fits)]
    exact ⟨_, _, nodes, rfl, le_rfl, by omega, fits, fun i low high => absurd low (by omega),
      store_budget budget unmapped visited _⟩
  | succ count ih =>
    obtain ⟨k, rfl⟩ : ∃ k, level = startLevel memMap + k := ⟨level - startLevel memMap, by omega⟩
    obtain ⟨pte, found, visited⟩ := budget.findPte unmapped (show k < _ by omega)
    rw [levelsFrom_cons (by omega), mapBlock, read_bind, found]
    simp only [Nat.and_two_pow_sub_one_eq_mod]
    by_cases fits : Fits virt remaining (startLevel memMap + k)
    · rw [if_pos (show _ ∧ _ from fits)]
      exact ⟨_, _, nodes, rfl, le_rfl, by omega, fits, fun i low high => absurd low (by omega),
        store_budget budget unmapped visited _⟩
    · obtain ⟨between, more, returned, after, deeper⟩ :=
        openPte_budget roomy budget unmapped visited (by omega) (needs _ le_rfl (by omega) fits)
      rw [if_neg (show ¬ (_ ∧ _) from fits), bind_of_ret returned]
      obtain ⟨last, t, nodes', mapped, lower, bottom, fitsLast, before, result⟩ :=
        ih after (show startLevel memMap + k + 1 + count = 3 by omega) (by omega)
          (fun i low => needs i (by omega)) (by omega)
      refine ⟨last, t, nodes', mapped, by omega, bottom, fitsLast, fun i low high => ?_, result⟩
      by_cases here : i = startLevel memMap + k
      · rw [here]
        exact fits
      · exact before i (by omega) high

/-- Going through a region from its start, `p` lies inside a block only when the
region does not cover the block. -/
def Reached (virt stop p : Nat) : Prop :=
  ∀ level : Nat, 1 ≤ level → level ≤ 3 → p % 2 ^ level2shift level ≠ 0 →
    p / 2 ^ level2shift level * 2 ^ level2shift level < virt ∨
      stop < p / 2 ^ level2shift level * 2 ^ level2shift level + 2 ^ level2shift level

private theorem reached_start (virt stop : Nat) : Reached virt stop virt := by
  intro level _ _ inside
  have split := Nat.div_add_mod virt (2 ^ level2shift level)
  rw [Nat.mul_comm] at split
  exact .inl (by omega)

/-- Within a block, the next piece is in the same block. -/
private theorem same_block_next (positive : 0 < piece) (aligned : p % piece = 0) (divides : piece ∣ block)
    (inside : (p + piece) % block ≠ 0) : (p + piece) / block = p / block := by
  obtain ⟨i, rfl⟩ := Nat.dvd_of_mod_eq_zero aligned
  obtain ⟨c, rfl⟩ := divides
  rw [show piece * i + piece = piece * (i + 1) by rw [Nat.mul_add, Nat.mul_one]] at inside ⊢
  rw [Nat.mul_mod_mul_left] at inside
  rw [Nat.mul_div_mul_left _ _ positive, Nat.mul_div_mul_left _ _ positive]
  refine Nat.succ_div_of_not_dvd (fun multiple => inside ?_)
  rw [Nat.mod_eq_zero_of_dvd multiple, Nat.mul_zero]

theorem Reached.next (reached : Reached virt stop p) (order : p < stop) (bottom : last ≤ 3)
    (fits : Fits p (stop - p) last) (before : ∀ i, 1 ≤ i → i < last → ¬ Fits p (stop - p) i) :
    Reached virt stop (p + 2 ^ level2shift last) := by
  intro level upper lower inside
  by_cases finer : last ≤ level
  · -- The end of the block is a multiple of every smaller block.
    have divides : 2 ^ level2shift level ∣ 2 ^ level2shift last := by
      refine Nat.pow_dvd_pow 2 ?_
      rw [level2shift_eq lower, level2shift_eq bottom]
      omega
    have multiple := Nat.dvd_add (divides.trans (Nat.dvd_of_mod_eq_zero fits.2)) divides
    exact absurd (Nat.mod_eq_zero_of_dvd multiple) inside
  · have divides : 2 ^ level2shift last ∣ 2 ^ level2shift level := by
      refine Nat.pow_dvd_pow 2 ?_
      rw [level2shift_eq lower, level2shift_eq bottom]
      omega
    rw [same_block_next (Nat.two_pow_pos _) fits.2 divides inside]
    by_cases aligned : p % 2 ^ level2shift level = 0
    · have short : ¬ 2 ^ level2shift level ≤ stop - p := fun large => before level upper (by omega) ⟨large, aligned⟩
      have split := Nat.div_add_mod p (2 ^ level2shift level)
      rw [Nat.mul_comm] at split
      exact .inr (by omega)
    · exact reached level upper lower aligned

/-- Where a block does not fit, a table is needed. -/
theorem Reached.needed {m : MmRegion} (reached : Reached m.virt (m.virt + m.size) p) (member : m ∈ regions memMap)
    (low : m.virt ≤ p) (high : p < m.virt + m.size) (upper : startLevel memMap ≤ level) (lower : level < 3)
    (partly : 1 ≤ level → ¬ Fits p (m.virt + m.size - p) level) : Needed memMap (tableOf level p) := by
  have size : span (level + 1) = 2 ^ level2shift level := span_entry lower
  have split := Nat.div_add_mod p (2 ^ level2shift level)
  have rest := Nat.mod_lt p (Nat.two_pow_pos (level2shift level))
  rw [Nat.mul_comm] at split
  refine ⟨by simp only [tableOf]; omega, lower, ?_, m, member, ?_⟩
  · simp only [tableOf, size]
    exact Nat.mul_mod_left _ _
  · simp only [Crosses, tableOf, size]
    refine ⟨by omega, by omega, ?_⟩
    by_cases top : level = 0
    · exact .inl (by omega)
    · refine .inr ?_
      have short := partly (by omega)
      by_cases aligned : p % 2 ^ level2shift level = 0
      · have less : ¬ 2 ^ level2shift level ≤ m.virt + m.size - p := fun large => short ⟨large, aligned⟩
        exact .inr (by omega)
      · exact reached level (by omega) (by omega) aligned

/-- A region is mapped with the tables it needs, and no address outside it. -/
theorem addMapLoop_budget {m : MmRegion} (roomy : Roomy memMap size) (budget : Budget memMap addr size todo nodes s)
    (member : m ∈ regions memMap) (inSpace : m.virt + m.size ≤ 2 ^ (getTcr memMap 0).vaBits) (low : m.virt ≤ virt)
    (total : virt + remaining = m.virt + m.size) (virtAligned : virt % 4096 = 0) (sizeAligned : remaining % 4096 = 0)
    (reached : Reached m.virt (m.virt + m.size) virt) (unmapped : ∀ b, virt ≤ b → b < m.virt + m.size → todo b)
    (enough : remaining / 4096 < fuel) :
    ∃ t nodes' todo', addMapLoop memMap attrs fuel virt phys remaining s = .ret () t ∧
      Budget memMap addr size todo' nodes' t ∧ ∀ b, todo b → ¬ (virt ≤ b ∧ b < m.virt + m.size) → todo' b := by
  induction fuel generalizing virt phys remaining todo nodes s with
  | zero => omega
  | succ fuel ih =>
    rw [addMapLoop]
    by_cases done : remaining = 0
    · rw [if_pos done]
      exact ⟨s, nodes, todo, rfl, budget, fun b stays _ => stays⟩
    · rw [if_neg done]
      have first : startLevel memMap ≤ 1 := startLevel_le
      have left : m.virt + m.size - virt = remaining := by omega
      have here : todo virt := unmapped virt le_rfl (by omega)
      obtain ⟨opened, more, openedTop, budgetTop, deep⟩ := openTop_budget roomy budget here
        (fun top => reached.needed member low (by omega) (by omega) (by omega) (fun upper => absurd upper (by omega)))
      rw [bind_of_ret openedTop]
      obtain ⟨last, mapped, nodes', ran, upper, bottom, fits, before, after⟩ :=
        mapBlock_budget phys attrs roomy budgetTop here virtAligned (show 4096 ≤ remaining by omega)
          (show 1 + 2 = 3 from rfl) le_rfl
          (fun i above below short => reached.needed member low (by omega) (by omega) below
            (fun _ => by rw [left]; exact short))
          deep
      have block : ∀ b, SameBlock last virt b ↔ virt ≤ b ∧ b < virt + 2 ^ level2shift last :=
        fun b => sameBlock_iff fits.2
      have within := fits.1
      have page : 4096 ∣ 2 ^ level2shift last := by
        refine Nat.pow_dvd_pow 2 (show 12 ≤ _ from ?_)
        rw [level2shift_eq bottom]
        omega
      rw [bind_of_ret (show mapBlock memMap virt phys remaining attrs [1, 2, 3] opened = _ from ran)]
      have bound : 2 ^ (getTcr memMap 0).vaBits ≤ 2 ^ 48 :=
        (Nat.pow_le_pow_right (by decide) vaBits_le).trans reach_le
      have next := Reached.next reached (by omega) bottom (by rw [left]; exact fits)
        (fun i above below => by rw [left]; exact before i above below)
      have positive := Nat.two_pow_pos (level2shift last)
      generalize 2 ^ level2shift last = blocksize at *
      rw [show (virt + blocksize) % 2 ^ 64 = virt + blocksize from Nat.mod_eq_of_lt (by omega)]
      obtain ⟨t, nodesLast, todoLast, returned, result, others⟩ := ih after (by omega)
        (show virt + blocksize + (remaining - blocksize) = _ by omega) (by omega) (by omega) next
        (fun b above below => ⟨unmapped b (by omega) below, fun same => by rw [block] at same; omega⟩) (by omega)
      refine ⟨t, nodesLast, todoLast, returned, result, fun b stays outside => others b ⟨stays, ?_⟩ (by omega)⟩
      rw [block]
      omega

/-- The regions take no address from one another. -/
def Apart (a b : MmRegion) : Prop := a.virt + a.size ≤ b.virt ∨ b.virt + b.size ≤ a.virt

private theorem addMaps_budget {maps : List MmRegion} (roomy : Roomy memMap size)
    (budget : Budget memMap addr size todo nodes s) (placed : ∀ m ∈ regions memMap, Placed m)
    (listed : ∀ m ∈ maps, m ∈ regions memMap) (apart : maps.Pairwise Apart)
    (unmapped : ∀ m ∈ maps, ∀ b, m.virt ≤ b → b < m.virt + m.size → todo b) :
    ∃ t nodes' todo', addMaps memMap maps s = .ret () t ∧ Budget memMap addr size todo' nodes' t := by
  induction maps generalizing todo nodes s with
  | nil => exact ⟨s, nodes, todo, rfl, budget⟩
  | cons m maps ih =>
    have member := listed m (by simp)
    obtain ⟨_, virtAligned, sizeAligned, _⟩ := placed m member
    obtain ⟨first, rest⟩ := List.pairwise_cons.mp apart
    obtain ⟨between, more, left, ran, after, others⟩ := addMapLoop_budget roomy budget member
      (region_in_space (fun m member => (placed m member).ends) member) le_rfl rfl virtAligned sizeAligned
      (reached_start _ _) (unmapped m (by simp)) (show m.size / 4096 < m.size / 4096 + 3 by omega)
    rw [addMaps, bind_of_ret (show addMap memMap m s = _ from ran)]
    refine ih after (fun n later => listed n (by simp [later])) rest (fun n later b low high => ?_)
    refine others b (unmapped n (by simp [later]) b low high) (fun inside => ?_)
    rcases first n later with before | behind
    · omega
    · omega

end Regions

/-! ## The whole map -/

/-- A map that the estimate is made for. -/
structure Separate (memMap : List MmRegion) : Prop where
  some : regions memMap ≠ []
  placed : ∀ m ∈ regions memMap, Placed m
  apart : (regions memMap).Pairwise Apart

section Board
variable {memMap : List MmRegion} {s : Mmu}

/-- The first table is needed. -/
theorem root_needed (separate : Separate memMap) : Needed memMap (startLevel memMap, 0) := by
  have first : startLevel memMap ≤ 1 := startLevel_le
  obtain ⟨m, member⟩ := List.exists_mem_of_ne_nil _ separate.some
  have placed := separate.placed m member
  have some := placed.some
  have inSpace := region_in_space (fun m member => (separate.placed m member).ends) member
  have reach : 2 ^ (getTcr memMap 0).vaBits ≤ span (startLevel memMap) :=
    Nat.pow_le_pow_right (by decide) vaBits_le
  exact ⟨le_rfl, by simp only; omega, Nat.zero_mod _, m, member, by simp only; omega, by simp only; omega, .inl first⟩

/-- After the first table nothing is mapped. -/
theorem createTable_budget (separate : Separate memMap) (reserved : Reserved s) (roomy : Roomy memMap s.tlbSize) :
    ∃ root t, createTable s = .ret root t ∧
      Budget memMap s.tlbAddr s.tlbSize (InReach (startLevel memMap)) [(startLevel memMap, 0)] t := by
  have needed : ∀ node ∈ [(startLevel memMap, 0)], Needed memMap node :=
    List.forall_mem_singleton.mpr (root_needed separate)
  have enough : 1 ≤ pagesLeft s := by
    have space := roomy _ (List.pairwise_singleton _ _) needed
    have empty := reserved.empty
    rw [List.length_singleton] at space
    unfold pagesLeft
    omega
  obtain ⟨root, t, returned, within, built⟩ :=
    (createTable_built reserved (startLevel memMap) startLevel_le).returns enough
  have used : t.tlbFillptr ≤ s.tlbAddr + 4096 * 1 := by
    rw [← reserved.empty]
    exact within.used
  refine ⟨root, t, returned, ⟨built.toTables, fun _ reach => reach, within.addr, within.size, used, fun b reachB => ?_,
    List.pairwise_singleton _ _, needed, fun b reachB k member => ?_⟩⟩
  · obtain ⟨front, clean⟩ := built.clean b reachB
    exact ⟨front, clean.split, clean.tables⟩
  · have level : startLevel memMap + k + 1 = startLevel memMap := congrArg Prod.fst (List.mem_singleton.mp member)
    omega

/-- One set of tables stays within what is needed. -/
theorem setupPgtables_budget (separate : Separate memMap) (reserved : Reserved s) (roomy : Roomy memMap s.tlbSize) :
    ∃ t nodes todo, setupPgtables memMap s = .ret () t ∧ Budget memMap s.tlbAddr s.tlbSize todo nodes t := by
  have nonzero := reserved.nonzero
  have empty := reserved.empty
  unfold setupPgtables
  rw [read_bind, if_neg (by omega)]
  obtain ⟨root, between, created, budget⟩ := createTable_budget separate reserved roomy
  rw [bind_of_ret created]
  refine addMaps_budget roomy budget separate.placed (fun _ member => member) separate.apart
    (fun m member b low high => PageWalk.reach (lt_of_lt_of_le high ?_))
  exact region_in_space (fun m member => (separate.placed m member).ends) member

/-- With the space that is asked for both sets of tables are built, and four
pages are left. -/
theorem setupAllPgtables_budget (separate : Separate memMap) (space : TableSpace s)
    (size : getPageTableSize memMap = some s.tlbSize) :
    ∃ t, setupAllPgtables memMap s = .ret () t ∧ t.tlbAddr = s.tlbAddr ∧ t.tlbSize = s.tlbSize ∧
      t.tlbFillptr + 4 * 4096 ≤ t.tlbAddr + t.tlbSize := by
  obtain ⟨count, estimate, counted⟩ := needed_le separate.placed
  rw [estimate, Option.some.injEq] at size
  have nonzero := space.nonzero
  have aligned := space.aligned
  have fits := space.fits
  have reserved : Reserved { s with tlbFillptr := s.tlbAddr } := ⟨⟨nonzero, aligned, fits⟩, rfl⟩
  have roomy : Roomy memMap s.tlbSize := by
    intro tables distinct needed
    have bound := counted tables distinct needed
    omega
  obtain ⟨first, nodes, todo, built, budget⟩ := setupPgtables_budget separate reserved roomy
  have addr : first.tlbAddr = s.tlbAddr := budget.addr_eq
  have same : first.tlbSize = s.tlbSize := budget.size_eq
  have used : first.tlbFillptr ≤ s.tlbAddr + 4096 * nodes.length := budget.used
  have bound := counted nodes budget.distinct budget.needed
  have low := budget.low
  have high := budget.high
  have pages := budget.aligned
  unfold setupAllPgtables
  rw [read_bind, write_bind, bind_of_ret built, read_bind, write_bind]
  have left : (first.tlbSize + 2 ^ 64 - (first.tlbFillptr + 2 ^ 64 - first.tlbAddr) % 2 ^ 64) % 2 ^ 64 =
      first.tlbAddr + first.tlbSize - first.tlbFillptr := by omega
  rw [left]
  have reservedAgain : Reserved { first with
      tlbSize := first.tlbAddr + first.tlbSize - first.tlbFillptr, tlbAddr := first.tlbFillptr } :=
    ⟨⟨by simp only; omega, pages, by simp only; omega⟩, rfl⟩
  have roomyAgain : Roomy memMap (first.tlbAddr + first.tlbSize - first.tlbFillptr) := by
    intro tables distinct needed
    have boundAgain := counted tables distinct needed
    omega
  obtain ⟨second, nodesAgain, todoAgain, builtAgain, budgetAgain⟩ :=
      setupPgtables_budget separate reservedAgain roomyAgain
  have boundAgain := counted nodesAgain budgetAgain.distinct budgetAgain.needed
  have usedAgain : second.tlbFillptr ≤ first.tlbFillptr + 4096 * nodesAgain.length := budgetAgain.used
  rw [bind_of_ret builtAgain, read_bind, write_apply]
  exact ⟨_, rfl, rfl, rfl, by simp only; omega⟩

/-- The budget suffices: with the space that `get_page_table_size` asks for both
sets of tables are built, and four pages are left. -/
theorem table_budget_suffices (memMap : List MmRegion) (separate : Separate memMap) :
    ∃ size, getPageTableSize memMap = some size ∧
      ∀ s, TableSpace s → s.tlbSize = size →
        ∃ t, setupAllPgtables memMap s = .ret () t ∧ t.tlbAddr = s.tlbAddr ∧ t.tlbSize = s.tlbSize ∧
          t.tlbFillptr + 4 * 4096 ≤ t.tlbAddr + t.tlbSize := by
  obtain ⟨count, estimate, _⟩ := needed_le separate.placed
  refine ⟨_, estimate, fun s space size => ?_⟩
  exact setupAllPgtables_budget separate space (by rw [estimate, size])

end Board

/-- A page, and a large block behind it. -/
def separateMap : List MmRegion :=
  [{ virt := 0x40000000, phys := 0x80000000, size := 0x1000, attrs := 0x404#64 },
    { virt := 0x80000000, phys := 0x80000000, size := 0x40000000, attrs := 0x8#64 },
    { virt := 0, phys := 0, size := 0, attrs := 0#64 }]

private theorem separateMap_separate : Separate separateMap := by
  have listed : regions separateMap = separateMap.take 2 := rfl
  refine ⟨by rw [listed]; exact List.cons_ne_nil _ _, ?_, ?_⟩
  · rw [listed, separateMap, List.take_succ_cons, List.take_succ_cons, List.take_zero, List.forall_mem_cons,
      List.forall_mem_cons]
    refine ⟨⟨?_, ?_, ?_, ?_⟩, ⟨?_, ?_, ?_, ?_⟩, fun _ none => by cases none⟩
    all_goals decide
  · rw [listed]
    refine .cons (fun m member => ?_) (List.pairwise_singleton _ _)
    rw [List.mem_singleton.mp member]
    exact .inl (by decide)

theorem table_budget_suffices_two : ∃ t, getPageTableSize separateMap = some 0xa000 ∧
    setupAllPgtables separateMap { blankMmu with tlbSize := 0xa000 } = .ret () t ∧
    t.tlbFillptr + 4 * 4096 ≤ t.tlbAddr + t.tlbSize := by
  have estimate : getPageTableSize separateMap = some 0xa000 := by decide +kernel
  obtain ⟨size, same, enough⟩ := table_budget_suffices separateMap separateMap_separate
  rw [estimate, Option.some.injEq] at same
  subst same
  obtain ⟨t, built, _, _, left⟩ := enough { blankMmu with tlbSize := 0xa000 } ⟨by decide, by decide, by decide⟩ rfl
  exact ⟨t, estimate, built, left⟩

end RockOs.PageTableBudget
