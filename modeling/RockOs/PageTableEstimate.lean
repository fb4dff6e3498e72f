import Mathlib.Data.List.Perm.Subperm
import RockOs.PageWalk

/-! `get_page_table_size` counts the tables a map needs before any is built. An
entry needs a table when a region meets its block without covering it; here the
estimate is shown to count every such entry. -/
namespace RockOs.PageTableEstimate
open PageTables PageDescriptors PageWalk

/-- The size of the block that a table of a level stands for. -/
def span (level : Nat) : Nat := 2 ^ (level2shift level + 9)

/-- A table: its level, and where its block begins. -/
abbrev Table := Nat × Nat

/-- The region meets the block of the table, and does not fill it with one
larger block. On the first two levels nothing does. -/
def Crosses (m : MmRegion) (table : Table) : Prop :=
  m.virt < table.2 + span table.1 ∧ table.2 < m.virt + m.size ∧
    (table.1 ≤ 1 ∨ table.2 < m.virt ∨ m.virt + m.size < table.2 + span table.1)

/-- A table some region needs. -/
structure Needed (memMap : List MmRegion) (table : Table) : Prop where
  top : startLevel memMap ≤ table.1
  bottom : table.1 ≤ 3
  aligned : table.2 % span table.1 = 0
  crossed : ∃ m ∈ regions memMap, Crosses m table

/-- The regions of a board that the estimate is made for. -/
structure Placed (m : MmRegion) : Prop where
  some : 0 < m.size
  virtAligned : m.virt % 4096 = 0
  sizeAligned : m.size % 4096 = 0
  ends : m.virt + m.size ≤ 2 ^ 48

section Blocks
variable {level a b : Nat}

private theorem span_pos (level : Nat) : 0 < span level := Nat.two_pow_pos _

private theorem span_succ (small : level < 3) : span level = span (level + 1) * 512 := by
  unfold span
  rw [shift_succ small, Nat.pow_add _ _ 9]

/-- The entries of a table are the blocks of the next level. -/
theorem span_entry (small : level < 3) : span (level + 1) = 2 ^ level2shift level := by
  rw [span, shift_succ small]

/-- A block lies inside the larger block it belongs to. -/
theorem span_inside (order : level ≤ below) (bottom : below ≤ 3) (aligned : b % span below = 0) :
    b / span level * span level ≤ b ∧ b + span below ≤ b / span level * span level + span level := by
  obtain ⟨q, larger⟩ : span below ∣ span level := by
    have coarse : level2shift level = 12 + 9 * (3 - level) := level2shift_eq (by omega)
    have fine : level2shift below = 12 + 9 * (3 - below) := level2shift_eq bottom
    exact Nat.pow_dvd_pow 2 (by omega)
  have positive := span_pos level
  have fine := span_pos below
  have split := Nat.div_add_mod b (span level)
  have rest := Nat.mod_lt b positive
  rw [Nat.mul_comm] at split
  refine ⟨by omega, ?_⟩
  -- Both ends are multiples of the smaller block.
  have multiple : b % span level % span below = 0 := by
    rw [Nat.mod_mod_of_dvd _ ⟨q, larger⟩]
    exact aligned
  obtain ⟨i, inner⟩ := Nat.dvd_of_mod_eq_zero multiple
  have smaller : i < q := by
    rw [inner, larger] at rest
    exact Nat.lt_of_mul_lt_mul_left rest
  have next : span below * (i + 1) ≤ span below * q := Nat.mul_le_mul_left _ smaller
  rw [← larger, Nat.mul_add, Nat.mul_one, ← inner] at next
  omega

end Blocks

/-! ## One entry -/

section Kinds
variable {addr level : Nat} {kind : PteKind} {m : MmRegion}

/-- The shift of the entry that leads to a table of the level. -/
theorem entry_shift (small : level ≤ 3) : level2shift ((level : Int) - 1) = level2shift level + 9 := by
  unfold level2shift
  omega

private theorem endAddr_eq (ends : m.virt + m.size ≤ 2 ^ 48) : m.endAddr = m.virt + m.size :=
  Nat.mod_eq_of_lt (by omega)

/-- Between two multiples there is none. -/
private theorem not_multiple (aligned : a % size = 0) (low : a < x) (high : x < a + size) : x % size ≠ 0 := by
  intro multiple
  obtain ⟨i, rfl⟩ := Nat.dvd_of_mod_eq_zero aligned
  obtain ⟨j, rfl⟩ := Nat.dvd_of_mod_eq_zero multiple
  have more : i < j := Nat.lt_of_mul_lt_mul_left low
  have next : size * (i + 1) ≤ size * j := Nat.mul_le_mul_left _ more
  rw [Nat.mul_add, Nat.mul_one] at next
  omega

private theorem pteKind_level {maps : List MmRegion} (bottom : level ≤ 3) (aligned : addr % span level = 0)
    (member : m ∈ maps) (ends : m.virt + m.size ≤ 2 ^ 48) (crosses : Crosses m (level, addr)) :
    pteKind addr ((level : Int) - 1) kind maps = .level := by
  obtain ⟨first, last, partly⟩ := crosses
  simp only at first last partly
  induction maps generalizing kind with
  | nil => cases member
  | cons map maps ih =>
    rw [pteKind, entry_shift bottom, ← span]
    by_cases here : m = map
    · rw [← here, endAddr_eq ends, span, Nat.and_two_pow_sub_one_eq_mod, Nat.and_two_pow_sub_one_eq_mod, ← span,
        if_pos (by omega)]
      by_cases top : level ≤ 1
      · split
        · rfl
        · rw [if_pos (by omega)]
      · rw [if_pos]
        rcases partly.resolve_left top with inside | inside
        · refine .inl ?_
          rw [Nat.max_eq_right inside.le]
          exact not_multiple aligned inside first
        · refine .inr ?_
          rw [Nat.min_eq_right inside.le]
          exact not_multiple aligned last inside
    · have later := (List.mem_cons.mp member).resolve_left here
      split_ifs
      · rfl
      · rfl
      · exact ih later
      · exact ih later

/-- No page needs a table. -/
theorem pteKind_page {maps : List MmRegion} (aligned : addr % 4096 = 0) (placed : ∀ m ∈ maps, Placed m)
    (other : kind ≠ .level) : pteKind addr 3 kind maps ≠ .level := by
  induction maps generalizing kind with
  | nil => exact other
  | cons map maps ih =>
    obtain ⟨_, virtAligned, sizeAligned, ends⟩ := placed map (by simp)
    have rest : ∀ m ∈ maps, Placed m := fun m member => placed m (by simp [member])
    have page : level2shift 3 = 12 := rfl
    rw [pteKind, endAddr_eq ends, page]
    simp only [Nat.and_two_pow_sub_one_eq_mod]
    have startAligned : max addr map.virt % 2 ^ 12 = 0 := by omega
    have stopAligned : min (addr + 2 ^ 12) (map.virt + map.size) % 2 ^ 12 = 0 := by omega
    simp only [startAligned, stopAligned, ne_eq, not_true_eq_false, or_self, ↓reduceIte,
      show ¬ (3 : Int) ≤ 0 by decide]
    split
    · exact ih rest (by decide)
    · exact ih rest other

end Kinds

/-! ## The tables that are counted -/

/-- The tables that `countLoop` counts. -/
def tablesLoop (tables : Nat → List Table) (step maxaddr : Nat) : (left addr : Nat) → List Table
  | 0, _ => []
  | left + 1, addr =>
    tables addr ++ if maxaddr ≤ addr + step then [] else tablesLoop tables step maxaddr left (addr + step)

/-- The tables that `count_required_pts` counts. -/
def requiredPts (memMap : List MmRegion) (maxaddr : Nat) : (left addr : Nat) → List Table
  | 0, _ => []
  | left + 1, addr =>
    match pteKind addr (4 - left) .inval (regions memMap) with
    | .level =>
      (5 - left, addr) ::
        tablesLoop (fun child => requiredPts memMap maxaddr left child) (2 ^ level2shift (5 - left)) maxaddr 512 addr
    | _ => []

section Counting
variable {memMap : List MmRegion} {maxaddr step left addr r : Nat} {tables : Nat → List Table}
  {count : Nat → Option Nat}

private theorem countLoop_eq (same : ∀ i < left, count (addr + i * step) = some (tables (addr + i * step)).length) :
    countLoop count step maxaddr left addr r = some (r + (tablesLoop tables step maxaddr left addr).length) := by
  induction left generalizing addr r with
  | zero => rfl
  | succ left ih =>
    have first := same 0 (Nat.succ_pos left)
    rw [Nat.zero_mul, Nat.add_zero] at first
    have next : ∀ i < left, count (addr + step + i * step) = some (tables (addr + step + i * step)).length := by
      intro i small
      have later := same (i + 1) (by omega)
      rwa [Nat.add_mul, Nat.one_mul, Nat.add_comm (i * step), ← Nat.add_assoc] at later
    rw [countLoop, tablesLoop, first, Option.bind_eq_bind, Option.bind_some]
    split
    · rw [List.append_nil]
      rfl
    · rw [ih next, List.length_append, Nat.add_assoc]

private theorem mem_tablesLoop (small : i < left) (inside : addr + i * step < maxaddr)
    (member : table ∈ tables (addr + i * step)) :
    table ∈ tablesLoop tables step maxaddr left addr := by
  induction left generalizing addr i with
  | zero => omega
  | succ left ih =>
    rw [tablesLoop, List.mem_append]
    cases i with
    | zero =>
      rw [Nat.zero_mul, Nat.add_zero] at member
      exact .inl member
    | succ i =>
      have next : addr + (i + 1) * step = addr + step + i * step := by
        rw [Nat.add_mul, Nat.one_mul, Nat.add_comm (i * step), Nat.add_assoc]
      rw [next] at inside member
      refine .inr ?_
      rw [if_neg (by omega)]
      exact ih (by omega) inside member

/-- The estimate is the number of these tables. -/
theorem countRequiredPts_eq (placed : ∀ m ∈ regions memMap, Placed m) (levels : left ≤ 4) (aligned : addr % 4096 = 0) :
    countRequiredPts memMap maxaddr (left + 2) addr = some (requiredPts memMap maxaddr (left + 2) addr).length := by
  induction left generalizing addr with
  | zero =>
    have page : pteKind addr 3 .inval (regions memMap) ≠ .level := pteKind_page aligned placed (by decide)
    rw [countRequiredPts, requiredPts]
    have level : (4 : Int) - ((0 + 1 : Nat) : Int) = 3 := rfl
    rw [level]
    cases kind : pteKind addr 3 .inval (regions memMap) with
    | level => exact absurd kind page
    | inval | block => rfl
  | succ left ih =>
    rw [countRequiredPts, requiredPts]
    cases pteKind addr (4 - (left + 2 : Nat)) .inval (regions memMap) with
    | level =>
      have pages : 4096 ∣ 2 ^ level2shift (5 - (left + 2 : Nat)) := by
        refine Nat.pow_dvd_pow 2 (show 12 ≤ _ from ?_)
        unfold level2shift
        omega
      have children : ∀ i < 512, countRequiredPts memMap maxaddr (left + 2)
          (addr + i * 2 ^ level2shift (5 - (left + 2 : Nat))) =
          some (requiredPts memMap maxaddr (left + 2) (addr + i * 2 ^ level2shift (5 - (left + 2 : Nat)))).length := by
        intro i _
        have multiple : i * 2 ^ level2shift (5 - (left + 2 : Nat)) % 4096 = 0 :=
          Nat.mod_eq_zero_of_dvd (pages.mul_left i)
        exact ih (by omega) (by omega)
      refine (countLoop_eq children).trans ?_
      rw [List.length_cons, Nat.add_comm]
    | inval | block => rfl

/-- The entry of a table whose block holds `b`. -/
private theorem child_index (positive : 0 < width) (low : width * 512 * q ≤ b)
    (high : b < width * 512 * q + width * 512) :
    ∃ i < 512, width * 512 * q + i * width = b / width * width := by
  have first : 512 * q ≤ b / width := by
    rw [Nat.le_div_iff_mul_le positive, Nat.mul_comm, ← Nat.mul_assoc]
    exact low
  have last : b / width < 512 * q + 512 := by
    rw [Nat.div_lt_iff_lt_mul positive, Nat.mul_comm, Nat.mul_add, ← Nat.mul_assoc]
    exact high
  refine ⟨b / width - 512 * q, by omega, ?_⟩
  rw [Nat.sub_mul, Nat.mul_comm (512 * q), ← Nat.mul_assoc]
  have enough : width * 512 * q ≤ b / width * width := by
    rw [Nat.mul_assoc, Nat.mul_comm]
    exact Nat.mul_le_mul_right _ first
  omega

/-- A table is counted when the estimate finds a table on its level and on every
level above. -/
theorem mem_requiredPts (levels : level + left = 5) (aligned : addr % span level = 0) (order : level ≤ below)
    (bottom : below ≤ 3) (low : addr ≤ b) (high : b < addr + span level) (multiple : b % span below = 0)
    (inside : b < maxaddr)
    (found : ∀ i, level ≤ i → i ≤ below →
      pteKind (b / span i * span i) ((i : Int) - 1) .inval (regions memMap) = .level) :
    (below, b) ∈ requiredPts memMap maxaddr (left + 1) addr := by
  induction left generalizing level addr with
  | zero => omega
  | succ left ih =>
    obtain ⟨q, rfl⟩ := Nat.dvd_of_mod_eq_zero aligned
    have block : b / span level = q := by
      refine Nat.div_eq_of_lt_le ?_ ?_
      · rw [Nat.mul_comm]
        exact low
      · rw [Nat.add_mul, Nat.one_mul, Nat.mul_comm q]
        exact high
    have here := found level le_rfl order
    rw [block, Nat.mul_comm] at here
    have entry : (4 : Int) - (left + 1 : Nat) = (level : Int) - 1 := by omega
    have table : 5 - (left + 1) = level := by omega
    rw [requiredPts, entry, here]
    simp only
    rw [table]
    by_cases last : below = level
    · subst last
      obtain ⟨j, rfl⟩ := Nat.dvd_of_mod_eq_zero multiple
      rw [Nat.mul_div_cancel_left _ (span_pos _)] at block
      rw [block]
      exact List.mem_cons_self
    · have child : level2shift (5 - (left + 1 : Nat)) = level2shift level := by
        unfold level2shift
        omega
      rw [child, ← span_entry (by omega)]
      refine List.mem_cons_of_mem _ ?_
      have split := span_succ (show level < 3 by omega)
      have positive := span_pos (level + 1)
      rw [split] at low high ⊢
      obtain ⟨i, small, entryAt⟩ := child_index positive low high
      have rest := Nat.div_add_mod b (span (level + 1))
      have below512 := Nat.mod_lt b positive
      rw [Nat.mul_comm] at rest
      refine mem_tablesLoop small (by omega) ?_
      rw [entryAt]
      refine ih (show level + 1 + left = 5 by omega) (Nat.mul_mod_left _ _) (by omega) (by omega) (by omega)
        (fun i above => found i (by omega))

/-- Above a table that is needed are tables that are needed. -/
theorem Needed.above (needed : Needed memMap (below, b)) (top : startLevel memMap ≤ level) (order : level ≤ below) :
    Needed memMap (level, b / span level * span level) := by
  obtain ⟨_, bottom, aligned, m, member, first, last, partly⟩ := needed
  simp only at bottom aligned first last partly
  obtain ⟨begins, ends⟩ := span_inside order bottom aligned
  refine ⟨top, order.trans bottom, Nat.mul_mod_left _ _, m, member, ?_, ?_, ?_⟩
  · show m.virt < b / span level * span level + span level
    omega
  · show b / span level * span level < m.virt + m.size
    omega
  · show level ≤ 1 ∨ b / span level * span level < m.virt ∨ m.virt + m.size < b / span level * span level + span level
    omega

/-- Every table that is needed is counted. -/
theorem needed_counted (placed : ∀ m ∈ regions memMap, Placed m) (needed : Needed memMap table) :
    table ∈ requiredPts memMap (2 ^ (getTcr memMap 0).vaBits) (6 - startLevel memMap) 0 := by
  obtain ⟨below, b⟩ := table
  have first : startLevel memMap ≤ 1 := startLevel_le
  obtain ⟨m, member, _, last, _⟩ := needed.crossed
  have inside : b < m.virt + m.size := last
  have inSpace := region_in_space (fun m member => (placed m member).ends) member
  have reach : 2 ^ (getTcr memMap 0).vaBits ≤ span (startLevel memMap) :=
    Nat.pow_le_pow_right (by decide) vaBits_le
  rw [show 6 - startLevel memMap = 5 - startLevel memMap + 1 by omega]
  refine mem_requiredPts (show startLevel memMap + (5 - startLevel memMap) = 5 by omega) (Nat.zero_mod _) needed.top
    needed.bottom (Nat.zero_le _) (by omega) needed.aligned (by omega) (fun i above below => ?_)
  have here := needed.above above below
  obtain ⟨m, member, crosses⟩ := here.crossed
  exact pteKind_level here.bottom here.aligned member (placed m member).ends crosses

/-- No more tables are needed than the estimate counts. -/
theorem needed_le (placed : ∀ m ∈ regions memMap, Placed m) :
    ∃ count, getPageTableSize memMap = some (4096 * count * 2 + 4096 * 4) ∧
      ∀ tables : List Table, tables.Nodup → (∀ table ∈ tables, Needed memMap table) → tables.length ≤ count := by
  have first : startLevel memMap ≤ 1 := startLevel_le
  refine ⟨(requiredPts memMap (2 ^ (getTcr memMap 0).vaBits) (6 - startLevel memMap) 0).length, ?_,
    fun tables distinct needed => ?_⟩
  · have counted : countRequiredPts memMap (2 ^ (getTcr memMap 0).vaBits) (4 - startLevel memMap + 2) 0 = some _ :=
      countRequiredPts_eq placed (by omega) (Nat.zero_mod _)
    rw [show 4 - startLevel memMap + 2 = 6 - startLevel memMap by omega] at counted
    rw [getPageTableSize, counted]
    rfl
  · exact (List.subperm_of_subset distinct (fun table member => needed_counted placed (needed table member))).length_le

end Counting

end RockOs.PageTableEstimate
