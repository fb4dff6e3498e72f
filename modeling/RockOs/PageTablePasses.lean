import Mathlib.Order.Interval.Finset.Nat
import RockOs.PageTableRegions

/-! A pass of the loop over a range that is mapped. It sets the entry of every
granule, and the pages it takes are counted: one for each block that has to be
split because a granule inside it is smaller. -/
namespace RockOs.PageTablePasses
open Machine PageTables PageDescriptors PageWalk PageTableSteps PageLeaves PageTableSetup PageTableChanges
open PageTableRegions RadixTable

/-- A pass over `[first, stop)` sets the entry of the granule of each address
inside, and splits blocks that reach into the range. -/
structure Passed (start first stop : Nat) (upd : BitVec 64 → BitVec 64) (s t : Mmu) : Prop where
  inside : ∀ b, InReach start b → first ≤ b → b < stop →
    PageTableRegions.Set start b (granule first stop b - start) upd (entries start s b) (entries start t b)
  outside : ∀ b, InReach start b → ¬ (first ≤ b ∧ b < stop) →
    Around start b (fun c => first ≤ c ∧ c < stop) (entries start s b) (entries start t b)

section Pass
variable {memMap : List MmRegion} {start b p k first stop size fuel : Nat}
  {other : Nat → Prop} {near far : Nat → Prop} {s t u : Mmu} {es qs : List (BitVec 64)} {upd : BitVec 64 → BitVec 64}

/-- A turn and the pass over the rest are the pass. -/
theorem turned_passed (top : start ≤ 1) (page : first % 2 ^ 12 = 0) (stopPage : stop % 2 ^ 12 = 0)
    (turned : Turned start first (granule first stop first - start) upd s t)
    (rest : Passed start (first + 2 ^ level2shift (granule first stop first)) stop upd t u)
    (within : first + 2 ^ level2shift (granule first stop first) ≤ stop)
    (aligned : first % 2 ^ level2shift (granule first stop first) = 0) :
    Passed start first stop upd s u := by
  obtain ⟨upper, lower⟩ := granule_bounds first stop first
  have level : start + (granule first stop first - start) = granule first stop first := by omega
  have positive := Nat.two_pow_pos (level2shift (granule first stop first))
  have nextPage : (first + 2 ^ level2shift (granule first stop first)) % 2 ^ 12 = 0 := by
    rcases shift_cases upper lower with ⟨_, size⟩ | ⟨_, size⟩ | ⟨_, size⟩ <;> rw [size] <;> omega
  have block : ∀ b, SameBlock (granule first stop first) first b ↔
      first ≤ b ∧ b < first + 2 ^ level2shift (granule first stop first) := fun b => sameBlock_iff aligned
  refine ⟨fun b reach low high => ?_, fun b reach out => ?_⟩
  · by_cases here : b < first + 2 ^ level2shift (granule first stop first)
    · -- The granule was set in this turn, and no later one comes near it.
      obtain ⟨qs, finer, length, unsplit, result⟩ :=
          turned.inside b reach (by rw [level]; exact (block b).mpr ⟨low, here⟩)
      rw [granule_same page stopPage low here]
      refine ⟨qs, finer, length, unsplit, ?_⟩
      rw [← result]
      have long : granule first stop first - start < (entries start t b).length := by
        rw [result, List.length_modify]
        omega
      refine (rest.outside b reach (by omega)).unchanged (entries_bound (by omega)) long (fun c close shared => ?_)
      rw [level] at shared
      have inside : SameBlock (granule first stop first) first b := (block b).mpr ⟨low, here⟩
      have both : SameBlock (granule first stop first) first c := inside.trans shared.symm
      have bound := (block c).mp both
      omega
    · -- The granule comes later; what this turn split of it was above it.
      have later : granule (first + 2 ^ level2shift (granule first stop first)) stop b = granule first stop b :=
        granule_next page stopPage (by omega)
      obtain ⟨upperB, lowerB⟩ := granule_bounds first stop b
      have levelB : start + (granule first stop b - start) = granule first stop b := by omega
      have around := turned.outside b reach (by rw [level, block]; omega)
      have apart : ∀ c, c = first → ¬ SameBlock (start + (granule first stop b - start)) c b := by
        rintro c rfl same
        rw [levelB] at same
        have begins : _ ≤ b / 2 ^ level2shift (granule (c + 2 ^ level2shift (granule c stop c)) stop b) * _ :=
          granule_start nextPage (by omega)
        rw [later] at begins
        have same : c / 2 ^ level2shift (granule c stop b) = b / 2 ^ level2shift (granule c stop b) := same
        rw [← same] at begins
        have back := Nat.div_mul_le_self c (2 ^ level2shift (granule c stop b))
        omega
      obtain ⟨qs, finer, length, unsplit, result⟩ := rest.inside b reach (by omega) high
      rw [later] at length unsplit result
      have bound := around.length_le (entries_bound (by omega)) apart
      have longer := around.longer
      refine ⟨qs, around.finer.trans finer, by omega, fun deep => ?_, result⟩
      have same := around.unchanged (entries_bound (by omega)) deep apart
      rw [← same]
      exact unsplit (by rw [same]; exact deep)
  · have around := turned.outside b reach (by rw [level, block]; omega)
    refine (around.mono (fun c here => ?_)).trans ((rest.outside b reach (by omega)).mono (fun c close => ?_))
    · subst here
      omega
    · omega

end Pass

/-! ## The blocks that are split -/

/-- The blocks of a level that a pass over `[first, stop)` splits, on tables where
the walk of an address ends on the level `depth`. -/
def splitBlocks (depth : Nat → Nat) (first stop level : Nat) : Finset Nat :=
  (Finset.range stop).filter (fun block => ∃ va < stop, first ≤ va ∧ va / 2 ^ level2shift level = block ∧
    depth va ≤ level ∧ level < granule first stop va)

/-- How many blocks a pass splits; there are blocks of 1 GiB and of 2 MiB. -/
def splits (depth : Nat → Nat) (first stop : Nat) : Nat :=
  (splitBlocks depth first stop 1).card + (splitBlocks depth first stop 2).card

/-- The level on which the walk of an address ends. -/
def depth (start : Nat) (s : Mmu) (va : Nat) : Nat := start + (entries start s va).length - 1

section Splits
variable {memMap : List MmRegion} {start a b k level first stop fuel : Nat} {other : Nat → Prop} {s t : Mmu}
  {deep shallow : Nat → Nat} {upd : BitVec 64 → BitVec 64}

theorem mem_splitBlocks : b ∈ splitBlocks deep first stop level ↔
    ∃ va, first ≤ va ∧ va < stop ∧ va / 2 ^ level2shift level = b ∧ deep va ≤ level ∧ level < granule first stop va := by
  rw [splitBlocks, Finset.mem_filter, Finset.mem_range]
  constructor
  · rintro ⟨_, va, inside, low, block, above, small⟩
    exact ⟨va, low, inside, block, above, small⟩
  · rintro ⟨va, low, inside, rfl, above, small⟩
    exact ⟨(Nat.div_le_self _ _).trans_lt inside, va, inside, low, rfl, above, small⟩

theorem le_splits {large small : Finset Nat} (gigabytes : large ⊆ splitBlocks deep first stop 1)
    (megabytes : small ⊆ splitBlocks deep first stop 2) : large.card + small.card ≤ splits deep first stop :=
  Nat.add_le_add (Finset.card_le_card gigabytes) (Finset.card_le_card megabytes)

/-- Only the depths inside the range count. -/
theorem splits_congr (same : ∀ va, first ≤ va → va < stop → deep va = shallow va) :
    splits deep first stop = splits shallow first stop := by
  have blocks : ∀ level, splitBlocks deep first stop level = splitBlocks shallow first stop level := by
    intro level
    ext b
    rw [mem_splitBlocks, mem_splitBlocks]
    refine exists_congr (fun va => and_congr_right (fun low => and_congr_right (fun high => ?_)))
    rw [same va low high]
  rw [splits, splits, blocks, blocks]

/-- A block is split for a page of the range. -/
theorem splits_le (page : first % 4096 = 0) (stopPage : stop % 4096 = 0) :
    splits deep first stop ≤ 2 * ((stop - first) / 4096) := by
  have each : ∀ level, 1 ≤ level → level ≤ 2 → (splitBlocks deep first stop level).card ≤ (stop - first) / 4096 := by
    intro level upper lower
    have inside : splitBlocks deep first stop level ⊆
        (Finset.Ico (first / 4096) (stop / 4096)).image (fun page => page / 2 ^ (level2shift level - 12)) := by
      intro b member
      obtain ⟨va, low, high, rfl, _⟩ := mem_splitBlocks.mp member
      have whole : 4096 * 2 ^ (level2shift level - 12) = 2 ^ level2shift level := by
        rw [show 4096 = 2 ^ 12 from rfl, ← Nat.pow_add]
        congr 1
        rw [level2shift_eq (by omega)]
        omega
      refine Finset.mem_image.mpr ⟨va / 4096, Finset.mem_Ico.mpr ⟨by omega, by omega⟩, ?_⟩
      rw [Nat.div_div_eq_div_mul, whole]
    have count := (Finset.card_le_card inside).trans Finset.card_image_le
    rw [Nat.card_Ico] at count
    omega
  have first := each 1 le_rfl (by omega)
  have second := each 2 (by omega) le_rfl
  unfold splits
  omega

/-- Addresses of a block have the walk of its leaf. -/
theorem entries_same_block (small : start + k < 4) (reachA : InReach start a) (reachB : InReach start b)
    (same : SameBlock (start + k) a b) (short : (entries start s a).length ≤ k + 1) :
    entries start s b = entries start s a := by
  rw [entries_length] at short
  show (slots start s b).map s.mem = (slots start s a).map s.mem
  rw [show slots start s b = slots start s a from path_short ((same_block small reachA reachB).mpr same) short]

/-- A pass that splits nothing leaves the walks outside its range as they were:
they share their entries with walks inside. -/
theorem Passed.still (passed : Passed start first stop upd s t) (top : start ≤ 1)
    (reach : stop ≤ 2 ^ (level2shift start + 9))
    (deep : ∀ c, first ≤ c → c < stop → granule first stop c - start < (entries start s c).length)
    (reachB : InReach start b) (out : ¬ (first ≤ b ∧ b < stop)) : entries start t b = entries start s b := by
  rcases passed.outside b reachB out with same | ⟨_, longer, c, ⟨low, high⟩, block⟩
  · exact same
  · exfalso
    have reachC : InReach start c := lt_of_lt_of_le high reach
    have bound : start + (entries start t b).length ≤ 4 := entries_bound (by omega)
    have some : 0 < (entries start s b).length := List.length_pos_of_ne_nil (entriesFrom_ne_nil (by omega))
    have before := entries_same_block (s := s) (k := (entries start t b).length - 2) (by omega) reachB reachC block.symm
      (by omega)
    obtain ⟨qs, _, _, unsplit, result⟩ := passed.inside c reachC low high
    have length : (entries start t c).length = (entries start s b).length := by
      rw [result, List.length_modify, unsplit (deep c low high), before]
    have after := entries_same_block (s := t) (k := (entries start t b).length - 2) (by omega) reachC reachB block
      (by omega)
    rw [after] at longer
    omega

/-- A granule is on the level of its block or below. -/
theorem lt_granule_iff (upper : 1 ≤ level) (lower : level ≤ 2) : level < granule first stop va ↔
    ¬ (stop % 2 ^ level2shift level = 0 ∧ first ≤ va / 2 ^ level2shift level * 2 ^ level2shift level) := by
  have sizes := shift_cases upper (show level ≤ 3 by omega)
  generalize 2 ^ level2shift level = size at sizes
  unfold granule
  rcases sizes with ⟨rfl, rfl⟩ | ⟨rfl, rfl⟩ | ⟨rfl, rfl⟩
  · split_ifs <;> omega
  · split_ifs <;> omega
  · omega

private theorem depth_le_iff (positive : entries start s a ≠ []) :
    depth start s a ≤ level ↔ start + (entries start s a).length ≤ level + 1 := by
  have some := List.length_pos_of_ne_nil positive
  unfold depth
  omega

/-- What a turn splits is what the pass has to split no more. -/
theorem splitBlocks_turn (top : start ≤ 1) (upper : 1 ≤ level) (lower : level ≤ 2) (page : first % 2 ^ 12 = 0)
    (stopPage : stop % 2 ^ 12 = 0) (more : first < stop) (reach : stop ≤ 2 ^ (level2shift start + 9))
    (aligned : first % 2 ^ level2shift (granule first stop first) = 0)
    (turned : Turned start first (granule first stop first - start) upd s t) :
    (splitBlocks (depth start s) first stop level).card =
      (splitBlocks (depth start t) (first + 2 ^ level2shift (granule first stop first)) stop level).card +
        if depth start s first ≤ level ∧ level < granule first stop first then 1 else 0 := by
  obtain ⟨upperG, lowerG⟩ := granule_bounds first stop first
  have position : start + (granule first stop first - start) = granule first stop first := by omega
  have block : ∀ b, SameBlock (granule first stop first) first b ↔
      first ≤ b ∧ b < first + 2 ^ level2shift (granule first stop first) := fun b => sameBlock_iff aligned
  have positive := Nat.two_pow_pos (level2shift (granule first stop first))
  have inReach : ∀ va, va < stop → InReach start va := fun va high => lt_of_lt_of_le high reach
  have walk : ∀ u b, entries start u b ≠ [] := fun u b => entriesFrom_ne_nil (by omega)
  -- In one block of the level there is one depth, as long as it is not below the level.
  have shared : ∀ {u : Mmu} {va}, va < stop → SameBlock level first va → depth start u va ≤ level →
      depth start u first = depth start u va := by
    intro u va high same shallow
    rw [depth_le_iff (walk u va)] at shallow
    obtain ⟨k, rfl⟩ : ∃ k, level = start + k := ⟨level - start, by omega⟩
    unfold depth
    rw [entries_same_block (by omega) (inReach va high) (inReach first more) same.symm (by omega)]
  have around : ∀ va, va < stop → first + 2 ^ level2shift (granule first stop first) ≤ va →
      Around start va (· = first) (entries start s va) (entries start t va) :=
    fun va high low => turned.outside va (inReach va high) (by rw [position, block]; omega)
  have members : ∀ x, x ∈ splitBlocks (depth start s) first stop level ↔
      (x = first / 2 ^ level2shift level ∧ depth start s first ≤ level ∧ level < granule first stop first) ∨
        x ∈ splitBlocks (depth start t) (first + 2 ^ level2shift (granule first stop first)) stop level := by
    intro x
    rw [mem_splitBlocks, mem_splitBlocks]
    constructor
    · rintro ⟨va, low, high, rfl, shallow, small⟩
      by_cases same : SameBlock level first va
      · refine .inl ⟨same.symm, by rw [shared high same shallow]; exact shallow, ?_⟩
        rw [lt_granule_iff upper lower] at small ⊢
        rwa [show first / 2 ^ level2shift level = va / 2 ^ level2shift level from same]
      · have later : first + 2 ^ level2shift (granule first stop first) ≤ va := by
          by_contra early
          rw [granule_same page stopPage low (by omega)] at small
          exact same (sameBlock_mono ((block va).mpr ⟨low, by omega⟩) small.le lowerG)
        refine .inr ⟨va, later, high, rfl, ?_, by rw [granule_next page stopPage later]; exact small⟩
        have bound : start + (entries start t va).length ≤ 4 := entries_bound (by omega)
        rw [depth_le_iff (walk _ va)] at shallow ⊢
        rcases around va high later with unchanged | ⟨_, _, _, rfl, near⟩
        · rwa [unchanged]
        · by_contra deeper
          exact same (sameBlock_mono near (by omega) (by omega))
    · rintro (⟨rfl, shallow, small⟩ | ⟨va, low, high, rfl, shallow, small⟩)
      · exact ⟨first, le_rfl, more, rfl, shallow, small⟩
      · refine ⟨va, by omega, high, rfl, ?_, by rwa [granule_next page stopPage low] at small⟩
        rw [depth_le_iff (walk _ va)] at shallow ⊢
        rcases around va high low with unchanged | ⟨_, longer, _⟩
        · rwa [← unchanged]
        · omega
  by_cases here : depth start s first ≤ level ∧ level < granule first stop first
  · have fresh : first / 2 ^ level2shift level ∉
        splitBlocks (depth start t) (first + 2 ^ level2shift (granule first stop first)) stop level := by
      intro member
      obtain ⟨va, low, high, same, shallow, _⟩ := mem_splitBlocks.mp member
      obtain ⟨qs, _, length, _, result⟩ := turned.inside first (inReach first more) rfl
      have long : (entries start t first).length = qs.length := by rw [result, List.length_modify]
      have now := shared high same.symm shallow
      have walked := List.length_pos_of_ne_nil (walk t first)
      unfold depth at now shallow
      omega
    have inserted : splitBlocks (depth start s) first stop level = insert (first / 2 ^ level2shift level)
        (splitBlocks (depth start t) (first + 2 ^ level2shift (granule first stop first)) stop level) := by
      ext x
      rw [members x, Finset.mem_insert, and_iff_left here]
    rw [inserted, Finset.card_insert_of_notMem fresh, if_pos here]
  · rw [if_neg here, Nat.add_zero]
    congr 1
    ext x
    rw [members x]
    exact or_iff_right (fun both => here both.2)

/-- The blocks above the first granule are among those of the pass. -/
theorem first_splits_le (deep : Nat → Nat) (more : first < stop) (walked : 1 ≤ deep first) :
    granule first stop first - deep first ≤ splits deep first stop := by
  have bounds := granule_bounds first stop first
  have each : ∀ level, (if deep first ≤ level ∧ level < granule first stop first then 1 else 0) ≤
      (splitBlocks deep first stop level).card := by
    intro level
    split
    · rename_i here
      exact Finset.card_pos.mpr ⟨_, mem_splitBlocks.mpr ⟨first, le_rfl, more, rfl, here⟩⟩
    · exact Nat.zero_le _
  have large := each 1
  have small := each 2
  unfold splits
  split_ifs at large small <;> omega

/-- The pages that a turn takes and the pass over the rest. -/
theorem splits_turn (top : start ≤ 1) (page : first % 2 ^ 12 = 0) (stopPage : stop % 2 ^ 12 = 0) (more : first < stop)
    (reach : stop ≤ 2 ^ (level2shift start + 9)) (aligned : first % 2 ^ level2shift (granule first stop first) = 0)
    (walked : 1 ≤ depth start s first) (turned : Turned start first (granule first stop first - start) upd s t) :
    splits (depth start s) first stop = granule first stop first - depth start s first +
      splits (depth start t) (first + 2 ^ level2shift (granule first stop first)) stop := by
  have bounds := granule_bounds first stop first
  have large := splitBlocks_turn top le_rfl (by omega) page stopPage more reach aligned turned
  have small := splitBlocks_turn top (by omega) le_rfl page stopPage more reach aligned turned
  unfold splits
  rw [large, small]
  split_ifs <;> omega

end Splits

/-- What a pass finds that is to go on from `first` to `stop`. -/
structure Ahead (memMap : List MmRegion) (first stop : Nat) (s : Mmu) : Prop where
  page : first % 2 ^ 12 = 0
  stopPage : stop % 2 ^ 12 = 0
  order : first ≤ stop
  reach : stop ≤ 2 ^ (level2shift (startLevel memMap) + 9)
  ready : ∀ b, first ≤ b → b < stop →
    Ready (startLevel memMap) (entries (startLevel memMap) s b) (granule first stop b - startLevel memMap)

section Passes
variable {memMap : List MmRegion} {first stop fuel : Nat} {other : Nat → Prop} {s t : Mmu} {upd : BitVec 64 → BitVec 64}

theorem Ahead.turn (ahead : Ahead memMap first stop s) (more : first < stop) :
    Turn memMap first (stop - first) (granule first stop first - startLevel memMap) (1 - startLevel memMap) s := by
  have top : startLevel memMap ≤ 1 := startLevel_le
  have level := granule_level memMap first stop first
  obtain ⟨upper, lower⟩ := granule_bounds first stop first
  obtain ⟨aligned, _, above⟩ := granule_here ahead.page ahead.stopPage more
  have ready := ahead.ready first le_rfl more
  refine ⟨lt_of_lt_of_le more ahead.reach, by omega, by omega, ?_, ?_, ready, ready.deep top (by omega)⟩
  · rwa [level]
  · rwa [level]

/-- The size of the first granule, and what is left behind it. -/
theorem Ahead.cut (ahead : Ahead memMap first stop s) (more : first < stop) :
    4096 ≤ 2 ^ level2shift (granule first stop first) ∧ first % 2 ^ level2shift (granule first stop first) = 0 ∧
      (first + 2 ^ level2shift (granule first stop first)) % 2 ^ 64 =
        first + 2 ^ level2shift (granule first stop first) ∧
      stop - first - 2 ^ level2shift (granule first stop first) =
        stop - (first + 2 ^ level2shift (granule first stop first)) ∧
      (stop - (first + 2 ^ level2shift (granule first stop first))) / 4096 < (stop - first) / 4096 := by
  obtain ⟨aligned, within, _⟩ := granule_here ahead.page ahead.stopPage more
  have large : 4096 ≤ 2 ^ level2shift (granule first stop first) := by
    obtain ⟨upper, lower⟩ := granule_bounds first stop first
    rcases shift_cases upper lower with ⟨_, size⟩ | ⟨_, size⟩ | ⟨_, size⟩ <;> rw [size] <;> omega
  have bound := ahead.reach.trans reach_le
  exact ⟨large, (isAligned_iff.mp aligned).1, Nat.mod_eq_of_lt (by omega), Nat.sub_sub .., by omega⟩

theorem Ahead.next (ahead : Ahead memMap first stop s) (more : first < stop)
    (turned : Turned (startLevel memMap) first (granule first stop first - startLevel memMap) upd s t) :
    Ahead memMap (first + 2 ^ level2shift (granule first stop first)) stop t := by
  have top : startLevel memMap ≤ 1 := startLevel_le
  have ⟨page, stopPage, _, reach, ready⟩ := ahead
  obtain ⟨upper, lower⟩ := granule_bounds first stop first
  obtain ⟨aligned, within, _⟩ := granule_here page stopPage more
  have positive := Nat.two_pow_pos (level2shift (granule first stop first))
  refine ⟨?_, stopPage, within, reach, fun b low high => ?_⟩
  · rcases shift_cases upper lower with ⟨_, size⟩ | ⟨_, size⟩ | ⟨_, size⟩ <;> rw [size] <;> omega
  · obtain ⟨upperB, lowerB⟩ := granule_bounds first stop b
    have outside : ¬ SameBlock (granule first stop first) first b := by
      rw [sameBlock_iff (isAligned_iff.mp aligned).1]
      omega
    rw [granule_next page stopPage low]
    rw [← granule_level memMap] at outside
    exact (turned.outside b (lt_of_lt_of_le high reach) outside).finer.ready (by omega) (ready b (by omega) high)

/-- The first turn of a pass. -/
theorem Ahead.takes (ahead : Ahead memMap first stop s) (more : first < stop) (tables : MapTables memMap other s)
    (attrs : BitVec 64) (flag : Bool) :
    Takes other (granule first stop first - depth (startLevel memMap) s first) s
      (fun r t => r = 2 ^ level2shift (granule first stop first) ∧ MapTables memMap other t ∧
        Turned (startLevel memMap) first (granule first stop first - startLevel memMap)
          (fun d => withAttrs d attrs flag) s t)
      (setGranule memMap first (stop - first) attrs flag [1, 2, 3] s) := by
  have top : startLevel memMap ≤ 1 := startLevel_le
  obtain ⟨upper, lower⟩ := granule_bounds first stop first
  have turn := ahead.turn more
  have deep := turn.deep
  have spec := setGranule_spec attrs flag tables turn
    (show _ + (granule first stop first - 1) = granule first stop first - startLevel memMap by omega)
  have pages : granule first stop first - startLevel memMap + 1 - (entries (startLevel memMap) s first).length =
      granule first stop first - depth (startLevel memMap) s first := by
    unfold depth
    omega
  rwa [pages, granule_level, show startLevel memMap + (1 - startLevel memMap) = 1 by omega] at spec

/-- A pass that can get to every granule of its range sets them all. -/
theorem setRegion_spec (attrs : BitVec 64) (flag : Bool) (tables : MapTables memMap other s)
    (ahead : Ahead memMap first stop s) (enough : (stop - first) / 4096 < fuel) :
    Takes other (splits (depth (startLevel memMap) s) first stop) s
      (fun _ t => MapTables memMap other t ∧
        Passed (startLevel memMap) first stop (fun d => withAttrs d attrs flag) s t)
      (setRegion memMap attrs flag fuel first (stop - first) s) := by
  have top : startLevel memMap ≤ 1 := startLevel_le
  induction fuel generalizing first s with
  | zero => omega
  | succ fuel ih =>
    have ⟨page, stopPage, order, reach, _⟩ := ahead
    rw [setRegion]
    by_cases done : stop - first = 0
    · have none : splits (depth (startLevel memMap) s) first stop = 0 := by
        have bound : splits (depth (startLevel memMap) s) first stop ≤ _ := splits_le page stopPage
        omega
      rw [if_pos done, none]
      exact .ret (Within.refl s) ⟨tables, fun b _ low high => by omega, fun b _ _ => .inl rfl⟩
    · rw [if_neg done]
      have more : first < stop := by omega
      obtain ⟨_, aligned, sum, rest, fewer⟩ := ahead.cut more
      have deep := (ahead.turn more).deep
      have walked : 1 ≤ depth (startLevel memMap) s first := by
        unfold depth
        omega
      have part := first_splits_le (depth (startLevel memMap) s) more walked
      rw [← Nat.add_sub_cancel' part]
      refine (ahead.takes more tables attrs flag).bind (fun r between holds => ?_)
      obtain ⟨set, after, turned⟩ := holds
      have total := splits_turn top page stopPage more reach aligned walked turned
      rw [total, Nat.add_sub_cancel_left, set, sum, rest]
      have next := ahead.next more turned
      refine (ih after next (by omega)).mono (fun _ t holds => ⟨holds.1, ?_⟩)
      exact turned_passed top page stopPage turned holds.2 next.order aligned

/-- After a pass every granule is there for the next one. -/
theorem Ahead.again (ahead : Ahead memMap first stop s) (passed : Passed (startLevel memMap) first stop upd s t) :
    Ahead memMap first stop t := by
  have top : startLevel memMap ≤ 1 := startLevel_le
  have ⟨page, stopPage, order, reach, ready⟩ := ahead
  refine ⟨page, stopPage, order, reach, fun b low high => ?_⟩
  have bounds := granule_bounds first stop b
  obtain ⟨qs, finer, length, _, result⟩ := passed.inside b (lt_of_lt_of_le high reach) low high
  have above := (finer.ready (by omega) (ready b low high)).above (by omega) le_rfl
  rw [result]
  refine .inl ⟨by rw [List.length_modify]; omega, fun d member => above d ?_⟩
  rwa [List.take_modify, List.modify_eq_self (by rw [List.length_take]; omega)] at member

end Passes

end RockOs.PageTablePasses
