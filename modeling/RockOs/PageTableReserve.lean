import RockOs.CacheOptions
import RockOs.PageTableBudget

/-! The first change of a region after the tables are built. The estimate leaves
four pages for later splits. The pages that the change takes depend on the
alignment of both its ends: a range that does not end on a block is set page by
page, and every block in it is split. -/
namespace RockOs.PageTableReserve
open Machine PageTables PageWalk PageTableSteps PageLeaves PageTableSetup PageTablePair PageTableRegions
open PageTablePasses PageTableAttributes PageTableEstimate PageTableBudget CacheOptions

section Fresh
variable {memMap : List MmRegion} {before s : Mmu} {start size : Nat}

/-- The walks of tables that hold leaves end on the levels of the leaves. -/
theorem depth_leaves {other : Nat → Prop} {m : Leaves} (built : Built start other m s) (reach : InReach start va) :
    depth start s va = (m va).1 := by
  obtain ⟨front, clean⟩ := built.clean va reach
  have level := clean.level
  rw [depth, clean.split, List.length_append, List.length_singleton]
  omega

/-- The call on fresh tables takes a page for each block of the map that it has to
split. -/
theorem fresh_takes (aligned : ∀ m ∈ regions memMap, PageAligned m)
    (ends : ∀ m ∈ regions memMap, m.virt + m.size ≤ 2 ^ 48) (space : TableSpace before)
    (built : setupAllPgtables memMap before = .ret () s) (option : DcacheOption) (page : start % 4096 = 0)
    (pages : size % 4096 = 0) (mapped : Mapped memMap s start size) :
    ∃ other, Takes other (splits (fun va => (mapLeaves memMap va).1) start (start + size)) s (fun _ _ => True)
      (mmuSetRegionDcacheBehaviour memMap start size option.value s) := by
  have paired := Outcome.Ends.of_ret (setupAllPgtables_spec aligned ends space) built
  have first := paired.first
  have takes := setRegion_changes (BitVec.ofNat 64 (option.value <<< 2 % 2 ^ 32)) false paired.primary.toTables page
    pages mapped (show size / 4096 < size / 4096 + 3 by omega)
  have levels : splits (depth (startLevel memMap) s) start (start + size) =
      splits (fun va => (mapLeaves memMap va).1) start (start + size) :=
    splits_congr (fun va low high => depth_leaves paired.primary (PageWalk.reach (mapped.inside low high)))
  rw [levels] at takes
  unfold mmuSetRegionDcacheBehaviour
  rw [read_bind, if_neg (Nat.ne_zero_of_lt first)]
  exact ⟨_, takes.mono (fun _ _ _ => trivial)⟩

/-- A first change of a mapped range returns and takes no more than the four pages
set aside exactly when at most four blocks of the map have to be split for it. -/
theorem first_change_fits_iff (memMap : List MmRegion) (separate : Separate memMap)
    (aligned : ∀ m ∈ regions memMap, PageAligned m) (before : Mmu) (space : TableSpace before)
    (sized : getPageTableSize memMap = some before.tlbSize) (s : Mmu)
    (built : setupAllPgtables memMap before = .ret () s) (start size : Nat) (option : DcacheOption)
    (page : start % 4096 = 0) (pages : size % 4096 = 0) (mapped : Mapped memMap s start size) :
    (∃ t, mmuSetRegionDcacheBehaviour memMap start size option.value s = .ret () t ∧
      t.tlbFillptr ≤ s.tlbFillptr + 4 * 4096) ↔
        splits (fun va => (mapLeaves memMap va).1) start (start + size) ≤ 4 := by
  obtain ⟨other, takes⟩ := fresh_takes aligned (fun m member => (separate.placed m member).ends) space built option page
    pages mapped
  obtain ⟨_, again, _, _, reserve⟩ := setupAllPgtables_budget separate space sized
  obtain rfl := (Outcome.ret.inj (built.symm.trans again)).2
  have left : 4 ≤ pagesLeft s := by
    unfold pagesLeft
    omega
  constructor
  · rintro ⟨t, returned, used⟩
    by_contra many
    by_cases enough : splits (fun va => (mapLeaves memMap va).1) start (start + size) ≤ pagesLeft s
    · obtain ⟨_, u, ran, within, spent, _⟩ := takes.enough enough
      obtain rfl := (Outcome.ret.inj (returned.symm.trans ran)).2
      unfold pagesLeft at spent
      rw [within.addr, within.size] at spent
      omega
    · obtain ⟨_, stopped⟩ := takes.short (by omega)
      rw [returned] at stopped
      cases stopped
  · intro few
    obtain ⟨_, t, ran, within, _, _⟩ := takes.enough (few.trans left)
    have used := within.used
    exact ⟨t, ran, by omega⟩

end Fresh

/-! ## A range that ends inside a block -/

/-- One block of 1 GiB. -/
def blockMap : List MmRegion :=
  [{ virt := 0x40000000, phys := 0x40000000, size := 0x40000000, attrs := 0x710#64 },
    { virt := 0, phys := 0, size := 0, attrs := 0#64 }]

/-- Six pages for tables, as the estimate asks. -/
def sixPages : Mmu := { blankMmu with tlbSize := 0x6000 }

private theorem blockMap_proper : ∀ m ∈ regions blockMap, Proper m := by
  have listed : regions blockMap = blockMap.take 1 := rfl
  rw [listed, blockMap, List.take_succ_cons, List.take_zero, List.forall_mem_singleton]
  refine ⟨?_, ?_, ?_, ?_, ?_, ?_, ?_⟩
  all_goals decide

private theorem blockMap_separate : Separate blockMap := by
  have listed : regions blockMap = blockMap.take 1 := rfl
  refine ⟨by rw [listed]; exact List.cons_ne_nil _ _, fun m member => ?_,
    by rw [listed]; exact List.pairwise_singleton _ _⟩
  rw [listed, blockMap, List.take_succ_cons, List.take_zero, List.mem_singleton] at member
  subst member
  exact ⟨by decide, by decide, by decide, by decide⟩

private theorem sixPages_space : TableSpace sixPages := ⟨by decide, by decide, by decide⟩

private theorem sixPages_sized : getPageTableSize blockMap = some sixPages.tlbSize := by decide +kernel

/-- Both sets of tables are one page, and four are left. -/
theorem blockMap_tables : ∃ s, setupAllPgtables blockMap sixPages = .ret () s ∧ pagesLeft s ≤ 4 ∧
    Mapped blockMap s 0x40000000 0x40000000 := by
  obtain ⟨s, built, addr, size, _⟩ := setupAllPgtables_budget blockMap_separate sixPages_space sixPages_sized
  have paired := Outcome.Ends.of_ret (setupAllPgtables_spec
    (fun m member => pageAligned_of_proper (blockMap_proper m member))
    (fun m member => (blockMap_proper m member).virtEnd) sixPages_space) built
  have block : { virt := 0x40000000, phys := 0x40000000, size := 0x40000000, attrs := 0x710#64 } ∈ regions blockMap :=
    List.mem_cons_self
  refine ⟨s, built, ?_, mapped_of_region blockMap_proper paired.primary block (by decide) (by decide)⟩
  have first := paired.first
  have second := paired.second
  have aligned := paired.aligned
  have filled := paired.primary.aligned
  unfold pagesLeft
  rw [addr, size]
  simp only [sixPages, blankMmu] at first ⊢
  omega

/-- 8 MiB and a page: the block and five of its pieces have to be split. -/
theorem long_range_splits : 5 < splits (fun va => (mapLeaves blockMap va).1) 0x40000000 (0x40000000 + 0x801000) := by
  have large : {1} ⊆ splitBlocks (fun va => (mapLeaves blockMap va).1) 0x40000000 (0x40000000 + 0x801000) 1 := by
    rw [Finset.singleton_subset_iff]
    exact mem_splitBlocks.mpr ⟨0x40000000, by decide +kernel⟩
  have small : {512, 513, 514, 515, 516} ⊆
      splitBlocks (fun va => (mapLeaves blockMap va).1) 0x40000000 (0x40000000 + 0x801000) 2 := by
    refine fun b member => mem_splitBlocks.mpr ⟨b * 0x200000, ?_⟩
    simp only [Finset.mem_insert, Finset.mem_singleton] at member
    rcases member with rfl | rfl | rfl | rfl | rfl
    all_goals decide +kernel
  exact lt_of_lt_of_le (by decide) (le_splits large small)

/-- The call stops for want of space. -/
theorem first_change_panics : ∃ s t, setupAllPgtables blockMap sixPages = .ret () s ∧
    Mapped blockMap s 0x40000000 0x801000 ∧
    mmuSetRegionDcacheBehaviour blockMap 0x40000000 0x801000 DcacheOption.off.value s = .panic .insufficientRam t := by
  obtain ⟨s, built, left, mapped⟩ := blockMap_tables
  have range : Mapped blockMap s 0x40000000 0x801000 := fun va low high => mapped va low (by omega)
  obtain ⟨_, takes⟩ := fresh_takes (fun m member => pageAligned_of_proper (blockMap_proper m member))
    (fun m member => (blockMap_proper m member).virtEnd) sixPages_space built .off (by decide) (by decide) range
  obtain ⟨t, stopped⟩ := takes.short (lt_of_le_of_lt left (Nat.lt_of_succ_lt long_range_splits))
  exact ⟨s, t, built, range, stopped⟩

/-- One page fits. -/
theorem first_change_fits_page : ∃ s t, setupAllPgtables blockMap sixPages = .ret () s ∧
    mmuSetRegionDcacheBehaviour blockMap 0x40000000 0x1000 DcacheOption.off.value s = .ret () t ∧
    t.tlbFillptr ≤ s.tlbFillptr + 4 * 4096 := by
  obtain ⟨s, built, _, mapped⟩ := blockMap_tables
  have range : Mapped blockMap s 0x40000000 0x1000 := fun va low high => mapped va low (by omega)
  have few : splits (fun va => (mapLeaves blockMap va).1) 0x40000000 (0x40000000 + 0x1000) ≤ 2 * (0x1000 / 4096) :=
    region_splits_le _ (by decide) (by decide)
  obtain ⟨t, returned, used⟩ := (first_change_fits_iff blockMap blockMap_separate
    (fun m member => pageAligned_of_proper (blockMap_proper m member)) sixPages sixPages_space sixPages_sized s built
    0x40000000 0x1000 .off (by decide) (by decide) range).mpr (few.trans (by decide))
  exact ⟨s, t, built, returned, used⟩

end RockOs.PageTableReserve
