import RockOs.PageTableAttributes

/-! `mmu_set_region_dcache_behaviour` on the leaves of a mapped range. The
constants of `enum dcache_option` are memory type indices that already stand in
the place of AttrIndx, and `PMD_ATTRINDX` shifts them once more. What arrives is
the index of the option for `DCACHE_OFF` alone; everything else about a leaf
stays as it was. -/
namespace RockOs.CacheOptions
open Machine PageTables PageDescriptors PageWalk PageTableSteps PageLeaves PageTableSetup PageTableChanges
open PageTableRegions PageTablePasses PageTableAttributes

/-- `enum dcache_option`. -/
inductive DcacheOption where
  | off
  | writethrough
  | writeback
  | writealloc
  deriving DecidableEq, Repr

def DcacheOption.value : DcacheOption → Nat
  | off => 0 <<< 2
  | writethrough => 3 <<< 2
  | writeback => 4 <<< 2
  | writealloc => 4 <<< 2

/-- AttrIndx of a leaf. -/
def attrIndx (d : BitVec 64) : BitVec 3 := d.extractLsb' 2 3

/-- The memory type that an option names. -/
def DcacheOption.index (option : DcacheOption) : BitVec 3 := BitVec.ofNat 3 (option.value >>> 2)

/-- The leaf `now` of `va` has this memory type and is otherwise what `old` was:
the same descriptor apart from AttrIndx, or the piece of it for `va`. -/
structure Retyped (va : Nat) (index : BitVec 3) (old now : Nat × BitVec 64) : Prop where
  index : attrIndx now.2 = index
  address : outputAddr now va = outputAddr old va
  attrs : leafAttrs now.2 &&& ~~~pmdAttrindxMask = leafAttrs old.2 &&& ~~~pmdAttrindxMask
  bits : now.1 = old.1 → now.2 &&& ~~~pmdAttrindxMask = old.2 &&& ~~~pmdAttrindxMask

section Leaves
variable {memMap : List MmRegion} {s t : Mmu} {d attrs : BitVec 64} {va first size : Nat} {leaf : Nat × BitVec 64}

private theorem withAttrs_index (d attrs : BitVec 64) : attrIndx (withAttrs d attrs false) = attrIndx attrs := by
  apply BitVec.eq_of_getLsbD_eq
  intro i inside
  rw [attrIndx, attrIndx, BitVec.getLsbD_extractLsb', BitVec.getLsbD_extractLsb', withAttrs_bit (by omega),
    changedBits_bit]
  simp [show 2 + i < 5 by omega]

private theorem withAttrs_rest (d attrs : BitVec 64) :
    withAttrs d attrs false &&& ~~~pmdAttrindxMask = d &&& ~~~pmdAttrindxMask := by
  apply BitVec.eq_of_getLsbD_eq
  intro i inside
  have mask : pmdAttrindxMask = changedBits false := rfl
  rw [BitVec.getLsbD_and, BitVec.getLsbD_and, BitVec.getLsbD_not, mask, withAttrs_bit inside]
  cases (changedBits false).getLsbD i <;> simp

private theorem withAttrs_leafAttrs (d attrs : BitVec 64) :
    leafAttrs (withAttrs d attrs false) &&& ~~~pmdAttrindxMask = leafAttrs d &&& ~~~pmdAttrindxMask := by
  have rest := withAttrs_rest d attrs
  simp only [leafAttrs, BitVec.and_assoc, BitVec.and_comm (~~~0x0000fffffffff003#64)]
  rw [← BitVec.and_assoc, rest, BitVec.and_assoc]

/-- Shifted twice, only the index of `DCACHE_OFF` is itself. -/
theorem shifted_index (option : DcacheOption) :
    attrIndx (BitVec.ofNat 64 (option.value <<< 2 % 2 ^ 32)) = option.index ↔ option = .off := by
  cases option <;> decide

/-- The leaf of an address after the call: it keeps everything but AttrIndx, which
is the one of `attrs` unless the leaf was below the entry that the call set. -/
theorem retyped_iff {other : Nat → Prop} (changes : Changes memMap other first size attrs false s t)
    (mapped : Mapped memMap s first size) (settled : AllSettled (startLevel memMap) s) (low : first ≤ va)
    (high : va < first + size) (old : leafOf memMap s va = some leaf) (index : BitVec 3) :
    (∃ now, leafOf memMap t va = some now ∧ Retyped va index leaf now) ↔
      (if leaf.1 ≤ granule first (first + size) va then attrIndx attrs else attrIndx leaf.2) = index := by
  obtain ⟨piece, address, same, above, below, new⟩ :=
    changes.leaf_after (fun set => absurd set Bool.false_ne_true) mapped settled low high old
  by_cases deep : leaf.1 ≤ granule first (first + size) va
  · rw [if_pos (above deep)] at new
    rw [if_pos deep]
    constructor
    · rintro ⟨now, found, retyped⟩
      rw [new, Option.some.injEq] at found
      rw [← retyped.index, ← found, withAttrs_index]
    · intro right
      refine ⟨_, new, ?_, ?_, ?_, fun level => ?_⟩
      · rw [withAttrs_index, right]
      · have lower := (granule_bounds first (first + size) va).2
        have page : 12 ≤ level2shift piece.1 := by
          rw [above deep, level2shift_eq lower]
          omega
        simp only [outputAddr, withAttrs_addrBits page] at address ⊢
        exact address
      · rw [withAttrs_leafAttrs, same]
      · have whole := below (by rw [← level, above deep])
        rw [withAttrs_rest, whole]
  · obtain rfl := below (by omega)
    rw [if_neg (by omega)] at new
    rw [if_neg deep]
    constructor
    · rintro ⟨now, found, retyped⟩
      rw [new, Option.some.injEq] at found
      rw [← retyped.index, found]
    · exact fun right => ⟨piece, new, right, rfl, rfl, fun _ => rfl⟩

/-- Every page of a mapped range gets the memory type of the option exactly when
each page that the call reaches is to be uncached, and each that it does not
reach has the type already. -/
theorem set_region_dcache_iff (memMap : List MmRegion) (proper : ∀ m ∈ regions memMap, Proper m) (s : Mmu)
    (reachable : Reachable memMap s) (start size : Nat) (option : DcacheOption) (page : start % 4096 = 0)
    (pages : size % 4096 = 0) (mapped : Mapped memMap s start size) :
    (mmuSetRegionDcacheBehaviour memMap start size option.value s).Ends (fun reason => reason = .insufficientRam)
      (fun _ t =>
        (∀ va, start ≤ va → va < start + size → ∀ old, leafOf memMap s va = some old →
          ∃ now, leafOf memMap t va = some now ∧ Retyped va option.index old now) ↔
        ∀ va, start ≤ va → va < start + size → ∀ old, leafOf memMap s va = some old →
          if old.1 ≤ granule start (start + size) va then option = .off else attrIndx old.2 = option.index) := by
  obtain ⟨other, tables, settled⟩ := reachable_tables proper reachable
  have builds := setRegion_changes (BitVec.ofNat 64 (option.value <<< 2 % 2 ^ 32)) false tables page pages mapped
    (show size / 4096 < size / 4096 + 3 by omega)
  unfold mmuSetRegionDcacheBehaviour
  rw [read_bind, if_neg (reachable_emergency proper reachable)]
  refine Outcome.Ends.mono (builds.builds le_rfl) (fun reason stopped => stopped.1) (fun _ t holds => ?_)
  obtain ⟨_, changes⟩ := holds
  refine forall_congr' (fun va => forall_congr' (fun low => forall_congr' (fun high => forall_congr' (fun old =>
    forall_congr' (fun found => ?_)))))
  rw [retyped_iff changes mapped settled low high found]
  split
  · exact shifted_index option
  · exact Iff.rfl

end Leaves

/-- The call on the first page of the block. -/
theorem firstPage_set (option : DcacheOption) : ∃ s t other, Reachable splitMap s ∧ Mapped splitMap s 0x40000000 0x1000 ∧
    (∀ b, InReach (startLevel splitMap) b → Settled (startLevel splitMap) (entries (startLevel splitMap) s b)) ∧
    leafOf splitMap s 0x40000000 = some (3, 0x40000413#64) ∧
    mmuSetRegionDcacheBehaviour splitMap 0x40000000 0x1000 option.value s = .ret () t ∧
    Changes splitMap other 0x40000000 0x1000 (BitVec.ofNat 64 (option.value <<< 2 % 2 ^ 32)) false s t := by
  obtain ⟨s, reachable, paired, space, mapped⟩ := splitMap_tables
  obtain ⟨other, tables, settled⟩ := reachable_tables splitMap_proper reachable
  have page : Mapped splitMap s 0x40000000 0x1000 := fun va low high => mapped va low (by omega)
  have bound : splits (depth (startLevel splitMap) s) 0x40000000 (0x40000000 + 0x1000) ≤ _ :=
    region_splits_le _ (by decide) (by decide)
  obtain ⟨_, t, returned, _, _, changes⟩ := (setRegion_changes (BitVec.ofNat 64 (option.value <<< 2 % 2 ^ 32)) false
    tables (by decide) (by decide) page (show 0x1000 / 4096 < 0x1000 / 4096 + 3 by decide)).enough
    (le_trans bound (by omega))
  refine ⟨s, t, other, reachable, page, settled, ?_, ?_, changes⟩
  · rw [leafOf_leaves paired.primary (by decide)]
    decide
  · unfold mmuSetRegionDcacheBehaviour
    rw [read_bind, if_neg (reachable_emergency splitMap_proper reachable)]
    exact returned

/-- `DCACHE_WRITEBACK` makes the page device memory. -/
theorem set_region_dcache_device : ∃ s t, Reachable splitMap s ∧ Mapped splitMap s 0x40000000 0x1000 ∧
    mmuSetRegionDcacheBehaviour splitMap 0x40000000 0x1000 DcacheOption.writeback.value s = .ret () t ∧
    ∃ old, leafOf splitMap s 0x40000000 = some old ∧
      ¬ ∃ now, leafOf splitMap t 0x40000000 = some now ∧ Retyped 0x40000000 DcacheOption.writeback.index old now := by
  obtain ⟨s, t, other, reachable, page, settled, leaf, returned, changes⟩ := firstPage_set .writeback
  refine ⟨s, t, reachable, page, returned, _, leaf, fun retyped => ?_⟩
  rw [retyped_iff changes page settled (by decide) (by decide) leaf] at retyped
  revert retyped
  decide

/-- `DCACHE_OFF` does as it says. -/
theorem set_region_dcache_off : ∃ s t, Reachable splitMap s ∧
    mmuSetRegionDcacheBehaviour splitMap 0x40000000 0x1000 DcacheOption.off.value s = .ret () t ∧
    ∃ old now, leafOf splitMap s 0x40000000 = some old ∧ leafOf splitMap t 0x40000000 = some now ∧
      Retyped 0x40000000 0#3 old now := by
  obtain ⟨s, t, other, reachable, page, settled, leaf, returned, changes⟩ := firstPage_set .off
  have exact_change := set_region_dcache_iff splitMap splitMap_proper s reachable 0x40000000 0x1000 .off (by decide)
    (by decide) page
  rw [returned, ends_ret] at exact_change
  have uncached := exact_change.mpr (fun va low high old before => ?_)
  · obtain ⟨now, found, retyped⟩ := uncached 0x40000000 (by decide) (by decide) _ leaf
    exact ⟨s, t, reachable, returned, _, now, leaf, found, retyped⟩
  · have granules : granule 0x40000000 (0x40000000 + 0x1000) va = 3 := by
      unfold granule
      rw [if_neg (by omega), if_neg (by omega)]
    rw [if_pos (granules ▸ leafOf_level before)]

end RockOs.CacheOptions
