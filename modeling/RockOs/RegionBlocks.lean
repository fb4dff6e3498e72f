import RockOs.PageTableSetup

/-! The blocks that `add_map` uses for one region. The level is chosen by the
virtual address and the size that are left, and the physical address goes along.
A block translates as the region says only if its physical address fits the
block, which the choice does not look at. -/
namespace RockOs.RegionBlocks
open Machine PageTables PageDescriptors PageWalk PageTableSteps PageLeaves PageTableSetup

/-- The level on which `[virt, stop)` maps `va`: the largest block that lies in
the region. -/
def blockLevel (virt stop va : Nat) : Nat :=
  if virt ≤ va / 2 ^ 30 * 2 ^ 30 ∧ va / 2 ^ 30 * 2 ^ 30 + 2 ^ 30 ≤ stop then 1
  else if virt ≤ va / 2 ^ 21 * 2 ^ 21 ∧ va / 2 ^ 21 * 2 ^ 21 + 2 ^ 21 ≤ stop then 2
  else 3

section Levels
variable {virt stop va : Nat}

private theorem blockLevel_bounds (virt stop va : Nat) : 1 ≤ blockLevel virt stop va ∧ blockLevel virt stop va ≤ 3 := by
  unfold blockLevel
  split_ifs <;> omega

/-- The three sizes, with what each says about the region. -/
theorem block_at (virt stop va : Nat) :
    blockLevel virt stop va = 1 ∧ 2 ^ level2shift (blockLevel virt stop va) = 2 ^ 30 ∧
        virt ≤ va / 2 ^ 30 * 2 ^ 30 ∧ va / 2 ^ 30 * 2 ^ 30 + 2 ^ 30 ≤ stop ∨
      ¬ (virt ≤ va / 2 ^ 30 * 2 ^ 30 ∧ va / 2 ^ 30 * 2 ^ 30 + 2 ^ 30 ≤ stop) ∧
        (blockLevel virt stop va = 2 ∧ 2 ^ level2shift (blockLevel virt stop va) = 2 ^ 21 ∧
            virt ≤ va / 2 ^ 21 * 2 ^ 21 ∧ va / 2 ^ 21 * 2 ^ 21 + 2 ^ 21 ≤ stop ∨
          blockLevel virt stop va = 3 ∧ 2 ^ level2shift (blockLevel virt stop va) = 2 ^ 12 ∧
            ¬ (virt ≤ va / 2 ^ 21 * 2 ^ 21 ∧ va / 2 ^ 21 * 2 ^ 21 + 2 ^ 21 ≤ stop)) := by
  unfold blockLevel
  by_cases large : virt ≤ va / 2 ^ 30 * 2 ^ 30 ∧ va / 2 ^ 30 * 2 ^ 30 + 2 ^ 30 ≤ stop
  · rw [if_pos large]
    exact .inl ⟨rfl, rfl, large⟩
  · rw [if_neg large]
    refine .inr ⟨large, ?_⟩
    by_cases middle : virt ≤ va / 2 ^ 21 * 2 ^ 21 ∧ va / 2 ^ 21 * 2 ^ 21 + 2 ^ 21 ≤ stop
    · rw [if_pos middle]
      exact .inl ⟨rfl, rfl, middle⟩
    · rw [if_neg middle]
      exact .inr ⟨rfl, rfl, middle⟩

/-- The loop takes the first level on which a block fits. -/
theorem blockLevel_fits (virtPage : virt % 4096 = 0) (stopPage : stop % 4096 = 0) (more : virt < stop) :
    Fits virt (stop - virt) (blockLevel virt stop virt) ∧
      ∀ level, 1 ≤ level → level < blockLevel virt stop virt → ¬ Fits virt (stop - virt) level := by
  have here := block_at virt stop virt
  unfold Fits
  constructor
  · rcases here with ⟨_, size, _⟩ | ⟨_, ⟨_, size, _⟩ | ⟨_, size, _⟩⟩ <;> rw [size] <;> omega
  · intro level upper above
    obtain rfl | rfl : level = 1 ∨ level = 2 := by omega
    · change ¬ (2 ^ 30 ≤ stop - virt ∧ virt % 2 ^ 30 = 0)
      omega
    · change ¬ (2 ^ 21 ≤ stop - virt ∧ virt % 2 ^ 21 = 0)
      omega

/-- A block is made of pages. -/
theorem blockLevel_pages (virt stop va : Nat) :
    2 ^ level2shift (blockLevel virt stop va) % 4096 = 0 ∧ 4096 ≤ 2 ^ level2shift (blockLevel virt stop va) := by
  rcases block_at virt stop va with ⟨_, size, _⟩ | ⟨_, ⟨_, size, _⟩ | ⟨_, size, _⟩⟩ <;> rw [size] <;> omega

/-- A block of the region does not start before it. -/
theorem blockLevel_start (stop : Nat) (virtPage : virt % 4096 = 0) (inside : virt ≤ va) :
    virt ≤ va / 2 ^ level2shift (blockLevel virt stop va) * 2 ^ level2shift (blockLevel virt stop va) := by
  rcases block_at virt stop va with ⟨_, size, _⟩ | ⟨_, ⟨_, size, _⟩ | ⟨_, size, _⟩⟩ <;> rw [size] <;> omega

/-- All of a block is on its level. -/
theorem blockLevel_same (virtPage : virt % 4096 = 0) (stopPage : stop % 4096 = 0) (more : virt < stop) (low : virt ≤ va)
    (high : va < virt + 2 ^ level2shift (blockLevel virt stop virt)) :
    blockLevel virt stop va = blockLevel virt stop virt := by
  have first := block_at virt stop virt
  have here := block_at virt stop va
  generalize 2 ^ level2shift (blockLevel virt stop virt) = size at first high
  omega

/-- What comes after a block is cut as before. -/
theorem blockLevel_next (virtPage : virt % 4096 = 0) (stopPage : stop % 4096 = 0) (more : virt < stop)
    (low : virt + 2 ^ level2shift (blockLevel virt stop virt) ≤ va) (high : va < stop) :
    blockLevel (virt + 2 ^ level2shift (blockLevel virt stop virt)) stop va = blockLevel virt stop va := by
  have first := block_at virt stop virt
  have here := block_at virt stop va
  generalize 2 ^ level2shift (blockLevel virt stop virt) = size at first low ⊢
  have next := block_at (virt + size) stop va
  rcases first with ⟨_, rfl, _⟩ | ⟨_, ⟨_, rfl, _⟩ | ⟨_, rfl, _⟩⟩
  · omega
  · omega
  · omega

end Levels

/-! ## The leaves of a region -/

/-- No valid descriptor, or a block or page on the boundary of its size. -/
def Whole (leaf : Nat × BitVec 64) : Prop :=
  pteType leaf.2 = pteTypeFault ∨
    1 ≤ leaf.1 ∧ leaf.2.getLsbD 0 = true ∧ leaf.2.getLsbD 1 = decide (leaf.1 = 3) ∧ Aligned leaf.1 leaf.2

section Leaf
variable {m : Leaves} {virt phys size stop level target count fuel : Nat} {attrs : BitVec 64} {leaf : Nat × BitVec 64}

private theorem finer_whole (whole : Whole leaf) (lower : leaf.1 ≤ 2) (va : Nat) : Whole (finer va leaf) := by
  unfold finer
  by_cases fault : pteType leaf.2 = pteTypeFault
  · rw [if_pos fault]
    exact .inl (show pteType 0#64 = pteTypeFault by decide)
  · obtain ⟨upper, valid, page, aligned⟩ := whole.resolve_left fault
    have block : pteType leaf.2 = pteTypeBlock :=
      type_block_iff.mpr ⟨valid, by rw [page, decide_eq_false (by omega)]⟩
    obtain ⟨validPiece, pagePiece⟩ : (splitEntry leaf.2 leaf.1 (format.index (leaf.1 + 1) va)).getLsbD 0 = true ∧ _ :=
      splitEntry_type upper lower block
    rw [if_neg fault]
    exact .inr ⟨Nat.le_add_left 1 _, validPiece, pagePiece, splitEntry_aligned upper lower aligned⟩

private theorem refine_whole (va : Nat) (lower : level ≤ 2) (b : Nat) (whole : Whole (m b)) :
    Whole (m.refine va level b) := by
  unfold Leaves.refine
  split
  · exact finer_whole whole (by omega) b
  · exact whole

private theorem refine_apart (level : Nat) (apart : ¬ SameBlock (m b).1 virt b) : m.refine virt level b = m b := by
  unfold Leaves.refine
  refine if_neg (fun shared => apart ?_)
  rw [shared.1]
  exact shared.2

/-- One block goes where it first fits. Above that the leaves around it are only
refined. -/
theorem mapLeaf_first (m : Leaves) (phys : Nat) (attrs : BitVec 64) (fits : Fits virt size target)
    (first : ∀ above, level ≤ above → above < target → ¬ Fits virt size above)
    (levels : level + count = target) (lower : target ≤ 3) :
    ∃ between : Leaves, (∀ b, Whole (m b) → Whole (between b)) ∧
      (∀ b, ¬ SameBlock (m b).1 virt b → between b = m b) ∧
      mapLeaf virt phys size attrs (levelsFrom level) m =
        (2 ^ level2shift target, between.store virt target (leafDesc target phys attrs)) := by
  induction count generalizing level m with
  | zero =>
    obtain rfl : level = target := levels
    rw [levelsFrom_cons (by omega), mapLeaf, if_pos fits]
    exact ⟨m, fun _ whole => whole, fun _ _ => rfl, rfl⟩
  | succ count ih =>
    rw [levelsFrom_cons (by omega), mapLeaf, if_neg (first level le_rfl (by omega))]
    obtain ⟨between, pieces, kept, mapped⟩ := ih (m.refine virt level) (fun above low => first above (by omega))
      (show level + 1 + count = target by omega)
    refine ⟨between, fun b whole => pieces b (refine_whole virt (by omega) b whole), fun b apart => ?_, mapped⟩
    have same := refine_apart level apart
    rw [kept b (by rw [same]; exact apart), same]

private theorem leafDesc_mod (level phys : Nat) (attrs : BitVec 64) :
    leafDesc level (phys % 2 ^ 64) attrs = leafDesc level phys attrs := by
  have same : BitVec.ofNat 64 (phys % 2 ^ 64) = BitVec.ofNat 64 phys :=
    BitVec.eq_of_toNat_eq (by rw [BitVec.toNat_ofNat, BitVec.toNat_ofNat, Nat.mod_mod])
  unfold leafDesc
  rw [same]

/-- Where the block of `va` starts, seen from `phys`. -/
def blockPhys (virt stop phys va : Nat) : Nat :=
  phys + (va / 2 ^ level2shift (blockLevel virt stop va) * 2 ^ level2shift (blockLevel virt stop va) - virt)

/-- The leaf that `[virt, stop)` gives `va`. -/
def regionLeaf (virt stop phys : Nat) (attrs : BitVec 64) (va : Nat) : Nat × BitVec 64 :=
  (blockLevel virt stop va, leafDesc (blockLevel virt stop va) (blockPhys virt stop phys va) attrs)

private theorem regionLeaf_first (phys : Nat) (attrs : BitVec 64) (virtPage : virt % 4096 = 0)
    (stopPage : stop % 4096 = 0) (more : virt < stop) (low : virt ≤ b)
    (high : b < virt + 2 ^ level2shift (blockLevel virt stop virt)) :
    regionLeaf virt stop phys attrs b = (blockLevel virt stop virt,
      leafDesc (blockLevel virt stop virt) phys attrs) := by
  obtain ⟨fits, _⟩ := blockLevel_fits virtPage stopPage more
  have same : SameBlock _ virt b := (sameBlock_iff fits.2).mpr ⟨low, high⟩
  have start : b / 2 ^ level2shift (blockLevel virt stop virt) * 2 ^ level2shift (blockLevel virt stop virt) = virt := by
    rw [← (show _ = _ from same), Nat.div_mul_cancel (Nat.dvd_of_mod_eq_zero fits.2)]
  unfold regionLeaf blockPhys
  rw [blockLevel_same virtPage stopPage more low high, start, Nat.sub_self, Nat.add_zero]

private theorem regionLeaf_next (phys : Nat) (attrs : BitVec 64) (virtPage : virt % 4096 = 0)
    (stopPage : stop % 4096 = 0) (more : virt < stop) (low : virt + 2 ^ level2shift (blockLevel virt stop virt) ≤ b)
    (high : b < stop) :
    regionLeaf (virt + 2 ^ level2shift (blockLevel virt stop virt)) stop
      ((phys + 2 ^ level2shift (blockLevel virt stop virt)) % 2 ^ 64) attrs b = regionLeaf virt stop phys attrs b := by
  have sizes := block_at virt stop virt
  have page : (virt + 2 ^ level2shift (blockLevel virt stop virt)) % 4096 = 0 := by omega
  have start := blockLevel_start stop page low
  have level := blockLevel_next virtPage stopPage more low high
  unfold regionLeaf blockPhys
  rw [level] at start ⊢
  generalize 2 ^ level2shift (blockLevel virt stop virt) = size at start ⊢
  rw [← leafDesc_mod, Nat.mod_add_mod, leafDesc_mod]
  congr 2
  omega

/-- The leaves after a region: its own blocks inside, and pieces of the old ones
outside. -/
theorem mapRegion_leaves (phys : Nat) (attrs : BitVec 64) (virtPage : virt % 4096 = 0) (stopPage : stop % 4096 = 0)
    (ordered : virt ≤ stop) (enough : (stop - virt) / 4096 < fuel) (b : Nat) :
    (virt ≤ b → b < stop → mapRegion attrs fuel virt phys (stop - virt) m b = regionLeaf virt stop phys attrs b) ∧
      (b < virt ∨ stop ≤ b → (Whole (m b) → Whole (mapRegion attrs fuel virt phys (stop - virt) m b)) ∧
        ((∀ x, virt ≤ x → x < stop → ¬ SameBlock (m b).1 x b) →
          mapRegion attrs fuel virt phys (stop - virt) m b = m b)) := by
  induction fuel generalizing virt phys m with
  | zero => omega
  | succ fuel ih =>
    rw [mapRegion]
    by_cases done : stop - virt = 0
    · rw [if_pos done]
      exact ⟨by omega, fun _ => ⟨fun whole => whole, fun _ => rfl⟩⟩
    · have more : virt < stop := by omega
      obtain ⟨fits, first⟩ := blockLevel_fits virtPage stopPage more
      obtain ⟨upper, lower⟩ := blockLevel_bounds virt stop virt
      obtain ⟨between, pieces, kept, mapped⟩ := mapLeaf_first (m.refine virt 0) phys attrs fits first
        (show 1 + (blockLevel virt stop virt - 1) = _ by omega) lower
      rw [if_neg done, mapped]
      have here := fun low high => regionLeaf_first (b := b) phys attrs virtPage stopPage more low high
      have next := fun low high => regionLeaf_next (b := b) phys attrs virtPage stopPage more low high
      have block : ∀ x, SameBlock _ virt x ↔ virt ≤ x ∧ x < virt + _ := fun x => sameBlock_iff fits.2
      have pages := blockLevel_pages virt stop virt
      have small := fits.1
      generalize 2 ^ level2shift (blockLevel virt stop virt) = size at here next block pages small ⊢
      generalize blockLevel virt stop virt = level at here next block pages ⊢
      simp only
      rw [show stop - virt - size = stop - (virt + size) by omega]
      obtain ⟨inside, outside⟩ := @ih (between.store virt level (leafDesc level phys attrs)) (virt + size)
        ((phys + size) % 2 ^ 64) (by omega) (by omega) (by omega)
      constructor
      · intro low high
        by_cases now : b < virt + size
        · -- later blocks do not share the entry of this one
          have stored : between.store virt level (leafDesc level phys attrs) b = (level, leafDesc level phys attrs) :=
            if_pos ((block b).mpr ⟨low, now⟩)
          rw [here low now, (outside (.inl now)).2, stored]
          intro x later _ shared
          rw [stored] at shared
          have early := (block x).mp (((block b).mpr ⟨low, now⟩).trans shared.symm)
          omega
        · rw [inside (by omega) high, next (by omega) high]
      · intro away
        have stored : between.store virt level (leafDesc level phys attrs) b = between b :=
          if_neg (fun shared => by have near := (block b).mp shared; omega)
        obtain ⟨cut, same⟩ := outside (by omega)
        rw [stored] at cut same
        refine ⟨fun whole => cut (pieces b (refine_whole virt (by omega) b whole)), fun apart => ?_⟩
        have unopened := refine_apart 0 (apart virt le_rfl more)
        have unchanged : between b = m b := by
          rw [kept b (by rw [unopened]; exact apart virt le_rfl more), unopened]
        rw [unchanged] at same
        exact same (fun x low => apart x (by omega))

end Leaf

/-! ## Where a region is mapped -/

/-- The region holds a whole block of `size` bytes. -/
def HoldsBlock (map : MmRegion) (size : Nat) : Prop :=
  (map.virt + size - 1) / size * size + size ≤ map.virt + map.size

/-- Both addresses are within their space, and agree modulo every block that the
region holds. -/
def Fitting (memMap : List MmRegion) (map : MmRegion) : Prop :=
  map.size = 0 ∨ map.virt + map.size ≤ 2 ^ (getTcr memMap 0).vaBits ∧ map.phys + map.size ≤ 2 ^ 48 ∧
    (HoldsBlock map (2 ^ 30) → map.virt % 2 ^ 30 = map.phys % 2 ^ 30) ∧
    (HoldsBlock map (2 ^ 21) → map.virt % 2 ^ 21 = map.phys % 2 ^ 21)

section Region
variable {virt phys stop va : Nat} {attrs : BitVec 64}

private theorem regionLeaf_output (stop phys : Nat) (clear : Clear attrs) (virtPage : virt % 4096 = 0)
    (low : virt ≤ va) :
    outputAddr (regionLeaf virt stop phys (regionAttrs attrs) va) va = phys + (va - virt) ↔
      blockPhys virt stop phys va < 2 ^ 48 ∧
        blockPhys virt stop phys va % 2 ^ level2shift (blockLevel virt stop va) = 0 := by
  obtain ⟨_, lower⟩ := blockLevel_bounds virt stop va
  have start := blockLevel_start stop virtPage low
  have whole : va / 2 ^ level2shift (blockLevel virt stop va) * 2 ^ level2shift (blockLevel virt stop va) +
      va % 2 ^ level2shift (blockLevel virt stop va) = va := Nat.div_add_mod' va _
  have target : phys + (va - virt) = blockPhys virt stop phys va + va % 2 ^ level2shift (blockLevel virt stop va) := by
    unfold blockPhys
    omega
  simp only [target, outputAddr, regionLeaf]
  rw [leafDesc_address clear lower, Nat.add_right_cancel_iff]
  generalize blockPhys virt stop phys va = block
  generalize 2 ^ level2shift (blockLevel virt stop va) = size
  constructor
  · intro same
    have bound : block % 2 ^ 48 / size * size ≤ block % 2 ^ 48 := Nat.div_mul_le_self _ _
    rw [same] at bound
    refine ⟨by omega, ?_⟩
    rw [← same, Nat.mul_mod_left]
  · rintro ⟨fits, aligned⟩
    rw [Nat.mod_eq_of_lt fits, Nat.div_mul_cancel (Nat.dvd_of_mod_eq_zero aligned)]

/-- All blocks are where the level can put them, in terms of the region. -/
theorem blocks_fit_iff {map : MmRegion} (virtPage : map.virt % 4096 = 0) (physPage : map.phys % 4096 = 0)
    (sizePage : map.size % 4096 = 0) (nonempty : map.size ≠ 0) :
    (∀ va, map.virt ≤ va → va < map.virt + map.size →
      blockPhys map.virt (map.virt + map.size) map.phys va < 2 ^ 48 ∧
        blockPhys map.virt (map.virt + map.size) map.phys va %
          2 ^ level2shift (blockLevel map.virt (map.virt + map.size) va) = 0) ↔
      map.phys + map.size ≤ 2 ^ 48 ∧ (HoldsBlock map (2 ^ 30) → map.virt % 2 ^ 30 = map.phys % 2 ^ 30) ∧
        (HoldsBlock map (2 ^ 21) → map.virt % 2 ^ 21 = map.phys % 2 ^ 21) := by
  obtain ⟨virt, phys, size, _⟩ := map
  simp only [HoldsBlock] at *
  constructor
  · -- the last address bounds the region, and a block of each size is tried at its first address
    intro fit
    have fits : ∀ va bytes, virt ≤ va → va < virt + size →
        2 ^ level2shift (blockLevel virt (virt + size) va) = bytes →
        phys + (va / bytes * bytes - virt) < 2 ^ 48 ∧ (phys + (va / bytes * bytes - virt)) % bytes = 0 := by
      rintro va bytes low high rfl
      exact fit va low high
    refine ⟨?_, fun holds => ?_, fun holds => ?_⟩
    · have last := fits (virt + size - 1)
      rcases block_at virt (virt + size) (virt + size - 1) with ⟨_, bytes, _⟩ | ⟨_, ⟨_, bytes, _⟩ | ⟨_, bytes, _⟩⟩ <;>
        have fit := last _ (by omega) (by omega) bytes <;> omega
    · have first := fits ((virt + 2 ^ 30 - 1) / 2 ^ 30 * 2 ^ 30)
      rcases block_at virt (virt + size) ((virt + 2 ^ 30 - 1) / 2 ^ 30 * 2 ^ 30) with ⟨_, bytes, _⟩ | ⟨small, _⟩
      · have fit := first _ (by omega) (by omega) bytes
        omega
      · omega
    · have first := fits ((virt + 2 ^ 21 - 1) / 2 ^ 21 * 2 ^ 21)
      rcases block_at virt (virt + size) ((virt + 2 ^ 21 - 1) / 2 ^ 21 * 2 ^ 21) with
        ⟨_, bytes, _⟩ | ⟨_, ⟨_, bytes, _⟩ | ⟨_, _, small⟩⟩
      · have fit := first _ (by omega) (by omega) bytes
        omega
      · have fit := first _ (by omega) (by omega) bytes
        omega
      · omega
  · rintro ⟨high, large, middle⟩ va low inside
    have block := block_at virt (virt + size) va
    unfold blockPhys
    generalize 2 ^ level2shift (blockLevel virt (virt + size) va) = bytes at block ⊢
    rcases block with ⟨_, rfl, _⟩ | ⟨_, ⟨_, rfl, _⟩ | ⟨_, rfl, _⟩⟩ <;> omega

/-- The blocks of `add_map` are aligned, and so are the pieces that it cuts from
aligned blocks around the region. Every address of the region goes where the
region says. -/
structure BlocksAligned (memMap : List MmRegion) (map : MmRegion) (s t : Mmu) : Prop where
  aligned : ∀ va leaf, leafOf memMap t va = some leaf →
    (covers map va = false → ∀ old, leafOf memMap s va = some old → Aligned old.1 old.2) → Aligned leaf.1 leaf.2
  translates : ∀ va, covers map va = true →
    ∃ leaf, leafOf memMap t va = some leaf ∧ outputAddr leaf va = map.phys + (va - map.virt)

section Region
variable {memMap : List MmRegion} {map : MmRegion} {other : Nat → Prop} {m : Leaves} {s t : Mmu}

private theorem regionLeaf_shape (virtPage : map.virt % 4096 = 0) (physPage : map.phys % 4096 = 0)
    (clear : Clear map.attrs) (va : Nat) :
    decode (regionLeaf map.virt (map.virt + map.size) map.phys (regionAttrs map.attrs) va).1
        [(regionLeaf map.virt (map.virt + map.size) map.phys (regionAttrs map.attrs) va).2] =
      some (regionLeaf map.virt (map.virt + map.size) map.phys (regionAttrs map.attrs) va) := by
  obtain ⟨upper, lower⟩ := blockLevel_bounds map.virt (map.virt + map.size) va
  have page : blockPhys map.virt (map.virt + map.size) map.phys va % 4096 = 0 := by
    have block := block_at map.virt (map.virt + map.size) va
    unfold blockPhys
    generalize 2 ^ level2shift (blockLevel map.virt (map.virt + map.size) va) = bytes at block ⊢
    rcases block with ⟨_, rfl, _⟩ | ⟨_, ⟨_, rfl, _⟩ | ⟨_, rfl, _⟩⟩ <;> omega
  obtain ⟨shape, _⟩ := leafDesc_shape (clear.bit (by omega)) page upper
  unfold regionLeaf
  rcases shape with fault | ⟨_, valid, last⟩
  · rw [type_fault_iff, leafDesc_valid] at fault
    cases fault.1
  · exact decode_leaf upper valid last

/-- The walks after `add_map` in the region and around it. -/
theorem addMap_leaves (built : Built (startLevel memMap) other m s) (virtPage : map.virt % 4096 = 0)
    (physPage : map.phys % 4096 = 0) (sizePage : map.size % 4096 = 0) (clear : Clear map.attrs)
    (space : map.virt + map.size ≤ 2 ^ (getTcr memMap 0).vaBits) (ran : addMap memMap map s = .ret () t)
    (va : Nat) (inside : va < 2 ^ (getTcr memMap 0).vaBits) :
    (covers map va = true →
      leafOf memMap t va = some (regionLeaf map.virt (map.virt + map.size) map.phys (regionAttrs map.attrs) va)) ∧
    (covers map va = false → (∀ old, leafOf memMap s va = some old → Aligned old.1 old.2) →
      ∀ leaf, leafOf memMap t va = some leaf → Aligned leaf.1 leaf.2) := by
  have wide : 2 ^ (getTcr memMap 0).vaBits ≤ 2 ^ (level2shift (startLevel memMap) + 9) :=
    Nat.pow_le_pow_right (by decide) vaBits_le
  have after := (Outcome.Ends.of_ret (addMapLoop_spec built (clear.bit (by omega)) virtPage physPage sizePage
    (by omega) (show map.size / 4096 < map.size / 4096 + 3 by omega)) ran).2
  have leaves := fun phys attrs => mapRegion_leaves (m := m) phys attrs virtPage
    (show (map.virt + map.size) % 4096 = 0 by omega) (Nat.le_add_right _ _)
    (show (map.virt + map.size - map.virt) / 4096 < map.size / 4096 + 3 by omega) va
  obtain ⟨here, away⟩ := leaves map.phys (regionAttrs map.attrs)
  rw [Nat.add_sub_cancel_left] at here away
  rw [leafOf_leaves after inside, leafOf_leaves built inside]
  unfold covers
  constructor
  · intro covered
    obtain ⟨low, high⟩ := of_decide_eq_true covered
    rw [here low high]
    exact regionLeaf_shape virtPage physPage clear va
  · intro outside old leaf found
    obtain ⟨front, clean⟩ := built.clean va (PageWalk.reach inside)
    have whole : Whole (m va) := by
      rcases clean.shape with fault | ⟨upper, valid, page⟩
      · exact .inl fault
      · exact .inr ⟨upper, valid, page, old _ (decode_leaf upper valid page)⟩
    obtain ⟨rfl, valid⟩ := decode_some found
    rcases (away (by have := of_decide_eq_false outside; omega)).1 whole with fault | ⟨_, _, _, aligned⟩
    · rw [(type_fault_iff.mp fault).1] at valid
      cases valid
    · exact aligned

end Region

theorem add_map_blocks_iff (memMap : List MmRegion) (map : MmRegion) (other : Nat → Prop) (m : Leaves) (s t : Mmu)
    (built : Built (startLevel memMap) other m s) (virtPage : map.virt % 4096 = 0) (physPage : map.phys % 4096 = 0)
    (sizePage : map.size % 4096 = 0) (clear : Clear map.attrs) (ran : addMap memMap map s = .ret () t) :
    BlocksAligned memMap map s t ↔ Fitting memMap map := by
  have covered : ∀ va, covers map va = true ↔ map.virt ≤ va ∧ va < map.virt + map.size := fun va => decide_eq_true_iff
  by_cases none : map.size = 0
  · obtain rfl : s = t := by
      unfold addMap at ran
      rw [none, addMapLoop, if_pos rfl] at ran
      cases ran
      rfl
    have uncovered : ∀ va, covers map va = false := fun va => decide_eq_false (by omega)
    refine iff_of_true ⟨fun va leaf found old => old (uncovered va) leaf found, fun va region => ?_⟩ (.inl none)
    rw [uncovered va] at region
    cases region
  · have output := fun va (low : map.virt ≤ va) => regionLeaf_output (map.virt + map.size) map.phys clear virtPage low
    rw [Fitting, or_iff_right none]
    constructor
    · rintro ⟨_, translates⟩
      have space : map.virt + map.size ≤ 2 ^ (getTcr memMap 0).vaBits := by
        obtain ⟨leaf, found, _⟩ := translates (map.virt + map.size - 1) ((covered _).mpr (by omega))
        have inside := inside_of_leaf found
        omega
      refine ⟨space, (blocks_fit_iff virtPage physPage sizePage none).mp (fun va low high => ?_)⟩
      obtain ⟨leaf, found, address⟩ := translates va ((covered va).mpr ⟨low, high⟩)
      have placed := (addMap_leaves built virtPage physPage sizePage clear space ran va (by omega)).1
        ((covered va).mpr ⟨low, high⟩)
      rw [found, Option.some.injEq] at placed
      rw [placed] at address
      exact (output va low).mp address
    · rintro ⟨space, fits⟩
      have fit := (blocks_fit_iff virtPage physPage sizePage none).mpr fits
      constructor
      · intro va leaf found old
        obtain ⟨here, away⟩ :=
          addMap_leaves built virtPage physPage sizePage clear space ran va (inside_of_leaf found)
        by_cases region : covers map va = true
        · obtain ⟨low, high⟩ := (covered va).mp region
          rw [here region, Option.some.injEq] at found
          rw [← found]
          exact leafDesc_aligned clear (blockLevel_bounds _ _ _).2 (fit va low high).2
        · rw [Bool.not_eq_true] at region
          exact away region (old region) leaf found
      · intro va region
        obtain ⟨low, high⟩ := (covered va).mp region
        exact ⟨_, (addMap_leaves built virtPage physPage sizePage clear space ran va (by omega)).1 region,
          (output va low).mpr (fit va low high)⟩

end Region

/-- 2 MiB at a physical address between two blocks. -/
def skewed : MmRegion := { virt := 0x40000000, phys := 0x80100000, size := 0x200000, attrs := 0x710#64 }

/-- 2 MiB from block to block. -/
def straight : MmRegion := { skewed with phys := 0x80000000 }

/-- A map of the skewed region. -/
def skewedMap : List MmRegion := [skewed, { virt := 0, phys := 0, size := 0, attrs := 0#64 }]

/-- One table without entries, and space for many. -/
def rootOnly : Mmu := { blankMmu with tlbSize := 0x1000000, tlbFillptr := 0x11000 }

private theorem rootOnly_built : Built (startLevel skewedMap) (· < 0x10000) (fun _ => (startLevel skewedMap, 0#64))
    rootOnly := by
  have reserved : Reserved { blankMmu with tlbSize := 0x1000000 } := ⟨⟨by decide, by decide, by decide⟩, rfl⟩
  have created := createTable_ret (s := { blankMmu with tlbSize := 0x1000000 })
    ⟨by decide, by decide, by decide, by decide⟩ (by decide)
  have clear : clearTable (fun _ => 0#64) 0x10000 = fun _ => 0#64 := funext (fun _ => ite_self 0#64)
  have built := (Outcome.Ends.of_ret (createTable_built reserved (startLevel skewedMap) startLevel_le) created).2
  change Built _ _ _ { blankMmu with
    tlbSize := 0x1000000, tlbFillptr := 0x11000, mem := clearTable (fun _ => 0#64) 0x10000 } at built
  rw [clear] at built
  exact built

private theorem rootOnly_returns (phys : Nat) (page : phys % 4096 = 0) :
    ∃ t, addMap skewedMap { skewed with phys := phys } rootOnly = .ret () t := by
  have builds := addMapLoop_spec rootOnly_built (show NoTable skewed.attrs from rfl)
    (show skewed.virt % 4096 = 0 by decide)
    page (show skewed.size % 4096 = 0 by decide) (by decide) (show _ < skewed.size / 4096 + 3 by decide)
  obtain ⟨_, t, returned, _⟩ := builds.returns (by decide)
  exact ⟨t, returned⟩

theorem add_map_straight : ∃ t, addMap skewedMap straight rootOnly = .ret () t ∧
    BlocksAligned skewedMap straight rootOnly t := by
  obtain ⟨t, returned⟩ := rootOnly_returns 0x80000000 (by decide)
  exact ⟨t, returned, (add_map_blocks_iff skewedMap straight _ _ rootOnly t rootOnly_built (by decide) (by decide)
    (by decide) (by decide) returned).mpr (.inr ⟨by decide, by decide, fun _ => by decide, fun _ => by decide⟩)⟩

theorem add_map_skewed : ∃ t, addMap skewedMap skewed rootOnly = .ret () t ∧
    leafOf skewedMap t 0x40000000 = some (2, 0x80100711#64) ∧ outputAddr (2, 0x80100711#64) 0x40000000 = 0x80000000 ∧
    ¬ BlocksAligned skewedMap skewed rootOnly t := by
  obtain ⟨t, returned⟩ := rootOnly_returns 0x80100000 (by decide)
  have found := (addMap_leaves rootOnly_built (by decide) (by decide) (by decide) (by decide) (by decide) returned
    0x40000000 (by decide)).1 (by decide)
  refine ⟨t, returned, found, by decide, fun placed => ?_⟩
  obtain ⟨leaf, same, address⟩ := placed.translates 0x40000000 (by decide)
  obtain rfl := Option.some.inj (found.symm.trans same)
  revert address
  decide

end RockOs.RegionBlocks
