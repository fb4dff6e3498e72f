import RockOs.PageWalk

/-! The purpose of the tables, without the tables: every address has a leaf on
some level. Building the tables refines leaves and stores new ones, and that
can be said on the leaves alone. Here a region is mapped on leaves, and for the
regions a board may list the result is what the regions say. -/
namespace RockOs.PageLeaves
open PageTables PageDescriptors PageWalk RadixTable

/-- For each address the level and the descriptor of its leaf. -/
abbrev Leaves := Nat → Nat × BitVec 64

/-- The addresses share an entry of the level. -/
def SameBlock (level a b : Nat) : Prop := a / 2 ^ level2shift level = b / 2 ^ level2shift level

instance (level a b : Nat) : Decidable (SameBlock level a b) := inferInstanceAs (Decidable (_ = _))

/-- The leaf of `va` once its leaf is replaced by a table: nothing stays
nothing, and a block is cut into pieces. -/
def finer (va : Nat) (leaf : Nat × BitVec 64) : Nat × BitVec 64 :=
  (leaf.1 + 1,
    if pteType leaf.2 = pteTypeFault then 0#64
    else splitEntry leaf.2 leaf.1 (format.index (leaf.1 + 1) va))

/-- Make room below the entry of a level that `va` shares. -/
def Leaves.refine (m : Leaves) (va level : Nat) : Leaves := fun b =>
  if (m b).1 = level ∧ SameBlock level va b then finer b (m b) else m b

/-- Store a descriptor in the entry of a level. -/
def Leaves.store (m : Leaves) (va level : Nat) (d : BitVec 64) : Leaves := fun b =>
  if SameBlock level va b then (level, d) else m b

/-- The block or page fits at `virt` on this level. -/
def Fits (virt size level : Nat) : Prop := 2 ^ level2shift level ≤ size ∧ virt % 2 ^ level2shift level = 0

instance (virt size level : Nat) : Decidable (Fits virt size level) := inferInstanceAs (Decidable (_ ∧ _))

/-- One block or page of a region; its size, and the leaves with it. -/
def mapLeaf (virt phys size : Nat) (attrs : BitVec 64) : List Nat → Leaves → Nat × Leaves
  | [], m => (0, m)
  | level :: levels, m =>
    if Fits virt size level then (2 ^ level2shift level, m.store virt level (leafDesc level phys attrs))
    else mapLeaf virt phys size attrs levels (m.refine virt level)

/-- A region, block after block. -/
def mapRegion (attrs : BitVec 64) : (fuel virt phys size : Nat) → Leaves → Leaves
  | 0, _, _, _, m => m
  | fuel + 1, virt, phys, size, m =>
    if size = 0 then m
    else
      let mapped := mapLeaf virt phys size attrs (levelsFrom 1) (m.refine virt 0)
      mapRegion attrs fuel (virt + mapped.1) ((phys + mapped.1) % 2 ^ 64) (size - mapped.1) mapped.2

/-- The regions in the order of the list. -/
def mapRegions : List MmRegion → Leaves → Leaves
  | [], m => m
  | map :: maps, m =>
    mapRegions maps (mapRegion (regionAttrs map.attrs) (map.size / 4096 + 3) map.virt map.phys map.size m)

/-! ## What leaves say -/

section Meaning
variable {level va : Nat} {d : BitVec 64}

/-- What the leaf of an address says about it. -/
def Leaves.view (m : Leaves) (va : Nat) : Option (Nat × BitVec 64) := meaning (m va).1 [(m va).2] va

theorem meaning_fault (fault : pteType d = pteTypeFault) : meaning level [d] va = none := by
  rw [meaning, decode, if_neg (fun valid => ?_)]
  · rfl
  · rw [(type_fault_iff.mp fault).1] at valid
    cases valid.1

/-- A valid block or page ends the walk. -/
theorem decode_leaf (upper : 1 ≤ level) (valid : d.getLsbD 0 = true)
    (page : d.getLsbD 1 = decide (level = 3)) : decode level [d] = some (level, d) := by
  rw [decode, if_pos ⟨valid, fun last => by rw [page, decide_eq_true last], by omega⟩]

theorem decode_some (found : decode level [d] = some leaf) :
    leaf = (level, d) ∧ d.getLsbD 0 = true := by
  rw [decode] at found
  split at found
  · rename_i valid
    cases found
    exact ⟨rfl, valid.1⟩
  · cases found

private theorem meaning_leaf (upper : 1 ≤ level) (valid : d.getLsbD 0 = true) (page : d.getLsbD 1 = decide (level = 3)) :
    meaning level [d] va = some (addrBits (level2shift level) d + va % 2 ^ level2shift level, leafAttrs d) := by
  rw [meaning, decode_leaf upper valid page]
  rfl

/-- The piece of an address translates it as the block does. -/
theorem splitEntry_outputAddr (upper : 1 ≤ level) (lower : level ≤ 2) (aligned : Aligned level d) (va : Nat) :
    outputAddr (level + 1, splitEntry d level (format.index (level + 1) va)) va = outputAddr (level, d) va := by
  have slot := format.index_lt (level + 1) va
  rw [outputAddr, outputAddr, splitEntry_addrBits upper lower slot aligned, index_eq,
    show level2shift level = level2shift (level + 1 : Nat) + 9 from shift_succ (by omega), Nat.pow_add, Nat.mod_mul]
  generalize 2 ^ level2shift (level + 1 : Nat) = size
  rw [Nat.add_assoc, Nat.add_comm (va % size), Nat.mul_comm size]

/-- Splitting a block says the same with a finer leaf. -/
theorem meaning_split (upper : 1 ≤ level) (lower : level ≤ 2) (block : pteType d = pteTypeBlock)
    (aligned : Aligned level d) (va : Nat) :
    meaning (level + 1) [splitEntry d level (format.index (level + 1) va)] va = meaning level [d] va := by
  have slot := format.index_lt (level + 1) va
  obtain ⟨valid, leaf⟩ := type_block_iff.mp block
  obtain ⟨validPiece, leafPiece⟩ : (splitEntry d level (format.index (level + 1) va)).getLsbD 0 = true ∧ _ :=
    splitEntry_type upper lower block
  rw [meaning_leaf (by omega) validPiece leafPiece,
    meaning_leaf upper valid (by rw [leaf, decide_eq_false (by omega)]), splitEntry_attrs upper lower slot]
  exact congrArg (fun address => some (address, leafAttrs d)) (splitEntry_outputAddr upper lower aligned va)

end Meaning

/-! ## Leaves that are where their level can put them -/

/-- A leaf is nothing, or a valid block or page with an address that its level
can hold. -/
def Sound (leaf : Nat × BitVec 64) : Prop :=
  leaf.2 = 0#64 ∨
    1 ≤ leaf.1 ∧ leaf.1 ≤ 3 ∧ leaf.2.getLsbD 0 = true ∧ leaf.2.getLsbD 1 = decide (leaf.1 = 3) ∧ Aligned leaf.1 leaf.2

section Mapping
variable {m : Leaves} {virt phys size va level count fuel : Nat} {attrs : BitVec 64} {leaf : Nat × BitVec 64}

theorem Sound.block (sound : Sound leaf) (lower : leaf.1 ≤ 2) (valid : pteType leaf.2 ≠ pteTypeFault) :
    1 ≤ leaf.1 ∧ pteType leaf.2 = pteTypeBlock ∧ Aligned leaf.1 leaf.2 := by
  obtain ⟨upper, _, valid, page, aligned⟩ := sound.resolve_left (fun zero => valid (by rw [zero]; decide))
  exact ⟨upper, type_block_iff.mpr ⟨valid, by rw [page, decide_eq_false (by omega)]⟩, aligned⟩

/-- A finer leaf says the same. -/
theorem finer_sound (sound : Sound leaf) (lower : leaf.1 ≤ 2) (va : Nat) :
    Sound (finer va leaf) ∧ meaning (finer va leaf).1 [(finer va leaf).2] va = meaning leaf.1 [leaf.2] va := by
  unfold finer
  by_cases fault : pteType leaf.2 = pteTypeFault
  · simp only [fault, ↓reduceIte]
    exact ⟨.inl rfl, by rw [meaning_fault (by decide), meaning_fault fault]⟩
  · obtain ⟨upper, block, aligned⟩ := sound.block lower fault
    simp only [fault, ↓reduceIte]
    have type : (splitEntry leaf.2 leaf.1 (format.index (leaf.1 + 1) va)).getLsbD 0 = true ∧ _ :=
      splitEntry_type upper lower block
    exact ⟨.inr ⟨by simp, by simp only; omega, type.1, type.2, splitEntry_aligned upper lower aligned⟩,
      meaning_split upper lower block aligned va⟩

private theorem refine_sound (sound : ∀ b, Sound (m b)) (lower : level ≤ 2) :
    (∀ b, Sound (m.refine va level b)) ∧ ∀ b, (m.refine va level).view b = m.view b := by
  have here : ∀ b, Sound (m.refine va level b) ∧ (m.refine va level).view b = m.view b := by
    intro b
    unfold Leaves.view Leaves.refine
    by_cases refined : (m b).1 = level ∧ SameBlock level va b
    · rw [if_pos refined]
      exact finer_sound (sound b) (by omega) b
    · rw [if_neg refined]
      exact ⟨sound b, rfl⟩
  exact ⟨fun b => (here b).1, fun b => (here b).2⟩

/-- The block of an aligned address. -/
theorem sameBlock_iff (first : va % 2 ^ level2shift level = 0) :
    SameBlock level va b ↔ va ≤ b ∧ b < va + 2 ^ level2shift level := by
  have positive := Nat.two_pow_pos (level2shift level)
  unfold SameBlock
  generalize 2 ^ level2shift level = size at first positive
  have whole : va / size * size = va := Nat.div_mul_cancel (Nat.dvd_of_mod_eq_zero first)
  rw [eq_comm, Nat.div_eq_iff positive, whole]
  omega

/-- The leaves map `size` bytes from `virt` to `phys`, and are otherwise the
ones of `m`. -/
def Maps (virt phys size : Nat) (attrs : BitVec 64) (m after : Leaves) : Prop :=
  ∀ b, after.view b =
    if virt ≤ b ∧ b < virt + size then some (phys + (b - virt), attrs ||| pteBlockAf) else m.view b

private theorem store_sound (sound : ∀ b, Sound (m b)) (clear : Clear attrs) (upper : 1 ≤ level) (lower : level ≤ 3)
    (aligned : phys % 2 ^ level2shift level = 0) (fits : phys < 2 ^ 48) (first : virt % 2 ^ level2shift level = 0) :
    (∀ b, Sound (m.store virt level (leafDesc level phys (regionAttrs attrs)) b)) ∧
      Maps virt phys (2 ^ level2shift level) attrs m (m.store virt level (leafDesc level phys (regionAttrs attrs))) := by
  have page := leafDesc_page clear lower aligned
  constructor
  · intro b
    unfold Leaves.store
    split
    · exact .inr ⟨upper, lower, leafDesc_valid, page, leafDesc_aligned clear lower aligned⟩
    · exact sound b
  · intro b
    unfold Leaves.view Leaves.store
    by_cases inside : virt ≤ b ∧ b < virt + 2 ^ level2shift level
    · rw [if_pos inside, if_pos ((sameBlock_iff first).mpr inside), meaning_leaf upper leafDesc_valid page,
        leafDesc_addrBits clear lower aligned fits, leafDesc_attrs clear lower aligned fits]
      have offset : b % 2 ^ level2shift level = b - virt := by
        generalize 2 ^ level2shift level = size at first inside
        obtain ⟨j, rfl⟩ : ∃ j, b = virt + j := ⟨b - virt, by omega⟩
        rw [Nat.add_mod, first, Nat.zero_add, Nat.mod_mod, Nat.mod_eq_of_lt (by omega)]
        omega
      rw [offset]
    · rw [if_neg inside, if_neg (fun same => inside ((sameBlock_iff first).mp same))]

/-- What is left to map of a region. -/
structure Piece (virt phys size : Nat) : Prop where
  virtAligned : virt % 4096 = 0
  sizeAligned : size % 4096 = 0
  congruent : virt % 2 ^ 30 = phys % 2 ^ 30
  physEnd : phys + size ≤ 2 ^ 48

theorem Piece.rest {blocksize : Nat} (piece : Piece virt phys size) (small : blocksize ≤ size)
    (pages : blocksize % 4096 = 0) : Piece (virt + blocksize) (phys + blocksize) (size - blocksize) := by
  obtain ⟨virtAligned, sizeAligned, congruent, physEnd⟩ := piece
  exact ⟨by omega, by omega, by omega, by omega⟩

/-- The size that is mapped from `level` on, at a page aligned address. -/
theorem mapLeaf_size (phys : Nat) (attrs : BitVec 64) (m : Leaves) (virtAligned : virt % 4096 = 0)
    (sizeAligned : size % 4096 = 0) (nonempty : 0 < size) (levels : level + count = 3) :
    4096 ≤ (mapLeaf virt phys size attrs (levelsFrom level) m).1 ∧
      (mapLeaf virt phys size attrs (levelsFrom level) m).1 ≤ size ∧
      (mapLeaf virt phys size attrs (levelsFrom level) m).1 % 4096 = 0 := by
  have fit : ∀ {level}, level ≤ 3 → Fits virt size level →
      4096 ≤ 2 ^ level2shift level ∧ 2 ^ level2shift level ≤ size ∧ 2 ^ level2shift level % 4096 = 0 := by
    intro level lower fits
    have pages : 2 ^ 12 ∣ 2 ^ level2shift level := Nat.pow_dvd_pow 2 (by rw [level2shift_eq lower]; omega)
    exact ⟨Nat.le_of_dvd (Nat.two_pow_pos _) pages, fits.1, Nat.mod_eq_zero_of_dvd pages⟩
  induction count generalizing level m with
  | zero =>
    obtain rfl : level = 3 := levels
    have fits : Fits virt size 3 := ⟨show 4096 ≤ size by omega, virtAligned⟩
    rw [levelsFrom_cons (by decide), mapLeaf, if_pos fits]
    exact fit le_rfl fits
  | succ count ih =>
    rw [levelsFrom_cons (by omega), mapLeaf]
    split
    · rename_i fits
      exact fit (by omega) fits
    · exact ih _ (by omega)

private theorem mapLeaf_maps (sound : ∀ b, Sound (m b)) (piece : Piece virt phys size) (clear : Clear attrs)
    (nonempty : 0 < size) (upper : 1 ≤ level) (levels : level + count = 3) :
    (∀ b, Sound ((mapLeaf virt phys size (regionAttrs attrs) (levelsFrom level) m).2 b)) ∧
      Maps virt phys (mapLeaf virt phys size (regionAttrs attrs) (levelsFrom level) m).1 attrs m
        (mapLeaf virt phys size (regionAttrs attrs) (levelsFrom level) m).2 := by
  have physEnd := piece.physEnd
  have stored : ∀ {level} {m : Leaves}, (∀ b, Sound (m b)) → 1 ≤ level → level ≤ 3 → Fits virt size level →
      (∀ b, Sound (m.store virt level (leafDesc level phys (regionAttrs attrs)) b)) ∧
        Maps virt phys (2 ^ level2shift level) attrs m
          (m.store virt level (leafDesc level phys (regionAttrs attrs))) := by
    intro level m sound upper lower fits
    have divides : 2 ^ level2shift level ∣ 2 ^ 30 := Nat.pow_dvd_pow 2 (by rw [level2shift_eq lower]; omega)
    have aligned : phys % 2 ^ level2shift level = 0 := by
      rw [← Nat.mod_mod_of_dvd phys divides, ← piece.congruent, Nat.mod_mod_of_dvd virt divides, fits.2]
    exact store_sound sound clear upper lower aligned (by omega) fits.2
  induction count generalizing level m with
  | zero =>
    obtain rfl : level = 3 := levels
    have sizeAligned := piece.sizeAligned
    have fits : Fits virt size 3 := ⟨show 4096 ≤ size by omega, piece.virtAligned⟩
    rw [levelsFrom_cons (by decide), mapLeaf, if_pos fits]
    exact stored sound upper le_rfl fits
  | succ count ih =>
    rw [levelsFrom_cons (by omega), mapLeaf]
    split
    · rename_i fits
      exact stored sound upper (by omega) fits
    · obtain ⟨refined, same⟩ : (∀ b, Sound (m.refine virt level b)) ∧ _ := refine_sound sound (by omega)
      obtain ⟨after, maps⟩ := ih refined (show 1 ≤ level + 1 by omega) (by omega)
      exact ⟨after, fun b => by rw [maps b, same b]⟩

theorem Maps.trans {blocksize : Nat} {first second : Leaves} (small : blocksize ≤ size)
    (here : Maps virt phys blocksize attrs m first)
    (rest : Maps (virt + blocksize) (phys + blocksize) (size - blocksize) attrs first second) :
    Maps virt phys size attrs m second := by
  intro b
  rw [rest b, here b]
  by_cases later : virt + blocksize ≤ b ∧ b < virt + blocksize + (size - blocksize)
  · rw [if_pos later, if_pos (by omega), show phys + blocksize + (b - (virt + blocksize)) = phys + (b - virt) by omega]
  · rw [if_neg later]
    by_cases now : virt ≤ b ∧ b < virt + blocksize
    · rw [if_pos now, if_pos (by omega)]
    · rw [if_neg now, if_neg (by omega)]

private theorem mapRegion_maps (sound : ∀ b, Sound (m b)) (piece : Piece virt phys size) (clear : Clear attrs)
    (enough : size / 4096 < fuel) :
    (∀ b, Sound (mapRegion (regionAttrs attrs) fuel virt phys size m b)) ∧
      Maps virt phys size attrs m (mapRegion (regionAttrs attrs) fuel virt phys size m) := by
  induction fuel generalizing virt phys size m with
  | zero => omega
  | succ fuel ih =>
    rw [mapRegion]
    by_cases done : size = 0
    · rw [if_pos done]
      exact ⟨sound, fun b => by rw [if_neg (by omega)]⟩
    · rw [if_neg done]
      have physEnd := piece.physEnd
      obtain ⟨opened, same⟩ : (∀ b, Sound (m.refine virt 0 b)) ∧ _ := refine_sound sound (by omega)
      have sizes := mapLeaf_size phys (regionAttrs attrs) (m.refine virt 0) piece.virtAligned piece.sizeAligned
        (by omega) (show 1 + 2 = 3 from rfl)
      have step := mapLeaf_maps opened piece clear (by omega) le_rfl (show 1 + 2 = 3 from rfl)
      generalize mapLeaf virt phys size (regionAttrs attrs) (levelsFrom 1) (m.refine virt 0) = mapped at sizes step ⊢
      obtain ⟨large, small, pages⟩ := sizes
      simp only
      rw [Nat.mod_eq_of_lt (by omega)]
      obtain ⟨after, rest⟩ := ih step.1 (piece.rest small pages) (by omega)
      have whole := step.2.trans small rest
      exact ⟨after, fun b => (whole b).trans (by rw [same b])⟩

end Mapping

/-! ## The map of the board -/

/-- What is assumed of a region of the board's `mem_map`. -/
structure Proper (m : MmRegion) : Prop where
  virtAligned : m.virt % 4096 = 0
  physAligned : m.phys % 4096 = 0
  sizeAligned : m.size % 4096 = 0
  congruent : m.virt % 2 ^ 30 = m.phys % 2 ^ 30
  virtEnd : m.virt + m.size ≤ 2 ^ 48
  physEnd : m.phys + m.size ≤ 2 ^ 48
  attrsClear : Clear m.attrs

def covers (m : MmRegion) (va : Nat) : Bool := decide (m.virt ≤ va ∧ va < m.virt + m.size)

/-- The last listed region that covers an address. -/
def covering (maps : List MmRegion) (va : Nat) : Option MmRegion := maps.reverse.find? (fun m => covers m va)

/-- What a region says about an address it covers. The access flag is set in
every leaf. -/
def image (va : Nat) (m : MmRegion) : Nat × BitVec 64 := (m.phys + (va - m.virt), m.attrs ||| pteBlockAf)

/-- Later regions cover earlier ones. -/
theorem mapRegions_maps {maps : List MmRegion} {m : Leaves} (sound : ∀ b, Sound (m b))
    (proper : ∀ region ∈ maps, Proper region) :
    (∀ b, Sound (mapRegions maps m b)) ∧
      ∀ b, (mapRegions maps m).view b = ((covering maps b).map (image b)).or (m.view b) := by
  induction maps generalizing m with
  | nil => exact ⟨sound, fun b => rfl⟩
  | cons region maps ih =>
    rw [mapRegions]
    have ok := proper region (by simp)
    obtain ⟨mapped, first⟩ : (∀ b, Sound (mapRegion (regionAttrs region.attrs) (region.size / 4096 + 3) region.virt
        region.phys region.size m b)) ∧ _ :=
      mapRegion_maps sound ⟨ok.virtAligned, ok.sizeAligned, ok.congruent, ok.physEnd⟩ ok.attrsClear (by omega)
    obtain ⟨after, later⟩ := ih mapped (fun region member => proper region (by simp [member]))
    refine ⟨after, fun b => ?_⟩
    rw [later b, first b, covering, covering, List.reverse_cons, List.find?_append, List.find?_singleton]
    cases List.find? (fun m => covers m b) maps.reverse with
    | some found => rfl
    | none =>
      by_cases here : region.virt ≤ b ∧ b < region.virt + region.size
      · simp [covers, here, image]
      · simp [covers, here]

end RockOs.PageLeaves
