import RockOs.PageTableRegions

/-! `split_block` as the hardware sees it. The table that takes the place of a
block maps every address of the block to where the block mapped it, with the
same attributes; in whole tables no translation changes. -/
namespace RockOs.BlockSplitting
open PageTables PageDescriptors PageWalk PageLeaves PageTableSteps PageTableSetup PageTableChanges
open PageTableRegions RadixTable

/-! ## One entry -/

section Entry
variable {mem : Nat → BitVec 64} {d : BitVec 64} {level va table new : Nat}

private theorem aligned_of_multiple (upper : 1 ≤ level) (lower : level ≤ 2)
    (multiple : addrBits 12 d % 2 ^ level2shift level = 0) : Aligned level d := by
  have shift := level2shift_eq (show level ≤ 3 by omega)
  intro i low high
  have bit : (addrBits 12 d).testBit i = (decide (12 ≤ i ∧ i < 48) && d.getLsbD i) := addrBits_testBit i
  rwa [testBit_of_multiple multiple high, decide_eq_true ⟨low, by omega⟩, Bool.true_and, eq_comm] at bit

/-- A valid block or page ends the walk. -/
theorem hardwareWalk_leaf (upper : 1 ≤ level) (lower : level ≤ 3) (met : mem (format.slot level table va) = d)
    (valid : d.getLsbD 0 = true) (page : d.getLsbD 1 = decide (level = 3)) :
    hardwareWalk mem va (4 - level) level table = some (level, d) := by
  have last : format.behind mem va (levelsFrom (level + 1)) (format.child d) = [] := by
    by_cases final : level = 3
    · rw [final]
      cases format.child d <;> rfl
    · rw [child_of_leaf (by rw [page, decide_eq_false final])]
      rfl
  rw [show 4 - level = 3 - level + 1 by omega, hardwareWalk_eq (by omega), entriesFrom_cons (by omega), met, last,
    List.map_nil, decode_leaf upper valid page]

/-- A table entry leads the walk on. -/
theorem hardwareWalk_table (above : level ≤ 2) (met : mem (format.slot level table va) = d)
    (type : pteType d = pteTypeTable) (leads : nextTable d = new) :
    hardwareWalk mem va (4 - level) level table = hardwareWalk mem va (4 - (level + 1)) (level + 1) new := by
  obtain ⟨valid, bit⟩ := type_table_iff.mp type
  have more : entriesFrom mem va (level + 1) new ≠ [] := entriesFrom_ne_nil (by omega)
  rw [show 4 - level = 3 - level + 1 by omega, show 4 - (level + 1) = 2 - level + 1 by omega, hardwareWalk_eq (by omega),
    hardwareWalk_eq (by omega), entriesFrom_cons (by omega), met, child_of_table bit, leads, Format.behind,
      ← Format.entries,
    decode_cons more, valid, if_pos rfl]

end Entry

/-- `d` is a leaf of this level that says of `va` what the block `old` of the
level above says. -/
structure PieceFor (old : BitVec 64) (level va : Nat) (d : BitVec 64) : Prop where
  address : outputAddr (level + 1, d) va = outputAddr (level, old) va
  attributes : leafAttrs d = leafAttrs old
  type : pteType d = if level + 1 = 3 then pteTypePage else pteTypeBlock

private theorem splitEntry_piece (upper : 1 ≤ level) (lower : level ≤ 2) (block : pteType old = pteTypeBlock)
    (aligned : Aligned level old) (va : Nat) :
    PieceFor old level va (splitEntry old level (format.index (level + 1) va)) where
  address := splitEntry_outputAddr upper lower aligned va
  attributes := splitEntry_attrs upper lower (format.index_lt (level + 1) va)
  type := by
    have bits : (splitEntry old level (format.index (level + 1) va)).getLsbD 0 = true ∧ _ :=
      splitEntry_type upper lower block
    split
    · next last => exact type_table_iff.mpr ⟨bits.1, bits.2.trans (decide_eq_true last)⟩
    · next above => exact type_block_iff.mpr ⟨bits.1, bits.2.trans (decide_eq_false above)⟩

/-- Once a block on level 1 or 2 is split, the walks that ended at it end one
level below, in the new table, with the same address and attributes. The pages
of the table space are aligned and below 2^48, and none is taken twice; with no
page left the split panics. -/
theorem splitBlock_preserves_translation (level pte : Nat) (upper : 1 ≤ level) (lower : level ≤ 2) (s : Mmu)
    (space : Space s) (apart : pte < s.tlbFillptr ∨ s.tlbFillptr + 4096 ≤ pte)
    (block : pteType (s.mem pte) = pteTypeBlock) (multiple : addrBits 12 (s.mem pte) % 2 ^ level2shift level = 0) :
    (pagesLeft s = 0 → ∃ t, splitBlock pte level s = .panic .insufficientRam t) ∧
      (pagesLeft s ≠ 0 → ∃ t, splitBlock pte level s = .ret () t ∧ t.mem pte = tableDesc s.tlbFillptr ∧
        ∀ table va, table + 8 * (va >>> level2shift level &&& 0x1ff) = pte →
          hardwareWalk s.mem va (4 - level) level table = some (level, s.mem pte) ∧
            ∃ d, hardwareWalk t.mem va (4 - level) level table = some (level + 1, d) ∧
              t.mem (s.tlbFillptr + 8 * (va >>> level2shift (level + 1) &&& 0x1ff)) = d ∧
                PieceFor (s.mem pte) level va d) := by
  refine ⟨fun full => ⟨_, splitBlock_panic space block full⟩, fun left => ?_⟩
  obtain ⟨mem, returned, atPte, atEntry, -⟩ := splitBlock_ret space block left apart level
  refine ⟨_, returned, atPte, fun table va here => ?_⟩
  have aligned := aligned_of_multiple upper lower multiple
  have slot : format.slot level table va = pte := here
  obtain ⟨valid, leaf⟩ := type_block_iff.mp block
  have piece := splitEntry_piece upper lower block aligned va
  have met : mem (format.slot (level + 1) s.tlbFillptr va) =
      splitEntry (s.mem pte) level (format.index (level + 1) va) :=
    atEntry _ (format.index_lt (level + 1) va)
  have bits : (splitEntry (s.mem pte) level (format.index (level + 1) va)).getLsbD 0 = true ∧ _ :=
    splitEntry_type upper lower block
  refine ⟨hardwareWalk_leaf upper (by omega) (by rw [slot]) valid (by rw [leaf, decide_eq_false (by omega)]), _, ?_, met,
    piece⟩
  have leads : nextTable (tableDesc s.tlbFillptr) = s.tlbFillptr :=
    nextTable_tableDesc space.aligned (space.next_fits left)
  calc hardwareWalk mem va (4 - level) level table
      = hardwareWalk mem va (4 - (level + 1)) (level + 1) s.tlbFillptr :=
        hardwareWalk_table lower (by rw [slot, atPte]) (tableDesc_type _) leads
    _ = _ := hardwareWalk_leaf (by omega) (by omega) met bits.1 bits.2

/-- A table space with one block in its first table. -/
def blockMmu : Mmu :=
  { mem := fun a => if a = 0x1008 then 0x0060000040000711#64 else 0#64
    tlbAddr := 0x1000, tlbSize := 0x10000, tlbFillptr := 0x2000, tlbEmerg := 0 }

theorem blockMmu_split : ∃ t d, splitBlock 0x1008 1 blockMmu = .ret () t ∧
    hardwareWalk t.mem 0x40201234 3 1 0x1000 = some (2, d) ∧ PieceFor 0x0060000040000711#64 1 0x40201234 d := by
  have space : Space blockMmu := ⟨by decide, by decide, by decide, by decide⟩
  obtain ⟨t, returned, -, walks⟩ := (splitBlock_preserves_translation 1 0x1008 (by decide) (by decide) blockMmu space
    (by decide) (by decide) (by decide)).2 (by decide)
  obtain ⟨-, d, walk, -, piece⟩ := walks 0x1000 0x40201234 (by decide)
  exact ⟨t, d, returned, walk, piece⟩

/-! ## Whole tables -/

section Tables
variable {memMap : List MmRegion} {va k pte : Nat} {other : Nat → Prop} {s : Mmu}

/-- A split inside tables whose leaves are aligned changes no translation. -/
theorem splitBlock_translate (tables : MapTables memMap other s) (settled : AllSettled (startLevel memMap) s)
    (reach : InReach (startLevel memMap) va) (visited : (slots (startLevel memMap) s va)[k]? = some pte)
    (upper : 1 ≤ startLevel memMap + k) (lower : startLevel memMap + k < 3)
    (block : pteType (s.mem pte) = pteTypeBlock) (left : pagesLeft s ≠ 0) :
    ∃ t, splitBlock pte (startLevel memMap + k) s = .ret () t ∧ Later (startLevel memMap) other s t ∧
      ∀ b, translate memMap t b = translate memMap s b := by
  obtain ⟨_, t, returned, within, _, after, replaced, _⟩ :=
    (splitBlock_spec tables reach visited upper lower block).enough (Nat.one_le_iff_ne_zero.mpr left)
  refine ⟨t, returned, ⟨after, ⟨1, within⟩, split_settles visited lower block replaced upper⟩, fun b => ?_⟩
  by_cases outside : 2 ^ (getTcr memMap 0).vaBits ≤ b
  · rw [translate_outside outside, translate_outside outside]
  have inside : b < 2 ^ (getTcr memMap 0).vaBits := Nat.lt_of_not_le outside
  have reachB : InReach (startLevel memMap) b := PageWalk.reach inside
  rw [translate_eq inside, translate_eq inside]
  by_cases agree : format.Same (levelsFrom (startLevel memMap)) (k + 1) va b
  · obtain ⟨front, rfl, before, now⟩ := split_through visited lower block replaced reachB agree
    have finer : Finer (startLevel memMap) b (entries (startLevel memMap) s b) (entries (startLevel memMap) t b) := by
      rw [before, now]
      exact .split upper (by omega) block (.refl _)
    exact (finer.meaning_eq (settled b reachB)).1
  · exact congrArg (fun es => meaning (startLevel memMap) es b) (replaced.other b reachB agree)

end Tables

end RockOs.BlockSplitting
