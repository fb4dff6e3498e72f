import RockOs.PageTablePair
import RockOs.PageTablePasses
import RockOs.RegionBlocks

/-! What `mmu_change_region_attr` and `mmu_set_region_dcache_behaviour` do to a
mapped range, on any tables that `setup_all_pgtables` and earlier calls leave.
No output address changes and nothing changes outside the range. Inside, the
new attributes reach a page exactly when its leaf was not below the entry that
the call sets for it. -/
namespace RockOs.PageTableAttributes
open Machine PageTables PageDescriptors PageWalk PageTableSteps PageLeaves PageTableSetup PageTableChanges PageTablePair
open PageTableRegions PageTablePasses RadixTable RegionBlocks

/-- Tables that `setup_all_pgtables` built in a reserved space, after any calls
that returned. -/
def Reachable (memMap : List MmRegion) (s : Mmu) : Prop :=
  ∃ before built calls, TableSpace before ∧
    setupAllPgtables memMap before = .ret () built ∧ run (Call.step memMap) built calls = some s

section Regions
variable {memMap : List MmRegion} {s t u : Mmu} {first size va fuel k : Nat} {attrs : BitVec 64} {flag : Bool}
  {other : Nat → Prop} {leaf : Nat × BitVec 64}

private theorem built_settled {m : Leaves} {start : Nat} (built : Built start other m s) (sound : ∀ b, Sound (m b)) :
    AllSettled start s := by
  intro b reach
  obtain ⟨front, clean⟩ := built.clean b reach
  rw [clean.split]
  refine settled_append ?_
  rw [clean.level]
  rcases sound b with zero | ⟨_, _, _, _, aligned⟩
  · rw [zero]
    exact fun i _ _ => BitVec.getLsbD_zero
  · exact aligned

theorem reachable_later (aligned : ∀ m ∈ regions memMap, PageAligned m)
    (ends : ∀ m ∈ regions memMap, m.virt + m.size ≤ 2 ^ 48) (reachable : Reachable memMap s) :
    ∃ before built, Paired memMap before built ∧
      Later (startLevel memMap) (fun x => x < before.tlbAddr ∨ built.tlbEmerg ≤ x ∧ x < built.tlbFillptr) built s := by
  obtain ⟨before, built, calls, space, set, ran⟩ := reachable
  have paired := Outcome.Ends.of_ret (setupAllPgtables_spec aligned ends space) set
  exact ⟨before, built, paired, run_later paired.primary.toTables calls ran⟩

theorem reachable_tables (proper : ∀ m ∈ regions memMap, Proper m) (reachable : Reachable memMap s) :
    ∃ other, MapTables memMap other s ∧ AllSettled (startLevel memMap) s := by
  obtain ⟨_, _, paired, later⟩ := reachable_later (fun m member => pageAligned_of_proper (proper m member))
    (fun m member => (proper m member).virtEnd) reachable
  exact ⟨_, later.tables, later.settles (built_settled paired.primary (mapLeaves_sound proper).1)⟩

/-- The emergency tables are never at address zero. -/
theorem reachable_emergency (proper : ∀ m ∈ regions memMap, Proper m) (reachable : Reachable memMap s) :
    s.tlbEmerg ≠ 0 := by
  obtain ⟨before, built, paired, later⟩ := reachable_later (fun m member => pageAligned_of_proper (proper m member))
    (fun m member => (proper m member).virtEnd) reachable
  obtain ⟨_, within⟩ := later.within
  have first := paired.first
  rw [within.emerg]
  exact Nat.ne_zero_of_lt first

/-! ## Mapped ranges -/

/-- The hardware finds a leaf for every address of the range. -/
def Mapped (memMap : List MmRegion) (s : Mmu) (first size : Nat) : Prop :=
  ∀ va, first ≤ va → va < first + size → leafOf memMap s va ≠ none

theorem Mapped.inside (mapped : Mapped memMap s first size) (low : first ≤ va) (high : va < first + size) :
    va < 2 ^ (getTcr memMap 0).vaBits := by
  by_contra outside
  refine mapped va low high ?_
  rw [leafOf, if_pos (by omega)]

theorem Mapped.reach (mapped : Mapped memMap s first size) (some : 0 < size) :
    first + size ≤ 2 ^ (level2shift (startLevel memMap) + 9) := by
  have inside : first + size - 1 < 2 ^ (getTcr memMap 0).vaBits := mapped.inside (by omega) (by omega)
  have last := PageWalk.reach inside
  omega

/-- Fresh tables map every listed region. -/
theorem mapped_of_region {m : MmRegion} (proper : ∀ m ∈ regions memMap, Proper m)
    (built : Built (startLevel memMap) other (mapLeaves memMap) s) (member : m ∈ regions memMap) (low : m.virt ≤ first)
    (high : first + size ≤ m.virt + m.size) : Mapped memMap s first size := by
  intro va after before unmapped
  have inSpace := region_in_space (fun m member => (proper m member).virtEnd) member
  have described : translate memMap s va = (mapLeaves memMap).view va := translate_leaves built (by omega)
  rw [(mapLeaves_sound proper).2, PageWalk.translate, unmapped, Option.map_none, eq_comm, Option.map_eq_none_iff,
    covering, List.find?_eq_none] at described
  have here := described m (List.mem_reverse.mpr member)
  simp only [covers, decide_eq_true_eq] at here
  omega

theorem leafOf_level (found : leafOf memMap s va = some leaf) : leaf.1 ≤ 3 := by
  have top : startLevel memMap ≤ 1 := startLevel_le
  rw [leafOf_eq (inside_of_leaf found)] at found
  have level := decode_level found
  have bound : startLevel memMap + (entries (startLevel memMap) s va).length ≤ 4 := entries_bound (by omega)
  change _ = startLevel memMap + (entries (startLevel memMap) s va).length at level
  omega

/-- A leaf is the leaf of all addresses of its block. -/
theorem leafOf_same_block (found : leafOf memMap s a = some leaf) (same : SameBlock leaf.1 a b)
    (inside : b < 2 ^ (getTcr memMap 0).vaBits) : leafOf memMap s b = some leaf := by
  have low := leafOf_level found
  have insideA := inside_of_leaf found
  rw [leafOf_eq insideA] at found
  have level := decode_level found
  change _ = startLevel memMap + (entries (startLevel memMap) s a).length at level
  have some : 0 < (entries (startLevel memMap) s a).length :=
    List.length_pos_of_ne_nil (entriesFrom_ne_nil (Nat.lt_of_le_of_lt startLevel_le (by decide)))
  have depth : startLevel memMap + (leaf.1 - startLevel memMap) = leaf.1 := by omega
  have entries := entries_same_block (s := s) (k := leaf.1 - startLevel memMap) (by omega) (PageWalk.reach insideA)
    (PageWalk.reach inside) (by rwa [depth]) (by omega)
  rw [leafOf_eq inside]
  show decode _ (PageTableSteps.entries (startLevel memMap) s b) = _
  rw [entries]
  exact found

/-- All entries of a walk that finds a leaf are valid. -/
theorem decode_valid (found : decode i es ≠ none) : ∀ d ∈ es, d.getLsbD 0 = true := by
  induction es generalizing i with
  | nil => exact fun _ none => by cases none
  | cons d rest ih =>
    rw [List.forall_mem_cons]
    cases rest with
    | nil =>
      rw [decode] at found
      split at found
      · rename_i valid
        exact ⟨valid.1, fun _ none => by cases none⟩
      · exact absurd rfl found
    | cons e rest =>
      rw [decode] at found
      split at found
      · rename_i valid
        exact ⟨valid, ih found⟩
      · exact absurd rfl found

/-- A mapped address is ready for a pass. -/
theorem ready_of_mapped (found : decode (startLevel memMap) (entries (startLevel memMap) s va) ≠ none)
    (small : startLevel memMap + k ≤ 3) :
    Ready (startLevel memMap) (entries (startLevel memMap) s va) k := by
  have top : startLevel memMap ≤ 1 := startLevel_le
  have valid := decode_valid found
  obtain ⟨front, last, split, leads, leaf⟩ := entries_ends s va (show startLevel memMap < 4 by omega)
  have tables : ∀ d ∈ front, pteType d = pteTypeTable :=
    fun d member => type_table_iff.mpr ⟨valid d (by rw [split]; simp [member]), leads d member⟩
  by_cases deep : k < (entries (startLevel memMap) s va).length
  · refine .inl ⟨deep, fun d member => ?_⟩
    rw [split, List.length_append, List.length_singleton] at deep
    rw [split, List.take_append_of_le_length (by omega)] at member
    exact tables d (List.mem_of_mem_take member)
  · rw [split, List.length_append, List.length_singleton] at deep
    have lower : 1 ≤ startLevel memMap + front.length := by
      rw [split, decode_append (List.cons_ne_nil _ _)] at found
      by_contra zero
      apply found
      have level : startLevel memMap + front.length = 0 := by omega
      split
      · rw [level, decode, if_neg (by simp)]
      · rfl
    exact .inr ⟨front, last, split, by omega, lower, tables,
      type_block_iff.mpr ⟨valid last (by rw [split]; simp), leaf (by omega)⟩⟩

/-- A pass can get to every granule of a mapped range. -/
theorem Mapped.ahead (mapped : Mapped memMap s first size) (page : first % 4096 = 0) (pages : size % 4096 = 0)
    (some : size ≠ 0) : Ahead memMap first (first + size) s := by
  have top : startLevel memMap ≤ 1 := startLevel_le
  refine ⟨page, by omega, by omega, mapped.reach (Nat.pos_of_ne_zero some), fun b low high => ?_⟩
  have bounds := granule_bounds first (first + size) b
  refine ready_of_mapped ?_ (by omega)
  rw [← leafOf_eq (mapped.inside low high)]
  exact mapped b low high

/-- What the calls do to the range of addresses they are given. -/
structure Changes (memMap : List MmRegion) (other : Nat → Prop) (first size : Nat) (attrs : BitVec 64) (flag : Bool)
    (s t : Mmu) : Prop where
  tables : MapTables memMap other t
  passed : Passed (startLevel memMap) first (first + size) (fun d => withAttrs d attrs flag) s t

/-- One pass over a mapped range. -/
theorem setRegion_changes (attrs : BitVec 64) (flag : Bool) (tables : MapTables memMap other s)
    (page : first % 4096 = 0) (pages : size % 4096 = 0) (mapped : Mapped memMap s first size)
    (enough : size / 4096 < fuel) :
    Takes other (splits (depth (startLevel memMap) s) first (first + size)) s
      (fun _ t => Changes memMap other first size attrs flag s t) (setRegion memMap attrs flag fuel first size s) := by
  by_cases none : size = 0
  · subst none
    have nothing : splits (depth (startLevel memMap) s) first (first + 0) ≤ _ := splits_le page page
    rw [Nat.add_zero, Nat.sub_self] at nothing
    cases fuel with
    | zero => omega
    | succ fuel =>
      rw [setRegion, if_pos rfl, Nat.add_zero, Nat.le_zero.mp nothing]
      exact .ret (Within.refl s) ⟨tables, fun b _ low high => by omega, fun b _ _ => .inl rfl⟩
  · have pass := setRegion_spec attrs flag tables (mapped.ahead page pages none)
      (show (first + size - first) / 4096 < fuel by rwa [Nat.add_sub_cancel_left])
    rw [Nat.add_sub_cancel_left] at pass
    exact pass.mono (fun _ t holds => ⟨holds.1, holds.2⟩)

/-- A page in the range takes two table pages at most. -/
theorem region_splits_le (deep : Nat → Nat) (page : first % 4096 = 0) (pages : size % 4096 = 0) :
    splits deep first (first + size) ≤ 2 * (size / 4096) := by
  have bound : splits deep first (first + size) ≤ _ := splits_le page (by omega)
  rwa [Nat.add_sub_cancel_left] at bound

/-- After a pass every granule is there, so that the next pass splits nothing. -/
theorem changeRegionAttr_changes (attrs : BitVec 64) (tables : MapTables memMap other s) (page : first % 4096 = 0)
    (pages : size % 4096 = 0) (mapped : Mapped memMap s first size) :
    Builds other (4 * (size / 4096)) s (fun _ t => Changes memMap other first size attrs true s t)
      (mmuChangeRegionAttr memMap first size attrs s) := by
  have top : startLevel memMap ≤ 1 := startLevel_le
  by_cases none : size = 0
  · subst none
    have still : ∀ a, setRegion memMap a true (0 / 4096 + 3) first 0 s = .ret () s := fun a => rfl
    unfold mmuChangeRegionAttr
    rw [bind_of_ret (still _), still]
    exact ⟨Within.refl s, tables, fun b _ low high => by omega, fun b _ _ => .inl rfl⟩
  · have ahead := mapped.ahead page pages none
    have count : 2 * (size / 4096) + 2 * (size / 4096) = 4 * (size / 4096) := by omega
    rw [← count]
    refine ((setRegion_changes _ _ tables page pages mapped (by omega)).builds
      (region_splits_le _ page pages)).bind (fun _ between holds => ?_)
    obtain ⟨after, passed⟩ := holds
    have pass := setRegion_spec attrs true after (ahead.again passed)
      (show (first + size - first) / 4096 < size / 4096 + 3 by rw [Nat.add_sub_cancel_left]; omega)
    rw [Nat.add_sub_cancel_left] at pass
    refine (pass.builds (region_splits_le _ page pages)).mono le_rfl (fun _ t holds => ?_)
    obtain ⟨last, again⟩ := holds
    refine ⟨last, fun b reachB low high => ?_, fun b reachB out => ?_⟩
    · obtain ⟨qs, finer, length, unsplit, result⟩ := passed.inside b reachB low high
      obtain ⟨rs, _, _, unsplitAgain, resultAgain⟩ := again.inside b reachB low high
      refine ⟨qs, finer, length, unsplit, ?_⟩
      rw [resultAgain, unsplitAgain (by rw [result, List.length_modify]; omega), result, List.modify_modify_eq]
      congr 1
      funext d
      exact withAttrs_withAttrs pteTypeFault true
    · exact (passed.outside b reachB out).trans (again.outside b reachB out)

/-- Once a page is set by itself, the walks of the block around it end in pages. -/
theorem Changes.pages (changes : Changes memMap other first size attrs flag s t) (low : first ≤ a)
    (high : a < first + size) (fine : granule first (first + size) a = 3) (reachA : InReach (startLevel memMap) a)
    (reachB : InReach (startLevel memMap) b) (same : SameBlock 2 a b) :
    startLevel memMap + (entries (startLevel memMap) t b).length = 4 := by
  have top : startLevel memMap ≤ 1 := startLevel_le
  obtain ⟨qs, _, length, _, result⟩ := changes.passed.inside a reachA low high
  have deep : 4 ≤ startLevel memMap + (entries (startLevel memMap) t a).length := by
    rw [result, List.length_modify, length, fine]
    omega
  have bound : startLevel memMap + (entries (startLevel memMap) t b).length ≤ 4 := entries_bound (by omega)
  by_contra short
  have level : startLevel memMap + (2 - startLevel memMap) = 2 := by omega
  have equal := entries_same_block (s := t) (k := 2 - startLevel memMap) (by omega) reachB reachA
    (by rw [level]; exact same.symm) (by omega)
  rw [equal] at deep
  omega

/-- A page of a block of 2 MiB that the call splits for another page. -/
theorem Changes.piece (changes : Changes memMap other first size attrs flag s t) (low : first ≤ a)
    (high : a < first + size) (fine : granule first (first + size) a = 3) (insideA : a < 2 ^ (getTcr memMap 0).vaBits)
    (insideB : b < 2 ^ (getTcr memMap 0).vaBits) (same : SameBlock 2 a b) (out : ¬ (first ≤ b ∧ b < first + size))
    {d : BitVec 64} (old : leafOf memMap s b = some (2, d)) :
    leafOf memMap t b = some (3, splitEntry d 2 (format.index 3 b)) := by
  have length := changes.pages low high fine (PageWalk.reach insideA) (PageWalk.reach insideB) same
  have finer := (changes.passed.outside b (PageWalk.reach insideB) out).finer
  rw [leafOf_eq insideB] at old
  have level := decode_level old
  change _ = startLevel memMap + (entries (startLevel memMap) s b).length at level
  rw [leafOf_eq insideB]
  exact finer.piece old (by omega)

/-! ## Translations and attributes -/

/-- The leaf of an address inside the range: the leaf it had, in pieces if it was
larger than its granule, and with the new attributes if it is not smaller. -/
theorem Changes.leaf_after (changes : Changes memMap other first size attrs flag s t)
    (valid : flag = true → attrs.getLsbD 0 = true) (mapped : Mapped memMap s first size)
    (settled : AllSettled (startLevel memMap) s) (low : first ≤ va) (high : va < first + size)
    (old : leafOf memMap s va = some leaf) :
    ∃ piece, outputAddr piece va = outputAddr leaf va ∧ leafAttrs piece.2 = leafAttrs leaf.2 ∧
      (leaf.1 ≤ granule first (first + size) va → piece.1 = granule first (first + size) va) ∧
      (granule first (first + size) va ≤ leaf.1 → piece = leaf) ∧
      leafOf memMap t va =
        some (if piece.1 = granule first (first + size) va then (piece.1, withAttrs piece.2 attrs flag) else piece) := by
  have top : startLevel memMap ≤ 1 := startLevel_le
  have inside := mapped.inside low high
  have reach := PageWalk.reach inside
  obtain ⟨upper, lower⟩ := granule_bounds first (first + size) va
  have level := granule_level memMap first (first + size) va
  rw [leafOf_eq inside] at old
  change decode (startLevel memMap) (entries (startLevel memMap) s va) = some leaf at old
  obtain ⟨qs, finer, length, unsplit, result⟩ := changes.passed.inside va reach low high
  have same := (finer.meaning_eq (settled va reach)).1
  unfold meaning at same
  rw [old, Option.map_some, Option.map_eq_some_iff] at same
  obtain ⟨piece, found, both⟩ := same
  obtain ⟨address, bits⟩ := Prod.ext_iff.mp both
  have oldLevel := decode_level old
  have newLevel := decode_level found
  refine ⟨piece, address, bits, fun above => by omega, fun below => ?_, ?_⟩
  · rw [unsplit (by omega), old] at found
    exact (Option.some.inj found).symm
  · have keeps : ∀ d, qs[granule first (first + size) va - startLevel memMap]? = some d →
        (withAttrs d attrs flag).getLsbD 0 = d.getLsbD 0 ∧ (withAttrs d attrs flag).getLsbD 1 = d.getLsbD 1 := by
      intro d met
      have isValid : d.getLsbD 0 = true := decode_valid (by rw [found]; simp) d (List.mem_of_getElem? met)
      refine ⟨?_, withAttrs_same (.inl rfl) flag⟩
      rw [withAttrs_bit (by omega), changedBits_bit]
      cases flag with
      | true => rw [if_pos (by decide), valid rfl, isValid]
      | false => rw [if_neg (by decide)]
    rw [leafOf_eq inside]
    show decode (startLevel memMap) (entries (startLevel memMap) t va) = _
    rw [result, decode_modify keeps, found, level, Option.map_some]

/-- Output addresses do not change, and nothing does outside the range. -/
theorem Changes.frame (changes : Changes memMap other first size attrs flag s t)
    (valid : flag = true → attrs.getLsbD 0 = true) (mapped : Mapped memMap s first size)
    (settled : AllSettled (startLevel memMap) s) (va : Nat) :
    (translate memMap t va).map Prod.fst = (translate memMap s va).map Prod.fst ∧
      (¬ (first ≤ va ∧ va < first + size) → translate memMap t va = translate memMap s va) := by
  by_cases range : first ≤ va ∧ va < first + size
  · refine ⟨?_, fun outside => absurd range outside⟩
    obtain ⟨leaf, old⟩ := Option.ne_none_iff_exists'.mp (mapped va range.1 range.2)
    obtain ⟨piece, address, _, _, _, new⟩ := changes.leaf_after valid mapped settled range.1 range.2 old
    unfold PageWalk.translate
    rw [old, new, Option.map_some, Option.map_some, Option.map_some, Option.map_some, Option.some.injEq, ← address]
    split
    · have lower := (granule_bounds first (first + size) va).2
      have page : 12 ≤ level2shift piece.1 := by
        rw [level2shift_eq (by omega)]
        omega
      simp only [outputAddr, withAttrs_addrBits page]
    · rfl
  · have unchanged : translate memMap t va = translate memMap s va := by
      by_cases inside : va < 2 ^ (getTcr memMap 0).vaBits
      · have reach := PageWalk.reach inside
        rw [translate_eq inside, translate_eq inside]
        exact ((changes.passed.outside va reach range).finer.meaning_eq (settled va reach)).1
      · rw [translate_outside (by omega), translate_outside (by omega)]
    exact ⟨by rw [unchanged], fun _ => unchanged⟩

end Regions

/-! ## The two calls -/

/-- The attributes that `mmu_change_region_attr` is to set. -/
def attrBits : BitVec 64 := pteBlockPxn ||| pteBlockUxn ||| pmdAttrindxMask

def SameAttrs (d attrs : BitVec 64) : Prop := d &&& attrBits = attrs &&& attrBits

instance (d attrs : BitVec 64) : Decidable (SameAttrs d attrs) := inferInstanceAs (Decidable (_ = _))

section Calls
variable {memMap : List MmRegion} {s t : Mmu} {d attrs : BitVec 64} {leaf : Nat × BitVec 64}

private theorem attrBits_bit (i : Nat) : attrBits.getLsbD i = (pmdAttrmask.getLsbD i && decide (i ≠ 0)) := by
  by_cases inside : i < 64
  · revert i
    decide
  · rw [BitVec.getLsbD_of_ge _ _ (by omega), BitVec.getLsbD_of_ge _ _ (by omega), Bool.false_and]

private theorem sameAttrs_withAttrs : SameAttrs (withAttrs d attrs true) attrs := by
  apply BitVec.eq_of_getLsbD_eq
  intro i inside
  have set : (changedBits true).getLsbD i = pmdAttrmask.getLsbD i := rfl
  rw [BitVec.getLsbD_and, BitVec.getLsbD_and, attrBits_bit, withAttrs_bit inside, set]
  cases pmdAttrmask.getLsbD i <;> simp

/-- A call on a mapped range changes it as its passes do. -/
theorem call_changes {other : Nat → Prop} (tables : MapTables memMap other s) (call : Call)
    (page : call.start % 4096 = 0) (pages : call.size % 4096 = 0) (mapped : Mapped memMap s call.start call.size)
    (valid : call.Valid) (returned : call.code memMap s = .ret () t) :
    ∃ attrs flag, (flag = true → attrs.getLsbD 0 = true) ∧ Changes memMap other call.start call.size attrs flag s t := by
  cases call with
  | changeRegionAttr addr siz attrs =>
    have builds := changeRegionAttr_changes attrs tables page pages mapped
    exact ⟨attrs, true, fun _ => valid, (Outcome.Ends.of_ret builds returned).2⟩
  | setRegionDcacheBehaviour start size option =>
    change mmuSetRegionDcacheBehaviour memMap start size option s = .ret () t at returned
    unfold mmuSetRegionDcacheBehaviour at returned
    rw [read_bind] at returned
    split at returned
    · cases returned
    · have builds := setRegion_changes (BitVec.ofNat 64 (option <<< 2 % 2 ^ 32)) false tables page pages mapped
        (show size / 4096 < size / 4096 + 3 by omega)
      exact ⟨_, false, fun set => absurd set Bool.false_ne_true, (Outcome.Ends.of_ret (builds.builds le_rfl) returned).2⟩

/-- A call that returns leaves all output addresses as they were, and outside
its range the attributes too. -/
theorem region_change_frame (memMap : List MmRegion) (proper : ∀ m ∈ regions memMap, Proper m) (s : Mmu)
    (reachable : Reachable memMap s) (call : Call) (page : call.start % 4096 = 0) (pages : call.size % 4096 = 0)
    (mapped : Mapped memMap s call.start call.size) (valid : call.Valid) (t : Mmu)
    (returned : call.code memMap s = .ret () t) (va : Nat) :
    (translate memMap t va).map Prod.fst = (translate memMap s va).map Prod.fst ∧
      (¬ (call.start ≤ va ∧ va < call.start + call.size) → translate memMap t va = translate memMap s va) := by
  obtain ⟨other, tables, settled⟩ := reachable_tables proper reachable
  obtain ⟨attrs, flag, keeps, changes⟩ := call_changes tables call page pages mapped valid returned
  exact changes.frame keeps mapped settled va

/-- The new attributes reach the leaf of an address unless it lies below the
entry that the call sets. -/
theorem changed_attrs {other : Nat → Prop} {first size va : Nat}
    (changes : Changes memMap other first size attrs true s t) (valid : attrs.getLsbD 0 = true)
    (mapped : Mapped memMap s first size) (settled : AllSettled (startLevel memMap) s) (low : first ≤ va)
    (high : va < first + size) (old : leafOf memMap s va = some leaf) :
    (∃ now, leafOf memMap t va = some now ∧ SameAttrs now.2 attrs) ↔
      leaf.1 ≤ granule first (first + size) va ∨ SameAttrs leaf.2 attrs := by
  obtain ⟨piece, _, _, above, below, new⟩ := changes.leaf_after (fun _ => valid) mapped settled low high old
  by_cases deep : leaf.1 ≤ granule first (first + size) va
  · rw [if_pos (above deep)] at new
    exact iff_of_true ⟨_, new, sameAttrs_withAttrs⟩ (.inl deep)
  · have same := below (by omega)
    rw [same, if_neg (by omega)] at new
    constructor
    · rintro ⟨now, found, attributes⟩
      rw [new, Option.some.injEq] at found
      exact .inr (found ▸ attributes)
    · rintro (small | attributes)
      · exact absurd small deep
      · exact ⟨leaf, new, attributes⟩

/-- `mmu_change_region_attr` gives every page of a mapped range the new
attributes exactly when no page with other attributes has its leaf below the
entry that the call sets for it: an earlier split is not seen. -/
theorem change_region_attr_iff (memMap : List MmRegion) (proper : ∀ m ∈ regions memMap, Proper m) (s : Mmu)
    (reachable : Reachable memMap s) (addr siz : Nat) (attrs : BitVec 64) (page : addr % 4096 = 0)
    (pages : siz % 4096 = 0) (mapped : Mapped memMap s addr siz) (valid : attrs.getLsbD 0 = true) :
    (mmuChangeRegionAttr memMap addr siz attrs s).Ends (fun reason => reason = .insufficientRam) (fun _ t =>
      (∀ va, addr ≤ va → va < addr + siz → ∃ leaf, leafOf memMap t va = some leaf ∧ SameAttrs leaf.2 attrs) ↔
        ∀ va, addr ≤ va → va < addr + siz → ∀ leaf, leafOf memMap s va = some leaf →
          leaf.1 ≤ granule addr (addr + siz) va ∨ SameAttrs leaf.2 attrs) := by
  obtain ⟨other, tables, settled⟩ := reachable_tables proper reachable
  have builds := changeRegionAttr_changes attrs tables page pages mapped
  refine Outcome.Ends.mono builds (fun reason stopped => stopped.1) (fun _ t holds => ?_)
  obtain ⟨_, changes⟩ := holds
  constructor
  · intro all va low high leaf old
    exact (changed_attrs changes valid mapped settled low high old).mp (all va low high)
  · intro all va low high
    obtain ⟨leaf, old⟩ := Option.ne_none_iff_exists'.mp (mapped va low high)
    exact (changed_attrs changes valid mapped settled low high old).mpr (all va low high leaf old)

end Calls

/-! ## A split that is not seen -/

/-- A block of 1 GiB, and its first page again. -/
def splitMap : List MmRegion :=
  [{ virt := 0x40000000, phys := 0x40000000, size := 0x40000000, attrs := 0x10#64 },
    { virt := 0x40000000, phys := 0x40000000, size := 0x1000, attrs := 0x10#64 },
    { virt := 0, phys := 0, size := 0, attrs := 0#64 }]

/-- Space for as many tables as may be needed. -/
def largeMmu : Mmu :=
  { mem := fun _ => 0#64, tlbAddr := 0x10000000000, tlbSize := 0x10000000000, tlbFillptr := 0, tlbEmerg := 0 }

theorem splitMap_proper : ∀ m ∈ regions splitMap, Proper m := by
  have listed : regions splitMap = splitMap.take 2 := rfl
  rw [listed, splitMap, List.take_succ_cons, List.take_succ_cons, List.take_zero, List.forall_mem_cons,
    List.forall_mem_cons]
  refine ⟨⟨?_, ?_, ?_, ?_, ?_, ?_, ?_⟩, ⟨?_, ?_, ?_, ?_, ?_, ?_, ?_⟩, fun _ none => by cases none⟩
  all_goals decide

theorem largeMmu_left (paired : Paired memMap largeMmu s)
    (few : 4096 * (2 * (1 + pagesEnough (regions memMap))) ≤ 2 ^ 33) : 4096 ≤ pagesLeft s := by
  have used := paired.used
  unfold pagesLeft
  rw [paired.addr, paired.size]
  simp only [largeMmu] at used ⊢
  omega

/-- The tables of this map leave space, and map the whole block. -/
theorem splitMap_tables : ∃ s, Reachable splitMap s ∧ Paired splitMap largeMmu s ∧ 4096 ≤ pagesLeft s ∧
    Mapped splitMap s 0x40000000 0x200000 := by
  have aligned : ∀ m ∈ regions splitMap, PageAligned m :=
    fun m member => pageAligned_of_proper (splitMap_proper m member)
  have space : TableSpace largeMmu := ⟨by decide, by decide, by decide⟩
  obtain ⟨s, built, paired⟩ := setupAllPgtables_returns aligned (fun m member => (splitMap_proper m member).virtEnd)
    space (by decide)
  have block : { virt := 0x40000000, phys := 0x40000000, size := 0x40000000, attrs := 0x10#64 } ∈ regions splitMap :=
    List.mem_cons_self
  exact ⟨s, ⟨largeMmu, s, [], space, built, rfl⟩, paired, largeMmu_left paired (by decide),
    mapped_of_region splitMap_proper paired.primary block (by decide) (by decide)⟩

/-- The call on the first 2 MiB sets the table of their pages and not the pages:
the second page keeps its memory type. -/
theorem change_region_attr_missed : ∃ s t, Reachable splitMap s ∧ Mapped splitMap s 0x40000000 0x200000 ∧
    mmuChangeRegionAttr splitMap 0x40000000 0x200000 1#64 s = .ret () t ∧
    ∃ leaf, leafOf splitMap t 0x40001000 = some leaf ∧ ¬ SameAttrs leaf.2 1#64 := by
  obtain ⟨s, reachable, paired, space, mapped⟩ := splitMap_tables
  obtain ⟨other, tables, settled⟩ := reachable_tables splitMap_proper reachable
  obtain ⟨_, t, returned, _, changes⟩ :=
    (changeRegionAttr_changes 1#64 tables (by decide) (by decide) mapped).returns (by omega)
  refine ⟨s, t, reachable, mapped, returned, ?_⟩
  have leaf : leafOf splitMap s 0x40001000 = some (3, 0x40001413#64) := by
    rw [leafOf_leaves paired.primary (by decide)]
    decide
  obtain ⟨piece, _, _, _, same, new⟩ :=
    changes.leaf_after (fun _ => by decide) mapped settled (by decide) (by decide) leaf
  have kept := same (by decide)
  rw [kept, if_neg (by decide)] at new
  exact ⟨_, new, by decide⟩

/-- On a page the call reaches the leaf. -/
theorem change_region_attr_page : ∃ s t, Reachable splitMap s ∧
    mmuChangeRegionAttr splitMap 0x40000000 0x1000 1#64 s = .ret () t ∧
    ∃ leaf, leafOf splitMap t 0x40000010 = some leaf ∧ SameAttrs leaf.2 1#64 := by
  obtain ⟨s, reachable, paired, space, mapped⟩ := splitMap_tables
  obtain ⟨other, tables, settled⟩ := reachable_tables splitMap_proper reachable
  have page : Mapped splitMap s 0x40000000 0x1000 := fun va low high => mapped va low (by omega)
  obtain ⟨_, t, returned, _⟩ := (changeRegionAttr_changes 1#64 tables (by decide) (by decide) page).returns (by omega)
  have exact_change := change_region_attr_iff splitMap splitMap_proper s reachable 0x40000000 0x1000 1#64 (by decide)
    (by decide) page (by decide)
  rw [returned, ends_ret] at exact_change
  refine ⟨s, t, reachable, returned, exact_change.mpr (fun va low high leaf old => .inl ?_) _ (by decide) (by decide)⟩
  have granules : granule 0x40000000 (0x40000000 + 0x1000) va = 3 := by
    unfold granule
    rw [if_neg (by omega), if_neg (by omega)]
  rw [granules]
  exact leafOf_level old

theorem region_change_frame_block : ∃ s t, Reachable splitMap s ∧
    mmuChangeRegionAttr splitMap 0x40000000 0x200000 1#64 s = .ret () t ∧
    ∀ va, (translate splitMap t va).map Prod.fst = (translate splitMap s va).map Prod.fst := by
  obtain ⟨s, reachable, paired, space, mapped⟩ := splitMap_tables
  obtain ⟨other, tables, settled⟩ := reachable_tables splitMap_proper reachable
  obtain ⟨_, t, returned, _⟩ := (changeRegionAttr_changes 1#64 tables (by decide) (by decide) mapped).returns (by omega)
  refine ⟨s, t, reachable, returned, fun va => ?_⟩
  exact (region_change_frame splitMap splitMap_proper s reachable (.changeRegionAttr 0x40000000 0x200000 1#64)
    (by decide) (by decide) mapped (show (1#64).getLsbD 0 = true by decide) t returned va).1

/-! ## A block between two places -/

/-- The tables of the skewed region, whose only block translates as if it began
1 MiB earlier. -/
theorem skewedMap_tables : ∃ s, Reachable skewedMap s ∧ Paired skewedMap largeMmu s ∧ 4096 ≤ pagesLeft s ∧
    ∀ va, 0x40000000 ≤ va → va < 0x40200000 → leafOf skewedMap s va = some (2, 0x80100711#64) := by
  have aligned : ∀ m ∈ regions skewedMap, PageAligned m := by
    intro m member
    obtain rfl := List.mem_singleton.mp (show m ∈ [skewed] from member)
    exact ⟨by decide, by decide, by decide, rfl⟩
  have ends : ∀ m ∈ regions skewedMap, m.virt + m.size ≤ 2 ^ 48 := by decide
  have space : TableSpace largeMmu := ⟨by decide, by decide, by decide⟩
  obtain ⟨s, built, paired⟩ := setupAllPgtables_returns aligned ends space (by decide)
  have leaf : leafOf skewedMap s 0x40000000 = some (2, 0x80100711#64) := by
    rw [leafOf_leaves paired.primary (by decide)]
    decide
  refine ⟨s, ⟨largeMmu, s, [], space, built, rfl⟩, paired, largeMmu_left paired (by decide),
    fun va low high => leafOf_same_block leaf ?_ ?_⟩
  · show 0x40000000 / 2 ^ 21 = va / 2 ^ 21
    omega
  · exact lt_of_lt_of_le high (by decide)

/-- A call on the second page of the skewed block moves the first one: the pages
that the block is cut into are where the region says, and the block was not. -/
theorem region_change_moves : ∃ s t, Reachable skewedMap s ∧ Mapped skewedMap s 0x40001000 0x1000 ∧
    mmuChangeRegionAttr skewedMap 0x40001000 0x1000 0x711#64 s = .ret () t ∧
    (translate skewedMap s 0x40000000).map Prod.fst = some 0x80000000 ∧
    (translate skewedMap t 0x40000000).map Prod.fst = some 0x80100000 := by
  obtain ⟨s, reachable, paired, space, leaves⟩ := skewedMap_tables
  have mapped : Mapped skewedMap s 0x40001000 0x1000 := by
    intro va low high
    rw [leaves va (by omega) (by omega)]
    exact Option.some_ne_none _
  obtain ⟨_, t, returned, _, changes⟩ :=
    (changeRegionAttr_changes 0x711#64 paired.primary.toTables (by decide) (by decide) mapped).returns (by omega)
  have old := leaves 0x40000000 (by decide) (by decide)
  have new := changes.piece (a := 0x40001000) (b := 0x40000000) (by decide) (by decide) (by decide) (by decide)
    (by decide) (by decide) (by decide) old
  refine ⟨s, t, reachable, mapped, returned, ?_, ?_⟩
  · rw [PageWalk.translate, old]
    decide
  · rw [PageWalk.translate, new]
    decide

end RockOs.PageTableAttributes
