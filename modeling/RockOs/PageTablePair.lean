import RockOs.PageTableChanges

/-! `setup_all_pgtables` builds the same tables twice, one set behind the other
in the table space. -/
namespace RockOs.PageTablePair
open Machine PageTables PageDescriptors PageWalk PageTableSteps PageLeaves PageTableSetup PageTableChanges RadixTable

/-- The tables at `tlb_emerg`, seen as the ones in use. -/
def emergencyOf (s : Mmu) : Mmu :=
  { s with tlbAddr := s.tlbEmerg, tlbSize := s.tlbAddr + s.tlbSize - s.tlbEmerg }

/-- Two sets of tables for the same leaves, apart from each other. -/
structure Paired (memMap : List MmRegion) (s t : Mmu) : Prop where
  addr : t.tlbAddr = s.tlbAddr
  size : t.tlbSize = s.tlbSize
  aligned : t.tlbEmerg % 4096 = 0
  first : s.tlbAddr < t.tlbEmerg
  second : t.tlbEmerg < t.tlbFillptr
  used : t.tlbFillptr ≤ s.tlbAddr + 4096 * (2 * (1 + pagesEnough (regions memMap)))
  primary : Built (startLevel memMap) (fun x => x < s.tlbAddr ∨ t.tlbEmerg ≤ x ∧ x < t.tlbFillptr) (mapLeaves memMap) t
  emergency : Built (startLevel memMap) (· < t.tlbEmerg) (mapLeaves memMap) (emergencyOf t)

section Setup
variable {memMap : List MmRegion} {s t : Mmu} {start : Nat} {m : Leaves}

/-- The first table is filled. -/
theorem built_filled {other : Nat → Prop} (built : Built start other m s) (top : start ≤ 1) :
    s.tlbAddr < s.tlbFillptr := by
  have some : 0 < (slots start s 0).length := by
    rw [← entries_length]
    exact List.length_pos_of_ne_nil (entriesFrom_ne_nil (by omega))
  have visited : (slots start s 0)[0]? = Option.some (format.slot start s.tlbAddr 0) := by
    rw [slots, pathFrom, levelsFrom_cons (by omega), path_cons, List.getElem?_cons_zero]
  have inside := built.slot_inside (show InReach start 0 from Nat.two_pow_pos _) visited
  have bound := format.slot_inside start s.tlbAddr 0
  omega

private theorem built_congr {other : Nat → Prop} (built : Built start other m s) (mem : t.mem = s.mem)
    (addr : t.tlbAddr = s.tlbAddr) (size : t.tlbSize = s.tlbSize) (fill : t.tlbFillptr = s.tlbFillptr) :
    Built start other m t := by
  obtain ⟨⟨⟨aligned, low, high, fits⟩, outside, tree⟩, clean⟩ := built
  obtain ⟨_, _, _, _, _⟩ := t
  cases mem
  cases addr
  cases size
  cases fill
  exact ⟨⟨⟨aligned, low, high, fits⟩, outside, tree⟩, clean⟩

/-- The tables are still there once more of the space is used. -/
theorem built_framed (built : Built start (· < s.tlbAddr) m s) (addr : t.tlbAddr = s.tlbAddr)
    (size : t.tlbSize = s.tlbSize) (aligned : t.tlbFillptr % 4096 = 0) (more : s.tlbFillptr ≤ t.tlbFillptr)
    (used : t.tlbFillptr ≤ t.tlbAddr + t.tlbSize) (same : ∀ x < s.tlbFillptr, t.mem x = s.mem x) :
    Built start (fun x => x < s.tlbAddr ∨ s.tlbFillptr ≤ x ∧ x < t.tlbFillptr) m t := by
  obtain ⟨⟨⟨_, low, _, fits⟩, _, tree⟩, clean⟩ := built
  obtain ⟨framed, walks⟩ := tree.frame (fun x own => same x own.1)
  refine ⟨⟨⟨aligned, by omega, used, by omega⟩, fun x foreign => by omega, ?_⟩, fun b reach => ?_⟩
  · rw [addr]
    refine framed.of_shorter (fun _ member => member) (fun x own => ?_) (fun _ _ _ _ met => met)
    obtain ⟨below, mine⟩ := own
    exact ⟨by omega, by omega⟩
  · rw [entries, entriesFrom, addr, walks b reach]
    exact clean b reach

theorem setupAllPgtables_spec (aligned : ∀ m ∈ regions memMap, PageAligned m)
    (ends : ∀ m ∈ regions memMap, m.virt + m.size ≤ 2 ^ 48) (space : TableSpace s) :
    (setupAllPgtables memMap s).Ends
      (fun reason => reason = .insufficientRam ∧ s.tlbSize < 4096 * (2 * (1 + pagesEnough (regions memMap))))
      (fun _ t => Paired memMap s t) := by
  have top : startLevel memMap ≤ 1 := startLevel_le
  have fits := space.fits
  have nonzero := space.nonzero
  unfold setupAllPgtables
  rw [read_bind, write_bind]
  have reserved : Reserved { s with tlbFillptr := s.tlbAddr } := ⟨⟨nonzero, space.aligned, fits⟩, rfl⟩
  have build := setupPgtables_spec aligned ends reserved
  refine Outcome.Ends.bind (Outcome.Ends.mono build (fun reason stopped => ⟨stopped.1, ?_⟩) (fun _ _ holds => holds))
    (fun _ first _ holds => ?_)
  · have short := stopped.2
    unfold pagesLeft at short
    simp only at short
    omega
  · obtain ⟨within, built⟩ := holds
    have addr : first.tlbAddr = s.tlbAddr := within.addr
    have size : first.tlbSize = s.tlbSize := within.size
    have used : first.tlbFillptr ≤ s.tlbAddr + 4096 * (1 + pagesEnough (regions memMap)) := within.used
    have filled : first.tlbAddr < first.tlbFillptr := built_filled built top
    have high := built.high
    rw [read_bind, write_bind]
    have left : (first.tlbSize + 2 ^ 64 - (first.tlbFillptr + 2 ^ 64 - first.tlbAddr) % 2 ^ 64) % 2 ^ 64 =
        first.tlbAddr + first.tlbSize - first.tlbFillptr := by omega
    rw [left]
    have again : Reserved { first with
        tlbSize := first.tlbAddr + first.tlbSize - first.tlbFillptr, tlbAddr := first.tlbFillptr } :=
      ⟨⟨by simp only; omega, built.aligned, by simp only; omega⟩, rfl⟩
    have rebuild := setupPgtables_spec aligned ends again
    refine Outcome.Ends.bind (Outcome.Ends.mono rebuild (fun reason stopped => ⟨stopped.1, ?_⟩) (fun _ _ holds => holds))
      (fun _ second _ holds => ?_)
    · have short := stopped.2
      unfold pagesLeft at short
      simp only at short
      omega
    · obtain ⟨more, emergency⟩ := holds
      have root : second.tlbAddr = first.tlbFillptr := more.addr
      have rest : second.tlbSize = first.tlbAddr + first.tlbSize - first.tlbFillptr := more.size
      have further : second.tlbAddr < second.tlbFillptr := built_filled emergency top
      have bound := emergency.high
      have usedMore : second.tlbFillptr ≤ first.tlbFillptr + 4096 * (1 + pagesEnough (regions memMap)) := more.used
      rw [read_bind, write_apply, ends_ret]
      have aligned := built.aligned
      refine ⟨rfl, rfl, by simp only; omega, by simp only; omega, by simp only; omega, by simp only; omega, ?_, ?_⟩
      · have same : ∀ x < first.tlbFillptr, second.mem x = first.mem x := more.kept
        have based : Built (startLevel memMap) (· < first.tlbAddr) (mapLeaves memMap) first := by
          rw [addr]
          exact built
        have primary := built_framed (t := { second with
          tlbEmerg := second.tlbAddr, tlbAddr := s.tlbAddr, tlbSize := s.tlbSize }) based addr.symm size.symm
          emergency.aligned (by simp only; omega) (by simp only; omega) same
        rw [addr, ← root] at primary
        exact primary
      · have whole : s.tlbAddr + s.tlbSize - second.tlbAddr = second.tlbSize := by omega
        have again := built_congr (t := emergencyOf { second with
          tlbEmerg := second.tlbAddr, tlbAddr := s.tlbAddr, tlbSize := s.tlbSize }) emergency rfl rfl whole rfl
        simpa only [root] using again

/-- With enough space both sets are built. -/
theorem setupAllPgtables_returns (aligned : ∀ m ∈ regions memMap, PageAligned m)
    (ends : ∀ m ∈ regions memMap, m.virt + m.size ≤ 2 ^ 48) (space : TableSpace s)
    (enough : 4096 * (2 * (1 + pagesEnough (regions memMap))) ≤ s.tlbSize) :
    ∃ t, setupAllPgtables memMap s = .ret () t ∧ Paired memMap s t := by
  have builds := setupAllPgtables_spec aligned ends space
  cases outcome : setupAllPgtables memMap s with
  | ret value t =>
    rw [outcome] at builds
    exact ⟨t, rfl, builds⟩
  | panic reason t =>
    rw [outcome] at builds
    exact absurd builds.2 (Nat.not_lt.mpr enough)
  | fault | hang =>
    rw [outcome] at builds
    exact builds.elim

end Setup

/-! ## Table pages -/

/-- The pages that entries lead to from a first table. Bit 1 decides, so that a
table whose entry is invalid for a while still counts. -/
def TablePage (memMap : List MmRegion) (mem : Nat → BitVec 64) (root page : Nat) : Prop :=
  ∃ k, format.Reaches mem (4 - startLevel memMap) root k page

section Pages
variable {memMap : List MmRegion} {mem : Nat → BitVec 64} {s : Mmu} {start : Nat}

/-- Entry `i` of the table whose block holds `a`. -/
private theorem entry_of_block (a : Nat) (positive : 0 < width) (small : i < 512) :
    (a / (width * 512) * (width * 512) + i * width) / (width * 512) = a / (width * 512) ∧
      (a / (width * 512) * (width * 512) + i * width) / width % 512 = i := by
  have entry : (a / (width * 512) * (width * 512) + i * width) / width = a / (width * 512) * 512 + i := by
    rw [Nat.mul_comm width 512, ← Nat.mul_assoc, ← Nat.add_mul, Nat.mul_div_cancel _ positive]
  constructor
  · rw [← Nat.div_div_eq_div_mul, entry]
    omega
  · rw [entry]
    omega

/-- Within reach of the first table there is an address for every choice of
entries. -/
theorem format_full : format.Full (levelsFrom start) (InReach start) := by
  intro a reach k level here i small
  obtain ⟨inside, rfl⟩ : k < 4 - start ∧ level = start + k := by
    have inside := (List.getElem?_eq_some_iff.mp here).1
    rw [levelsFrom, List.length_range'] at inside
    refine ⟨inside, ?_⟩
    rw [levelsFrom_get (by omega), Option.some.injEq] at here
    exact here.symm
  have shift : level2shift start = level2shift (start + k : Nat) + 9 * k := by
    rw [level2shift_eq (by omega), level2shift_eq (by omega)]
    omega
  have span : 2 ^ (level2shift (start + k : Nat) + 9) = 2 ^ level2shift (start + k : Nat) * 512 := Nat.pow_add 2 _ 9
  obtain ⟨blocks, total⟩ : 2 ^ level2shift (start + k : Nat) * 512 ∣ 2 ^ (level2shift start + 9) := by
    rw [← span]
    exact Nat.pow_dvd_pow 2 (by omega)
  obtain ⟨block, entry⟩ := entry_of_block a (Nat.two_pow_pos (level2shift (start + k : Nat))) small
  have positive : 0 < 2 ^ level2shift (start + k : Nat) * 512 := by
    rw [← span]
    exact Nat.two_pow_pos _
  have inReach : a < 2 ^ (level2shift start + 9) := reach
  generalize a / (2 ^ level2shift (start + k : Nat) * 512) * (2 ^ level2shift (start + k : Nat) * 512) +
    i * 2 ^ level2shift (start + k : Nat) = b at block entry
  have reachB : b < 2 ^ (level2shift start + 9) := by
    rw [total, Nat.mul_comm, ← Nat.div_lt_iff_lt_mul positive] at inReach ⊢
    rw [block]
    exact inReach
  refine ⟨b, reachB, ?_, ?_⟩
  · cases k with
    | zero => exact fun _ none => by simp at none
    | succ k =>
      have above : level2shift (start + k : Nat) = level2shift (start + (k + 1) : Nat) + 9 := shift_succ (by omega)
      rw [same_iff (by omega) inReach reachB, above, span]
      exact block.symm
  · rw [index_eq]
    exact entry

theorem page_aligned (root : s.tlbAddr % 4096 = 0) (page : TablePage memMap s.mem s.tlbAddr p) : p % 4096 = 0 := by
  obtain ⟨_, reached⟩ := page
  cases reached with
  | root => exact root
  | @step _ table i _ reached deeper small leads =>
    cases set : (s.mem (table + format.width * i)).getLsbD 1 with
    | false =>
      rw [child_of_leaf set] at leads
      cases leads
    | true =>
      rw [child_of_table set, Option.some.injEq] at leads
      rw [← leads]
      exact nextTable_aligned _

/-- The table pages lie in the filled part of the space. -/
theorem page_inside {other : Nat → Prop} (tables : MapTables memMap other s)
    (page : TablePage memMap s.mem s.tlbAddr p) (small : i < 512) : Own other s (p + 8 * i) := by
  obtain ⟨k, reached⟩ := page
  have top : startLevel memMap ≤ 1 := startLevel_le
  have length : (levelsFrom (startLevel memMap)).length = 4 - startLevel memMap := List.length_range'
  rw [← length] at reached
  exact tables.tree.reaches_inside format_full (show InReach _ 0 from Nat.two_pow_pos _) reached (by omega) small

end Pages

/-! ## Both sets of tables -/

section Both
variable {memMap : List MmRegion} {s t : Mmu}

theorem Paired.translate_eq (paired : Paired memMap s t) (va : Nat) :
    translate memMap (emergencyOf t) va = translate memMap t va := by
  by_cases inside : va < 2 ^ (getTcr memMap 0).vaBits
  · rw [translate_leaves paired.emergency inside, translate_leaves paired.primary inside]
  · rw [translate_outside (by omega), translate_outside (by omega)]

/-- The primary tables end before the emergency tables begin. -/
theorem Paired.primary_page (paired : Paired memMap s t) (space : TableSpace s)
    (page : TablePage memMap t.mem t.tlbAddr p) : s.tlbAddr ≤ p ∧ p + 4096 ≤ t.tlbEmerg := by
  have tables := paired.primary.toTables
  have pages : p % 4096 = 0 := page_aligned (by rw [paired.addr]; exact space.aligned) page
  have aligned := paired.aligned
  obtain ⟨below, mine⟩ := page_inside tables page (show 0 < 512 by decide)
  obtain ⟨belowLast, mineLast⟩ := page_inside tables page (show 511 < 512 by decide)
  omega

private theorem Paired.emergency_page (paired : Paired memMap s t) (page : TablePage memMap t.mem t.tlbEmerg p) :
    t.tlbEmerg ≤ p ∧ p + 4096 ≤ t.tlbFillptr := by
  have tables := paired.emergency.toTables
  have page : TablePage memMap (emergencyOf t).mem (emergencyOf t).tlbAddr p := page
  have pages : p % 4096 = 0 := page_aligned paired.aligned page
  have aligned : t.tlbFillptr % 4096 = 0 := paired.emergency.aligned
  obtain ⟨below, mine⟩ := page_inside tables page (show 0 < 512 by decide)
  obtain ⟨belowLast, mineLast⟩ := page_inside tables page (show 511 < 512 by decide)
  have lastSlot : p + 8 * 511 < t.tlbFillptr := belowLast
  omega

/-- After a run of calls the emergency tables are what they were, and so they
are wherever the next call stops or is stopped. -/
theorem Paired.emergency_kept (paired : Paired memMap s t) (calls : List Call)
    (ran : run (Call.step memMap) t calls = some u) (low : t.tlbEmerg ≤ x) (high : x < t.tlbFillptr) (call : Call) :
    (call.code memMap u).Guards (fun v => v.mem x = t.mem x) (fun _ _ => True) ∧
      ∀ count, (call.turns memMap count u).Guards (fun v => v.mem x = t.mem x) (fun _ _ => True) := by
  have later := run_later paired.primary.toTables calls ran
  have before : u.mem x = t.mem x := later.kept x (.inr ⟨low, high⟩)
  constructor
  · exact (call_guards later.tables call).mono (fun v kept => (kept x (.inr ⟨low, high⟩)).trans before)
      (fun _ _ _ => trivial)
  · intro count
    exact (turns_guards later.tables count call).mono (fun v kept => (kept x (.inr ⟨low, high⟩)).trans before)
      (fun _ _ _ => trivial)

/-- The primary and the emergency tables agree and have no page in common, and
calls that change a region leave the emergency tables alone. -/
theorem emergency_tables_agree (memMap : List MmRegion) (aligned : ∀ m ∈ regions memMap, PageAligned m)
    (ends : ∀ m ∈ regions memMap, m.virt + m.size ≤ 2 ^ 48) (s : Mmu) (space : TableSpace s) :
    (4096 * (2 * (1 + pagesEnough (regions memMap))) ≤ s.tlbSize → ∃ t, setupAllPgtables memMap s = .ret () t) ∧
      ∀ t, setupAllPgtables memMap s = .ret () t →
        t.tlbAddr = s.tlbAddr ∧ t.tlbSize = s.tlbSize ∧
        (∀ va, translate memMap (emergencyOf t) va = translate memMap t va) ∧
        (∀ p, TablePage memMap t.mem t.tlbAddr p → s.tlbAddr ≤ p ∧ p + 4096 ≤ t.tlbEmerg) ∧
        (∀ p, TablePage memMap t.mem t.tlbEmerg p → t.tlbEmerg ≤ p ∧ p + 4096 ≤ s.tlbAddr + s.tlbSize) ∧
        ∀ calls u, run (Call.step memMap) t calls = some u → u.tlbEmerg = t.tlbEmerg ∧
          ∀ p, TablePage memMap t.mem t.tlbEmerg p → ∀ x, p ≤ x → x < p + 4096 → ∀ call : Call,
            (call.code memMap u).Guards (fun v => v.mem x = t.mem x) (fun _ _ => True) ∧
              ∀ count, (call.turns memMap count u).Guards (fun v => v.mem x = t.mem x) (fun _ _ => True) := by
  constructor
  · intro enough
    obtain ⟨t, returned, _⟩ := setupAllPgtables_returns aligned ends space enough
    exact ⟨t, returned⟩
  · intro t returned
    have builds := setupAllPgtables_spec aligned ends space
    rw [returned, ends_ret] at builds
    have paired : Paired memMap s t := builds
    have high := paired.primary.high
    rw [paired.addr, paired.size] at high
    refine ⟨paired.addr, paired.size, paired.translate_eq, fun p => paired.primary_page space, fun p page => ?_,
      fun calls u ran => ⟨?_, fun p page x low upper => ?_⟩⟩
    · obtain ⟨first, last⟩ := paired.emergency_page page
      exact ⟨first, last.trans high⟩
    · obtain ⟨_, within⟩ := (run_later paired.primary.toTables calls ran).within
      exact within.emerg
    · obtain ⟨first, last⟩ := paired.emergency_page page
      exact paired.emergency_kept calls ran (first.trans low) (lt_of_lt_of_le upper last)

end Both

theorem emergency_tables_agree_overlap :
    ∃ t, setupAllPgtables overlapMap { blankMmu with tlbSize := 0x20000 } = .ret () t ∧
    t.tlbAddr = 0x10000 ∧ translate overlapMap (emergencyOf t) 0x40000010 = translate overlapMap t 0x40000010 := by
  obtain ⟨returns, agree⟩ := emergency_tables_agree overlapMap
    (fun m member => pageAligned_of_proper (overlapMap_proper m member))
    (fun m member => (overlapMap_proper m member).virtEnd) { blankMmu with tlbSize := 0x20000 }
    ⟨by decide, by decide, by decide⟩
  obtain ⟨t, returned⟩ := returns (by decide)
  obtain ⟨addr, _, same, _⟩ := agree t returned
  exact ⟨t, returned, addr, same _⟩

/-- A region whose attributes have bit 1 set. -/
def tableBitMap : List MmRegion :=
  [{ virt := 0x40000000, phys := 0x80000000, size := 0x40000000, attrs := 0x2#64 },
    { virt := 0, phys := 0, size := 0, attrs := 0#64 }]

private theorem tableBitMap_built :
    (setupAllPgtables tableBitMap blankMmu).after?.map
      (fun t => (t.tlbAddr, t.tlbSize, t.tlbEmerg, t.mem 0x10008, t.mem 0x11008)) =
        some (0x10000, 0x10000, 0x11000, 0x80000403#64, 0x80000403#64) := by
  decide +kernel

/-- The block of such a region reads as a table descriptor: the memory that the
region maps becomes a table page of both sets, outside the table space. -/
theorem emergency_tables_shared :
    (∀ m ∈ regions tableBitMap, m.virt % 4096 = 0 ∧ m.phys % 4096 = 0 ∧ m.size % 4096 = 0 ∧ m.virt + m.size ≤ 2 ^ 48) ∧
      TableSpace blankMmu ∧
      ∃ t, setupAllPgtables tableBitMap blankMmu = .ret () t ∧
        TablePage tableBitMap t.mem t.tlbAddr 0x80000000 ∧ TablePage tableBitMap t.mem t.tlbEmerg 0x80000000 ∧
        t.tlbAddr + t.tlbSize ≤ 0x80000000 := by
  refine ⟨by decide, ⟨by decide, by decide, by decide⟩, ?_⟩
  obtain ⟨t, after, seen⟩ := Option.map_eq_some_iff.mp tableBitMap_built
  obtain ⟨_, returned⟩ := Outcome.ret_of_after after
  simp only [Prod.mk.injEq] at seen
  obtain ⟨addr, size, emerg, first, second⟩ := seen
  have leads : ∀ root, t.mem (root + 8) = 0x80000403#64 → TablePage tableBitMap t.mem root 0x80000000 := by
    intro root entry
    refine ⟨1, .step (i := 1) .root (by decide) (by decide) ?_⟩
    rw [show root + format.width * 1 = root + 8 from rfl, entry]
    decide
  refine ⟨t, returned, leads _ ?_, leads _ ?_, by rw [addr, size]; decide⟩
  · rw [addr]
    exact first
  · rw [emerg]
    exact second

end RockOs.PageTablePair
