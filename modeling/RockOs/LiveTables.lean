import RockOs.CacheRanges
import RockOs.TableStores
import RockOs.TableSwitch

/-! `mmu_change_region_attr` and `mmu_set_region_dcache_behaviour` beside the
hardware that walks the tables meanwhile. The first one changes the tables that
are in use, in two passes with an invalidation of the TLB behind each. It takes
hardware whose walks see stores in program order: `split_block` fills its new table
and enters it without a barrier in between. The second one makes the hardware walk
the emergency tables before it changes anything, and in whatever order walks see
its stores, they are seen when the hardware comes back. -/
namespace RockOs.LiveTables
open Machine Aarch64 PageTables PageDescriptors PageWalk PageTableSteps PageTableSetup PageTableChanges PageTablePair
open PageLeaves PageTableRegions PageTablePasses PageTableAttributes CacheRanges TranslationUnit TableSwitch TableStores

/-- An address and what it translates to. -/
abbrev Entry := Nat × (Nat × BitVec 64)

/-- What walks find in tables at an address. -/
def viewOf (memMap : List MmRegion) (mem : Nat → BitVec 64) (table : Word) : Set Entry :=
  {e | seen memMap table.toNat mem e.1 = some e.2}

/-- What the base register holds while the tables are in use. -/
def root (s : Mmu) : Word := BitVec.ofNat 64 s.tlbAddr

/-- Hardware that walks such tables. -/
def tableHardware (memMap : List MmRegion) (el : El) (inOrder : Bool) : Hardware (Nat → BitVec 64) Entry :=
  ⟨el, viewOf memMap, inOrder⟩

def Store.effect (store : Store) (mem : Nat → BitVec 64) : Nat → BitVec 64 := store.apply mem

def storeActions (stores : List Store) : List (Action (Nat → BitVec 64)) := (stores.map Store.effect).map .store

/-- `flush_dcache_range`, with lines of `2 ^ bits` bytes. -/
def flushDcacheRange (bits start stop : Nat) : List Event := lineEvents .civac bits start (stop % 2 ^ 64)

/-- `__asm_invalidate_tlb_all`. -/
def invalidateTlb (el : El) : List Event := [.tlbi (tlbiOf el), .dsb, .isb]

/-- What follows each pass of `mmu_change_region_attr`. -/
def settleTables (el : El) (bits : Nat) (s : Mmu) : List (Action (Nat → BitVec 64)) :=
  (flushDcacheRange bits s.tlbAddr (s.tlbAddr + s.tlbSize)).map .event ++ (invalidateTlb el).map .event

def changeRegionAttrActions (memMap : List MmRegion) (el : El) (bits addr siz : Nat) (attrs : BitVec 64) (s : Mmu) :
    List (Action (Nat → BitVec 64)) :=
  storeActions (setRegionStores memMap pteTypeFault true (siz / 4096 + 3) addr siz s) ++
    match setRegion memMap pteTypeFault true (siz / 4096 + 3) addr siz s with
    | .ret _ t => settleTables el bits t ++
      storeActions (setRegionStores memMap attrs true (siz / 4096 + 3) addr siz t) ++ settleTables el bits t
    | _ => []

/-- The attributes that `mmu_set_region_dcache_behaviour` sets. -/
def optionAttrs (option : Nat) : BitVec 64 := BitVec.ofNat 64 (option <<< 2 % 2 ^ 32)

/-- `control` is the system control register, which a switch leaves as it was. -/
def setRegionDcacheBehaviourActions (memMap : List MmRegion) (el : El) (control : Word) (bits start size option : Nat)
    (s : Mmu) : List (Action (Nat → BitVec 64)) :=
  (switchEvents el control (BitVec.ofNat 64 s.tlbEmerg)).map .event ++
    storeActions (setRegionStores memMap (optionAttrs option) false (size / 4096 + 3) start size s) ++
    match setRegion memMap (optionAttrs option) false (size / 4096 + 3) start size s with
    | .ret _ t => (switchEvents el control (root t)).map .event ++
      (flushDcacheRange bits start (start + size)).map .event
    | _ => []

/-! ## Passes -/

section Passes
variable {memMap : List MmRegion} {mem last : Nat → BitVec 64} {table : Word} {bound : Set Entry}
  {hw : Hardware (Nat → BitVec 64) Entry} {w : Walker (Nat → BitVec 64) Entry} {stores : List Store} {on : Bool}

private theorem whole_effects (mem : Nat → BitVec 64) (stores : List Store) :
    Memory.whole ⟨mem, stores.map Store.effect⟩ = after mem stores := by
  rw [Memory.whole, List.foldl_map]
  rfl

private theorem pending_of_throughout {P : (Nat → BitVec 64) → Prop} (shown : Throughout P stores mem) :
    Pending true P (after mem stores) ⟨mem, stores.map Store.effect⟩ := by
  induction stores generalizing mem with
  | nil => exact pending_nil shown
  | cons store stores ih => exact pending_cons shown.1 (ih shown.2)

/-- Stores to tables in use that never show more than `bound`. -/
private theorem stores_guarded (hw : Hardware (Nat → BitVec 64) Entry) (ordered : hw.inOrder = true)
    (shown : Throughout (fun mem => hw.find mem table ⊆ bound) stores mem) (steady : Steady hw on table mem w) :
    Guarded hw (fun v => v.tlb ⊆ bound) (Walks hw on table bound (after mem stores) []) (storeActions stores) w := by
  have pending := pending_of_throughout shown
  rw [← ordered] at pending
  exact .storing walks_stable (fun _ _ holds => holds.cached) (fun _ _ _ holds => holds.act_store) (steady.walks pending)

/-- Stores to other tables than those in use, in whatever order they are seen. -/
private theorem stores_apart {cells : Nat → Prop} (avoid : ∀ store ∈ stores, store.Avoids cells)
    (framed : ∀ now, (∀ x, cells x → now x = mem x) → hw.find now table = hw.find mem table)
    (steady : Steady hw on table mem w) :
    Guarded hw (fun v => v.Coherent hw ∧ v.found hw = hw.find mem table)
      (Resting hw table (hw.find mem table) (after mem stores) []) (storeActions stores) w := by
  have kept : Pending hw.inOrder (fun now => ∀ x, cells x → now x = mem x) (after mem stores)
      ⟨mem, stores.map Store.effect⟩ := by
    rw [← whole_effects]
    refine pending_of_keeps (fun _ _ => rfl) (fun effect member now same x inside => ?_)
    obtain ⟨store, here, rfl⟩ := List.mem_map.mp member
    rw [Store.effect, (avoid store here).apply inside, same x inside]
  exact .storing resting_stable (fun _ _ holds => ⟨holds.coherent, holds.found_eq⟩) (fun _ _ _ holds => holds.act_store)
    (steady.quiet.resting (kept.mono framed))

private theorem flush_guarded (bits start stop : Nat) (walks : Walks hw on table bound last [] w) :
    Guarded hw (fun v => v.tlb ⊆ bound) (Drained hw on table bound last)
      ((flushDcacheRange bits start stop).map .event) w := by
  rw [flushDcacheRange, lineEvents, List.map_append]
  refine Guarded.append (Q := Walks hw on table bound last []) (.keeps (walks_stable []) (fun v holds => holds.cached)
    (fun action member v holds => ?_) walks) (fun v walks => ?_)
  · obtain ⟨event, inside, rfl⟩ := List.mem_map.mp member
    obtain ⟨_, _, rfl⟩ := List.mem_map.mp inside
    exact holds
  · refine .cons (walks_stable []) walks (fun v holds => holds.cached) (fun w walks => ?_)
    exact .nil drained_stable (walks.dsb hw.el) (fun v holds => holds.cached) (fun v holds => holds)

private theorem settle_guarded (bits : Nat) (s : Mmu) (above : hw.el ≠ 0) (walks : Walks hw on table bound last [] w) :
    Guarded hw (fun v => v.tlb ⊆ bound) (Steady hw on table last) (settleTables hw.el bits s) w :=
  (flush_guarded _ _ _ walks).append (fun _ drained => drained.invalidate _ (tlbiLevel_tlbiOf hw.el above))

private theorem viewOf_subset {now : Nat → BitVec 64} (root : table.toNat = addr)
    (shown : ∀ va, seen memMap addr now va = none ∨ seen memMap addr now va = seen memMap addr mem va) :
    viewOf memMap now table ⊆ viewOf memMap mem table := by
  intro e found
  have here : seen memMap addr now e.1 = some e.2 := by
    rw [← root]
    exact found
  show seen memMap table.toNat mem e.1 = some e.2
  rw [root]
  rcases shown e.1 with nothing | same
  · rw [nothing] at here
    cases here
  · rw [← same, here]

end Passes

/-! ## Break before make -/

private theorem root_toNat {s : Mmu} (fits : s.tlbAddr + s.tlbSize ≤ 2 ^ 48) : (root s).toNat = s.tlbAddr := by
  rw [root, BitVec.toNat_ofNat]
  omega

/-- While `mmu_change_region_attr` changes the tables that are in use, whatever
the hardware does meanwhile, the TLB never holds translations from before the
change beside translations from after it, and at the end it holds no old ones. -/
theorem change_region_attr_breaks_before_making (memMap : List MmRegion) (proper : ∀ m ∈ regions memMap, Proper m)
    (s : Mmu) (reachable : Reachable memMap s) (addr siz : Nat) (attrs : BitVec 64) (page : addr % 4096 = 0)
    (pages : siz % 4096 = 0) (mapped : Mapped memMap s addr siz) (t : Mmu)
    (returned : mmuChangeRegionAttr memMap addr siz attrs s = .ret () t) (el : El) (above : el ≠ 0) (bits : Nat)
    (on : Bool) (w : Walker (Nat → BitVec 64) Entry)
    (steady : Steady (tableHardware memMap el true) on (root s) s.mem w) :
    Guarded (tableHardware memMap el true)
      (fun v => v.tlb ⊆ viewOf memMap s.mem (root s) ∨ v.tlb ⊆ viewOf memMap t.mem (root s))
      (Steady (tableHardware memMap el true) on (root s) t.mem)
      (changeRegionAttrActions memMap el bits addr siz attrs s) w := by
  obtain ⟨other, tables, settled⟩ := reachable_tables proper reachable
  obtain ⟨between, faulted, set, _, first, second⟩ := changeRegionAttr_amid tables settled page pages mapped returned
  have old := first.mono (fun mem shown => viewOf_subset (root_toNat tables.fits) shown)
  have new := second.mono (fun mem shown => viewOf_subset (root_toNat tables.fits) shown)
  have made := (setRegion_traced _ _ _ _ _).of_ret faulted
  have madeNext := (setRegion_traced _ _ _ _ _).of_ret set
  unfold changeRegionAttrActions
  rw [faulted]
  simp only [List.append_assoc]
  have before := stores_guarded (tableHardware memMap el true) rfl old steady
  rw [← made] at before
  refine (before.mono (fun _ holds => Or.inl holds) (fun _ holds => holds)).append (fun w walks => ?_)
  refine ((settle_guarded bits between above walks).mono (fun _ holds => Or.inl holds)
    (fun _ holds => holds)).append (fun w steady => ?_)
  have change := stores_guarded (tableHardware memMap el true) rfl new steady
  rw [← madeNext] at change
  refine (change.mono (fun _ holds => Or.inr holds) (fun _ holds => holds)).append (fun w walks => ?_)
  exact (settle_guarded bits between above walks).mono (fun _ holds => Or.inr holds) (fun _ holds => holds)

/-- Hardware that translates with the tables in use and has cached all of them. -/
def warmWalker (memMap : List MmRegion) (s : Mmu) : Walker (Nat → BitVec 64) Entry where
  on := true
  table := root s
  late := []
  memory := ⟨s.mem, []⟩
  tlb := viewOf memMap s.mem (root s)
  doomed := ∅

theorem change_region_attr_breaks_before_making_block : ∃ s t, Reachable splitMap s ∧
    mmuChangeRegionAttr splitMap 0x40000000 0x200000 1#64 s = .ret () t ∧
    Guarded (tableHardware splitMap 2 true)
      (fun v => v.tlb ⊆ viewOf splitMap s.mem (root s) ∨ v.tlb ⊆ viewOf splitMap t.mem (root s))
      (fun v => v.tlb ⊆ viewOf splitMap t.mem (root s))
      (changeRegionAttrActions splitMap 2 6 0x40000000 0x200000 1#64 s) (warmWalker splitMap s) := by
  obtain ⟨s, reachable, _, space, mapped⟩ := splitMap_tables
  obtain ⟨other, tables, _⟩ := reachable_tables splitMap_proper reachable
  obtain ⟨_, t, returned, _⟩ := (changeRegionAttr_changes 1#64 tables (by decide) (by decide) mapped).returns (by omega)
  have guarded := change_region_attr_breaks_before_making splitMap splitMap_proper s reachable 0x40000000 0x200000 1#64
    (by decide) (by decide) mapped t returned 2 (by decide) 6 true (warmWalker splitMap s)
      ⟨rfl, rfl, rfl, rfl, subset_rfl⟩
  exact ⟨s, t, reachable, returned, guarded.mono (fun _ holds => holds) (fun _ steady => steady.cached)⟩

/-! ## Blocks that are split -/

/-- What walks find, as the leaves that are cached. -/
def leafView (memMap : List MmRegion) (mem : Nat → BitVec 64) (table : Word) : Set Entry :=
  {e | leafOf memMap { mem, tlbAddr := table.toNat, tlbSize := 0, tlbFillptr := 0, tlbEmerg := 0 } e.1 = some e.2}

/-- Hardware that caches leaves. -/
def leafHardware (memMap : List MmRegion) (el : El) (inOrder : Bool) : Hardware (Nat → BitVec 64) Entry :=
  ⟨el, leafView memMap, inOrder⟩

/-- Translation by these tables is on, and no store is on its way. -/
structure Running (table : Word) (mem : Nat → BitVec 64) (w : Walker (Nat → BitVec 64) Entry) : Prop where
  on : w.on = true
  based : w.table = table
  memory : w.memory = ⟨mem, []⟩

/-- What is cached in front of stores may still be there behind them, beside what
they made. -/
private theorem stores_both (hw : Hardware (Nat → BitVec 64) Entry) {w : Walker (Nat → BitVec 64) Entry}
    {more : List (Action (Nat → BitVec 64))} (running : Running table mem w) (old : (va, a) ∈ hw.find mem table)
    (new : (va, b) ∈ hw.find (after mem stores) table) :
    ∃ v, Comes hw (storeActions stores ++ more) w v ∧ (va, a) ∈ v.tlb ∧ (va, b) ∈ v.tlb := by
  obtain ⟨on, rfl, memory⟩ := running
  obtain ⟨v, first, onV, basedV, memoryV, cachedV⟩ := drifts_fill hw (e := (va, a)) on
    (by rw [Walker.found, memory]; exact old)
  -- the walks see the stores only when all of them are made
  have waiting := foldl_store hw.el (stores.map Store.effect) v
  have seen := drifts_whole hw { v with memory := v.memory.push (stores.map Store.effect) }
  have whole : (v.memory.push (stores.map Store.effect)).whole = after mem stores := by
    rw [memoryV, memory]
    exact whole_effects mem stores
  rw [whole] at seen
  obtain ⟨u, second, _, _, _, cachedU⟩ := drifts_fill hw (e := (va, b))
    (w := { v with memory := ⟨after mem stores, []⟩ }) (onV.trans on) (by rw [Walker.found, basedV]; exact new)
  have comes : Comes hw (storeActions stores ++ more) v u := .skip (by
    rw [storeActions, waiting]
    exact .here (seen.trans second))
  refine ⟨u, comes.drift first, ?_, ?_⟩
  · rw [cachedU, cachedV]
    exact .inr (.inl rfl)
  · rw [cachedU]
    exact .inl rfl

/-- A block that `mmu_change_region_attr` has to split is not broken before it is
made anew: for an address outside the range the leaf in front of the call and the
leaf behind it can be cached at the same time. -/
theorem change_region_attr_splits_live (memMap : List MmRegion) (proper : ∀ m ∈ regions memMap, Proper m) (s : Mmu)
    (reachable : Reachable memMap s) (addr siz : Nat) (attrs : BitVec 64) (page : addr % 4096 = 0)
    (pages : siz % 4096 = 0) (mapped : Mapped memMap s addr siz) (t : Mmu)
    (returned : mmuChangeRegionAttr memMap addr siz attrs s = .ret () t) (va : Nat)
    (out : ¬ (addr ≤ va ∧ va < addr + siz)) (old new : Nat × BitVec 64) (before : leafOf memMap s va = some old)
    (behind : leafOf memMap t va = some new) (el : El) (inOrder : Bool) (bits : Nat)
    (w : Walker (Nat → BitVec 64) Entry) (running : Running (root s) s.mem w) :
    ∃ v, Comes (leafHardware memMap el inOrder) (changeRegionAttrActions memMap el bits addr siz attrs s) w v ∧
      (va, old) ∈ v.tlb ∧ (va, new) ∈ v.tlb := by
  obtain ⟨other, tables, settled⟩ := reachable_tables proper reachable
  obtain ⟨between, faulted, _, still, _⟩ := changeRegionAttr_amid tables settled page pages mapped returned
  have based := root_toNat tables.fits
  have made := (setRegion_traced _ _ _ _ _).of_ret faulted
  have inside := inside_of_leaf before
  have addrNext : between.tlbAddr = s.tlbAddr := by
    have guards := setRegion_guards tables pteTypeFault true (siz / 4096 + 3) addr siz
    rw [faulted] at guards
    obtain ⟨_, within⟩ := guards.2.within
    exact within.addr
  have first : (va, old) ∈ leafView memMap s.mem (root s) := by
    show leafOf memMap _ va = some old
    rw [← before, based]
    rfl
  have second : (va, new) ∈ leafView memMap between.mem (root s) := by
    show leafOf memMap _ va = some new
    rw [← behind, leafOf_eq inside, leafOf_eq inside, based, ← addrNext]
    exact congrArg (decode _) (still va (PageWalk.reach inside) out).symm
  unfold changeRegionAttrActions
  exact stores_both (leafHardware memMap el inOrder) running first (by rw [← made]; exact second)

/-- A page at the start of a block of 2 MiB: the second page of the block is
cached as part of the block and as a page. -/
theorem change_region_attr_splits_live_page : ∃ s t v, Reachable splitMap s ∧
    mmuChangeRegionAttr splitMap 0x40200000 0x1000 1#64 s = .ret () t ∧
    Comes (leafHardware splitMap 2 true) (changeRegionAttrActions splitMap 2 6 0x40200000 0x1000 1#64 s)
      { warmWalker splitMap s with tlb := ∅ } v ∧
    (0x40201000, (2, 0x40200411#64)) ∈ v.tlb ∧ (0x40201000, (3, 0x40201413#64)) ∈ v.tlb := by
  obtain ⟨s, reachable, paired, space, _⟩ := splitMap_tables
  obtain ⟨other, tables, settled⟩ := reachable_tables splitMap_proper reachable
  have mapped : Mapped splitMap s 0x40200000 0x1000 :=
    mapped_of_region splitMap_proper paired.primary List.mem_cons_self (by decide) (by decide)
  obtain ⟨_, t, returned, _, changes⟩ :=
    (changeRegionAttr_changes 1#64 tables (by decide) (by decide) mapped).returns (by omega)
  have old : leafOf splitMap s 0x40201000 = some (2, 0x40200411#64) := by
    rw [leafOf_leaves paired.primary (by decide)]
    decide
  have new : leafOf splitMap t 0x40201000 = some (3, 0x40201413#64) := by
    have piece := changes.piece (a := 0x40200000) (b := 0x40201000) (by decide) (by decide) (by decide) (by decide)
      (by decide) (by decide) (by decide) old
    rw [piece]
    decide
  obtain ⟨v, comes, both⟩ := change_region_attr_splits_live splitMap splitMap_proper s reachable 0x40200000 0x1000 1#64
    (by decide) (by decide) mapped t returned 0x40201000 (by decide) _ _ old new 2 true 6
    { warmWalker splitMap s with tlb := ∅ } ⟨rfl, rfl, rfl⟩
  exact ⟨s, t, v, reachable, returned, comes, both⟩

/-! ## The emergency tables -/

/-- What setup and calls leave, seen from the emergency tables: they are in memory
that belongs to `other`, where the calls do not store. -/
structure Reserve (memMap : List MmRegion) (other : Nat → Prop) (s : Mmu) : Prop where
  tables : MapTables memMap other s
  fits : s.tlbEmerg < 2 ^ 48
  nonzero : s.tlbEmerg ≠ 0
  walks : ∀ mem, (∀ x, other x → mem x = s.mem x) → ∀ va, seen memMap s.tlbEmerg mem va = seen memMap s.tlbEmerg s.mem va
  pages : ∀ p, TablePage memMap s.mem s.tlbEmerg p → ∀ x, p ≤ x → x < p + 4096 → other x

private theorem reachable_reserve {memMap : List MmRegion} {s : Mmu} (aligned : ∀ m ∈ regions memMap, PageAligned m)
    (ends : ∀ m ∈ regions memMap, m.virt + m.size ≤ 2 ^ 48) (reachable : Reachable memMap s) :
    ∃ other, Reserve memMap other s := by
  obtain ⟨before, built, paired, later⟩ := reachable_later aligned ends reachable
  obtain ⟨_, within⟩ := later.within
  have emergency := paired.emergency.toTables
  have first := paired.first
  have second := paired.second
  have high := paired.primary.high
  have fits := paired.primary.fits
  have kept : ∀ x, Own (· < built.tlbEmerg) (emergencyOf built) x → s.mem x = built.mem x :=
    fun x own => later.kept x (.inr ⟨Nat.not_lt.mp own.2, own.1⟩)
  refine ⟨_, later.tables, ?_, ?_, fun mem same va => ?_, fun p page x low upper => .inr ?_⟩
  · rw [within.emerg]
    omega
  · rw [within.emerg]
    omega
  · have walks : ∀ mem, (∀ x, Own (· < built.tlbEmerg) (emergencyOf built) x → mem x = built.mem x) →
        seen memMap s.tlbEmerg mem va = seen memMap s.tlbEmerg built.mem va := by
      rw [within.emerg]
      exact fun mem same => seen_framed emergency same va
    rw [walks s.mem kept, walks mem (fun x own => ?_)]
    rw [same x (.inr ⟨Nat.not_lt.mp own.2, own.1⟩), kept x own]
  · rw [within.emerg] at page
    have pages : p % 4096 = 0 := page_aligned (s := { emergencyOf built with mem := s.mem }) paired.aligned page
    have filled : built.tlbFillptr % 4096 = 0 := paired.emergency.aligned
    have inside : ∀ i < 512, Own (· < built.tlbEmerg) (emergencyOf built) (p + 8 * i) := by
      obtain ⟨k, reached⟩ := page
      have top : startLevel memMap ≤ 1 := startLevel_le
      have length : (levelsFrom (startLevel memMap)).length = 4 - startLevel memMap := List.length_range'
      rw [← length] at reached
      exact fun i small => (emergency.tree.frame kept).1.reaches_inside format_full
        (show InReach _ 0 from Nat.two_pow_pos _) reached (by omega) small
    have lowest : built.tlbEmerg ≤ p := Nat.not_lt.mp (inside 0 (by decide)).2
    have highest : p + 8 * 511 < built.tlbFillptr := (inside 511 (by decide)).1
    omega

/-- What the hardware walks while tables change from `s` to `t` behind the
emergency tables, and that it uses no translation of any other. -/
def WalksOneOf (memMap : List MmRegion) (s t : Mmu) (hw : Hardware (Nat → BitVec 64) Entry)
    (v : Walker (Nat → BitVec 64) Entry) : Prop :=
  v.Coherent hw ∧ (v.on = true → v.found hw = viewOf memMap s.mem (root s) ∨
    v.found hw = viewOf memMap s.mem (BitVec.ofNat 64 s.tlbEmerg) ∨ v.found hw = viewOf memMap t.mem (root s))

private theorem setRegionDcacheBehaviour_guarded {memMap : List MmRegion} {other : Nat → Prop} {s t : Mmu}
    {start size option : Nat} {el : El} {w : Walker (Nat → BitVec 64) Entry} (inOrder : Bool) (control : Word)
    (bits : Nat) (reserve : Reserve memMap other s)
    (returned : mmuSetRegionDcacheBehaviour memMap start size option s = .ret () t) (above : el ≠ 0)
    (quiet : Quiet (tableHardware memMap el inOrder) (root s) s.mem w) :
    Guarded (tableHardware memMap el inOrder) (WalksOneOf memMap s t (tableHardware memMap el inOrder))
      (Steady (tableHardware memMap el inOrder) (control.getLsbD 0) (root s) t.mem)
      (setRegionDcacheBehaviourActions memMap el control bits start size option s) w := by
  obtain ⟨tables, fits, _, apart, _⟩ := reserve
  have set : setRegion memMap (optionAttrs option) false (size / 4096 + 3) start size s = .ret () t := by
    unfold mmuSetRegionDcacheBehaviour at returned
    rw [read_bind] at returned
    split at returned
    · cases returned
    · exact returned
  have guards := setRegion_guards tables (optionAttrs option) false (size / 4096 + 3) start size
  rw [set] at guards
  obtain ⟨_, within⟩ := guards.2.within
  have made := (setRegion_traced _ _ _ _ _).of_ret set
  have avoid := setRegionStores_avoid tables (optionAttrs option) false (size / 4096 + 3) start size
  have based : (BitVec.ofNat 64 s.tlbEmerg).toNat = s.tlbEmerg := by
    rw [BitVec.toNat_ofNat]
    omega
  unfold setRegionDcacheBehaviourActions WalksOneOf
  rw [set]
  simp only [show root t = root s from congrArg (BitVec.ofNat 64) within.addr, List.append_assoc]
  generalize BitVec.ofNat 64 s.tlbEmerg = emergency at based ⊢
  have framed : ∀ now, (∀ x, other x → now x = s.mem x) →
      viewOf memMap now emergency = viewOf memMap s.mem emergency := by
    refine fun now kept => Set.ext (fun e => ?_)
    show seen memMap emergency.toNat now e.1 = _ ↔ seen memMap emergency.toNat s.mem e.1 = _
    rw [based, apart now kept e.1]
  have away := switch_guarded control emergency above (quiet.resting (pending_nil rfl))
  refine (away.mono (fun v holds => ⟨holds.coherent, fun on => (holds.walked on).imp_right .inl⟩)
    (fun _ holds => holds)).append (fun w steady => ?_)
  have changed := stores_apart avoid framed steady
  rw [← made] at changed
  refine (changed.mono (fun v holds => ⟨holds.1, fun _ => .inr (.inl holds.2)⟩) (fun _ holds => holds)).append
    (fun w resting => ?_)
  have back := switch_guarded control (root s) above resting
  refine (back.mono (fun v holds => ⟨holds.coherent, fun on => .inr (holds.walked on)⟩) (fun _ holds => holds)).append
    (fun w steady => ?_)
  refine .keeps steady_stable (fun v holds => ⟨holds.coherent, fun _ => .inr (.inr holds.found_eq)⟩)
    (fun action member v holds => ?_) steady
  obtain ⟨event, inside, rfl⟩ := List.mem_map.mp member
  rcases List.mem_append.mp inside with line | barrier
  · obtain ⟨_, _, rfl⟩ := List.mem_map.mp line
    exact holds
  · obtain rfl := List.mem_singleton.mp barrier
    exact holds.dsb el

/-- While `mmu_set_region_dcache_behaviour` changes tables, whatever the hardware
does meanwhile and in whatever order it sees the stores, it walks the tables as
they were, the emergency tables, or the tables as they become, and uses no
translation of any other. No word of the emergency tables is stored to. -/
theorem set_region_dcache_behaviour_apart (memMap : List MmRegion) (aligned : ∀ m ∈ regions memMap, PageAligned m)
    (ends : ∀ m ∈ regions memMap, m.virt + m.size ≤ 2 ^ 48) (s : Mmu) (reachable : Reachable memMap s)
    (start size option : Nat) (t : Mmu) (returned : mmuSetRegionDcacheBehaviour memMap start size option s = .ret () t)
    (el : El) (above : el ≠ 0) (inOrder : Bool) (control : Word) (bits : Nat) (w : Walker (Nat → BitVec 64) Entry)
    (quiet : Quiet (tableHardware memMap el inOrder) (root s) s.mem w) :
    (∀ p, TablePage memMap s.mem s.tlbEmerg p →
      ∀ store ∈ setRegionStores memMap (optionAttrs option) false (size / 4096 + 3) start size s,
        store.Avoids (fun x => p ≤ x ∧ x < p + 4096)) ∧
    Guarded (tableHardware memMap el inOrder) (WalksOneOf memMap s t (tableHardware memMap el inOrder))
      (Steady (tableHardware memMap el inOrder) (control.getLsbD 0) (root s) t.mem)
      (setRegionDcacheBehaviourActions memMap el control bits start size option s) w := by
  obtain ⟨other, reserve⟩ := reachable_reserve aligned ends reachable
  refine ⟨fun p page store member => ?_,
    setRegionDcacheBehaviour_guarded inOrder control bits reserve returned above quiet⟩
  exact (setRegionStores_avoid reserve.tables (optionAttrs option) false (size / 4096 + 3) start size store member).mono
    (fun x inside => reserve.pages p page x inside.1 inside.2)

theorem set_region_dcache_behaviour_apart_block : ∃ s t, Reachable splitMap s ∧
    mmuSetRegionDcacheBehaviour splitMap 0x40000000 0x200000 0 s = .ret () t ∧
    TablePage splitMap s.mem s.tlbEmerg s.tlbEmerg ∧
    (∀ store ∈ setRegionStores splitMap (optionAttrs 0) false (0x200000 / 4096 + 3) 0x40000000 0x200000 s,
      store.Avoids (fun x => s.tlbEmerg ≤ x ∧ x < s.tlbEmerg + 4096)) ∧
    Guarded (tableHardware splitMap 2 false) (fun v => v.Coherent (tableHardware splitMap 2 false))
      (fun v => v.tlb ⊆ viewOf splitMap t.mem (root s))
      (setRegionDcacheBehaviourActions splitMap 2 0x1005 6 0x40000000 0x200000 0 s) (warmWalker splitMap s) := by
  obtain ⟨s, reachable, _, space, mapped⟩ := splitMap_tables
  have aligned : ∀ m ∈ regions splitMap, PageAligned m :=
      fun m member => pageAligned_of_proper (splitMap_proper m member)
  have ends : ∀ m ∈ regions splitMap, m.virt + m.size ≤ 2 ^ 48 := fun m member => (splitMap_proper m member).virtEnd
  obtain ⟨other, reserve⟩ := reachable_reserve aligned ends reachable
  have bound := region_splits_le (depth (startLevel splitMap) s) (show 0x40000000 % 4096 = 0 by decide)
    (show 0x200000 % 4096 = 0 by decide)
  obtain ⟨_, t, set, _⟩ := (setRegion_changes (optionAttrs 0) false reserve.tables (by decide) (by decide) mapped
    (show _ < 0x200000 / 4096 + 3 by decide)).enough (by omega)
  have returned : mmuSetRegionDcacheBehaviour splitMap 0x40000000 0x200000 0 s = .ret () t := by
    unfold mmuSetRegionDcacheBehaviour
    rw [read_bind, if_neg reserve.nonzero]
    exact set
  have first : TablePage splitMap s.mem s.tlbEmerg s.tlbEmerg := ⟨0, .root⟩
  obtain ⟨avoid, guarded⟩ := set_region_dcache_behaviour_apart splitMap aligned ends s reachable 0x40000000 0x200000 0 t
    returned 2 (by decide) false 0x1005 6 (warmWalker splitMap s) ⟨rfl, rfl, rfl, fun _ => subset_rfl⟩
  exact ⟨s, t, reachable, returned, first, avoid _ first,
    guarded.mono (fun _ holds => holds.1) (fun _ steady => steady.cached)⟩

end RockOs.LiveTables
