import RockOs.PageTableAttributes

/-! When the loops of `mmu_set_region_dcache_behaviour` and
`mmu_change_region_attr` end on a mapped range. A turn makes progress on the
first level that accepts both ends. With a start or a size that is not a multiple
of a page no level does; the walk goes down to a page, whose type bits are those
of a table, and the next turn finds everything as it was. -/
namespace RockOs.RegionLoops
open Machine PageTables PageDescriptors PageWalk PageTableSteps PageLeaves PageTableSetup PageTableChanges
open PageTableRegions PageTablePasses PageTableAttributes

/-- The tables at `tlb_addr` are a tree of pages in the table space. -/
def PageTable (memMap : List MmRegion) (s : Mmu) : Prop :=
  ∃ other, Tables (startLevel memMap) other (InReach (startLevel memMap)) s

/-- After some number of turns the call has returned, or it panicked on the way. -/
def LoopsEnd (memMap : List MmRegion) (call : Call) (s : Mmu) : Prop :=
  ∃ count, (call.turns memMap count s).Safe (fun left _ => left ≠ 0)

/-- The call panics before its loop. -/
def Refuses (s : Mmu) : Call → Prop
  | .changeRegionAttr _ _ _ => False
  | .setRegionDcacheBehaviour _ _ _ => s.tlbEmerg = 0

section Turns
variable {memMap : List MmRegion} {other : Nat → Prop} {s : Mmu} {attrs : BitVec 64} {flag : Bool}
  {p size fuel count extra i k : Nat} {stops : Panic → Prop} {post : Mmu → Prop}

/-! ## Loops that end -/

/-- A loop that ends does so with turns to spare. -/
theorem turns_end {done : Unit → Mmu → Prop} (ends : (setRegion memMap attrs flag fuel p size s).Ends stops done) :
    (setRegionTurns memMap attrs flag fuel p size s).Ends stops (fun left t => left ≠ 0 ∧ done () t) := by
  rw [setRegion_eq_turns] at ends
  refine ends.of_bind.mono (fun _ stopped => stopped) (fun left t rest => ?_)
  split at rest
  · exact rest.elim
  · exact ⟨by assumption, rest⟩

/-- More turns are left over. -/
theorem turns_more
    (ends : (setRegionTurns memMap attrs flag count p size s).Ends stops (fun left t => left ≠ 0 ∧ post t))
    (extra : Nat) :
    (setRegionTurns memMap attrs flag (count + extra) p size s).Ends stops (fun left t => extra < left ∧ post t) := by
  induction count generalizing p size s with
  | zero => exact absurd rfl ends.1
  | succ count ih =>
    rw [setRegionTurns] at ends
    rw [Nat.add_right_comm, setRegionTurns]
    by_cases done : size = 0
    · rw [if_pos done] at ends ⊢
      exact ⟨by omega, ends.2⟩
    · rw [if_neg done] at ends ⊢
      exact ends.of_bind.bind (fun r between _ rest => ih rest)

/-- Code that ends has loops that end. -/
theorem loopsEnd_of_code {call : Call} (ends : (call.code memMap s).Safe (fun _ _ => True)) :
    LoopsEnd memMap call s := by
  cases call with
  | changeRegionAttr addr siz attrs =>
    refine ⟨siz / 4096 + 3 + (siz / 4096 + 3), ?_⟩
    have first : (setRegion memMap pteTypeFault true (siz / 4096 + 3) addr siz s).Safe _ := ends.of_bind
    refine (turns_more (turns_end first) _).bind (fun left between _ rest => ?_)
    obtain ⟨extra, rfl⟩ : ∃ extra, left = siz / 4096 + 3 + extra := ⟨left - (siz / 4096 + 3), by omega⟩
    exact (turns_more (turns_end rest.2) extra).mono (fun _ stopped => stopped) (fun left _ more => by omega)
  | setRegionDcacheBehaviour start size option =>
    refine ⟨size / 4096 + 3, ?_⟩
    change (mmuSetRegionDcacheBehaviour memMap start size option s).Safe _ at ends
    unfold mmuSetRegionDcacheBehaviour at ends
    rw [Call.turns, read_bind]
    rw [read_bind] at ends
    split
    · trivial
    · rename_i set
      rw [if_neg set] at ends
      exact (turns_end ends).mono (fun _ stopped => stopped) (fun _ _ holds => holds.1)

/-! ## Loops that do not -/

/-- The last entry of a walk to a mapped page looks like a table. -/
theorem page_type {d : BitVec 64} {es : List (BitVec 64)} {start : Nat} (found : decode start es ≠ none)
    (deep : start + es.length = 4) (met : es[3 - start]? = some d) (top : start ≤ 3) : pteType d = pteTypeTable := by
  obtain ⟨front, last, rfl⟩ : ∃ front last, es = front ++ [last] :=
    ⟨_, _, (List.dropLast_append_getLast (List.ne_nil_of_mem (List.mem_of_getElem? met))).symm⟩
  rw [List.length_append, List.length_singleton] at deep
  rw [show 3 - start = front.length by omega, List.getElem?_concat_length, Option.some.injEq] at met
  subst met
  rw [decode_append (List.cons_ne_nil _ _), show start + front.length = 3 by omega, decode] at found
  split at found
  · split at found
    · rename_i valid
      exact type_table_iff.mpr ⟨valid.1, valid.2.1 rfl⟩
    · exact absurd rfl found
  · exact absurd rfl found

/-- A turn on which no level fits leads down to a page. -/
theorem idle_levels (attrs : BitVec 64) (flag : Bool) (tables : MapTables memMap other s)
    (reach : InReach (startLevel memMap) p)
    (found : decode (startLevel memMap) (entries (startLevel memMap) s p) ≠ none)
    (unaligned : ∀ level : Nat, 1 ≤ level → level ≤ 3 → ¬ isAligned p size (2 ^ level2shift level))
    (upper : 1 ≤ startLevel memMap + i) (levels : startLevel memMap + i + count = 3)
    (deep : i < (entries (startLevel memMap) s p).length) :
    Takes other (3 - depth (startLevel memMap) s p) s
      (fun r t => r = 0 ∧ MapTables memMap other t ∧
        decode (startLevel memMap) (entries (startLevel memMap) t p) ≠ none ∧ depth (startLevel memMap) t p = 3)
      (setGranule memMap p size attrs flag (levelsFrom (startLevel memMap + i)) s) := by
  have top : startLevel memMap ≤ 1 := startLevel_le
  have bound : startLevel memMap + (entries (startLevel memMap) s p).length ≤ 4 := entries_bound (by omega)
  have ready := ready_of_mapped found (show startLevel memMap + (3 - startLevel memMap) ≤ 3 by omega)
  induction count generalizing i s with
  | zero =>
    have last : i = 3 - startLevel memMap := by omega
    obtain ⟨pte, looked, visited⟩ := ready_slot ready last.le deep
    have type : pteType (s.mem pte) = pteTypeTable :=
      page_type found (by omega) (last ▸ entry_of_slot visited) (by omega)
    have idle : setOneRegion memMap p size attrs flag (startLevel memMap + i) s = .ret 0 s := by
      unfold setOneRegion
      rw [read_bind, looked]
      simp only [unaligned _ upper (show startLevel memMap + i ≤ 3 by omega), ↓reduceIte]
      rw [bind_of_ret (splitIfBlock_table type _), read_bind, if_neg (by rw [type]; decide)]
      rfl
    have ended : depth (startLevel memMap) s p = 3 := by
      unfold depth
      omega
    rw [levelsFrom_cons (by omega), setGranule, bind_of_ret idle, if_neg (by decide),
      show levelsFrom (startLevel memMap + i + 1) = [] from congrArg (fun level => levelsFrom (level + 1)) levels, ended]
    exact .ret (Within.refl s) ⟨rfl, tables, found, ended⟩
  | succ count ih =>
    have first := setOneRegion_above attrs flag tables reach (by omega) upper (show i < 3 - startLevel memMap by omega)
      (unaligned _ upper (by omega)) ready deep
    have total : 3 - depth (startLevel memMap) s p = (i + 2 - (entries (startLevel memMap) s p).length) +
        (4 - startLevel memMap - max (entries (startLevel memMap) s p).length (i + 2)) := by
      unfold depth
      omega
    rw [levelsFrom_cons (by omega), setGranule, total]
    refine first.bind (fun r between holds => ?_)
    obtain ⟨zero, opened, deeper, changes⟩ := holds
    have finer := (changes p reach).1.finer
    have rest : 4 - startLevel memMap - max (entries (startLevel memMap) s p).length (i + 2) =
        3 - depth (startLevel memMap) between p := by
      unfold depth
      omega
    rw [if_neg (by rw [zero]; decide), rest]
    exact ih opened (finer.found found) (show 1 ≤ startLevel memMap + (i + 1) by omega) (by omega) (by omega)
      (entries_bound (by omega)) (finer.ready (by omega) ready)

/-- Turns on which no level fits leave all of the range to do, and only the first
takes pages. -/
theorem idle_turns (attrs : BitVec 64) (flag : Bool) (tables : MapTables memMap other s)
    (reach : InReach (startLevel memMap) p)
    (found : decode (startLevel memMap) (entries (startLevel memMap) s p) ≠ none)
    (unaligned : ∀ level : Nat, 1 ≤ level → level ≤ 3 → ¬ isAligned p size (2 ^ level2shift level)) (some : size ≠ 0)
    (count : Nat) :
    Takes other (3 - depth (startLevel memMap) s p) s (fun left _ => left = 0)
      (setRegionTurns memMap attrs flag (count + 1) p size s) := by
  have top : startLevel memMap ≤ 1 := startLevel_le
  have space : p < 2 ^ 64 := lt_of_lt_of_le reach (reach_le.trans (by decide))
  have first : ∀ {s : Mmu}, MapTables memMap other s →
      decode (startLevel memMap) (entries (startLevel memMap) s p) ≠ none →
      Takes other (3 - depth (startLevel memMap) s p) s
        (fun r t => r = 0 ∧ MapTables memMap other t ∧
          decode (startLevel memMap) (entries (startLevel memMap) t p) ≠ none ∧ depth (startLevel memMap) t p = 3)
        (setGranule memMap p size attrs flag [1, 2, 3] s) := by
    intro s tables found
    have ready := ready_of_mapped found (show startLevel memMap + (3 - startLevel memMap) ≤ 3 by omega)
    have deep := ready.deep top (by omega)
    have turn := idle_levels attrs flag tables reach found unaligned
      (show 1 ≤ startLevel memMap + (1 - startLevel memMap) by omega)
      (show startLevel memMap + (1 - startLevel memMap) + 2 = 3 by omega) deep
    rwa [show startLevel memMap + (1 - startLevel memMap) = 1 by omega] at turn
  induction count generalizing s with
  | zero =>
    rw [setRegionTurns, if_neg some, ← Nat.add_zero (3 - depth (startLevel memMap) s p)]
    exact (first tables found).bind (fun _ between _ => .ret (Within.refl between) rfl)
  | succ count ih =>
    rw [setRegionTurns, if_neg some, ← Nat.add_zero (3 - depth (startLevel memMap) s p)]
    refine (first tables found).bind (fun r between holds => ?_)
    obtain ⟨zero, after, still, ended⟩ := holds
    have rest := ih after still
    rw [zero, Nat.sub_zero, show (p + 0) % 2 ^ 64 = p from Nat.mod_eq_of_lt space]
    rwa [ended, Nat.sub_self] at rest

end Turns

/-! ## The calls -/

section Calls
variable {memMap : List MmRegion} {other : Nat → Prop} {s : Mmu} {call : Call}

private theorem leaf_depth {leaf : Nat × BitVec 64} (found : leafOf memMap s va = some leaf) :
    va < 2 ^ (getTcr memMap 0).vaBits ∧ decode (startLevel memMap) (entries (startLevel memMap) s va) = some leaf ∧
      depth (startLevel memMap) s va = leaf.1 := by
  have inside := inside_of_leaf found
  rw [leafOf_eq inside] at found
  have level := decode_level found
  refine ⟨inside, found, ?_⟩
  change _ = startLevel memMap + (entries (startLevel memMap) s va).length at level
  unfold depth
  omega

/-- A call on a range that is not made of pages: it is stopped when it goes down to
the page of its start, or goes on for ever. -/
theorem idle_call {leaf : Nat × BitVec 64} (tables : MapTables memMap other s) (some : call.size ≠ 0)
    (unaligned : ¬ (call.start % 4096 = 0 ∧ call.size % 4096 = 0)) (accepted : ¬ Refuses s call)
    (old : leafOf memMap s call.start = .some leaf) (count : Nat) :
    Takes other (3 - leaf.1) s (fun left _ => left = 0) (call.turns memMap (count + 1) s) := by
  obtain ⟨inside, found, level⟩ := leaf_depth old
  have misfit : ∀ level : Nat, 1 ≤ level → level ≤ 3 → ¬ isAligned call.start call.size (2 ^ level2shift level) := by
    intro level upper lower aligned
    obtain ⟨first, size⟩ := isAligned_iff.mp aligned
    rcases shift_cases upper lower with ⟨_, shift⟩ | ⟨_, shift⟩ | ⟨_, shift⟩
    all_goals rw [shift] at first size; omega
  have idle := fun attrs flag => idle_turns attrs flag tables (PageWalk.reach inside) (by rw [found]; simp) misfit some
    count
  rw [level] at idle
  cases call with
  | changeRegionAttr addr siz attrs =>
    rw [← Nat.add_zero (3 - leaf.1)]
    refine (idle pteTypeFault true).bind (fun left between none => ?_)
    rw [none]
    exact .ret (Within.refl between) rfl
  | setRegionDcacheBehaviour start size option =>
    rw [Call.turns, read_bind, if_neg (show ¬ s.tlbEmerg = 0 from accepted)]
    exact idle _ false

/-- On a range made of pages every call ends. -/
theorem pages_end (tables : PageTable memMap s) (mapped : Mapped memMap s call.start call.size)
    (page : call.start % 4096 = 0) (pages : call.size % 4096 = 0) : LoopsEnd memMap call s := by
  obtain ⟨other, tables⟩ := tables
  apply loopsEnd_of_code
  cases call with
  | changeRegionAttr addr siz attrs =>
    exact Outcome.Ends.mono (changeRegionAttr_changes attrs tables page pages mapped) (fun _ _ => trivial)
      (fun _ _ _ => trivial)
  | setRegionDcacheBehaviour start size option =>
    show (mmuSetRegionDcacheBehaviour memMap start size option s).Safe _
    unfold mmuSetRegionDcacheBehaviour
    rw [read_bind]
    split
    · trivial
    · have takes := setRegion_changes (BitVec.ofNat 64 (option <<< 2 % 2 ^ 32)) false tables page pages mapped
        (show size / 4096 < size / 4096 + 3 by omega)
      exact Outcome.Ends.mono (takes.builds le_rfl) (fun _ _ => trivial) (fun _ _ _ => trivial)

/-- No call ends before its first turn. -/
theorem no_turns (accepted : ¬ Refuses s call) : ¬ (call.turns memMap 0 s).Safe (fun left _ => left ≠ 0) := by
  intro ends
  cases call with
  | changeRegionAttr addr siz attrs => exact ends rfl
  | setRegionDcacheBehaviour start size option =>
    rw [Call.turns, read_bind, if_neg (show ¬ s.tlbEmerg = 0 from accepted)] at ends
    exact ends rfl

/-- A range of no bytes, or a call that is refused. -/
theorem idle_end (idle : call.size = 0 ∨ Refuses s call) : LoopsEnd memMap call s := by
  cases call with
  | changeRegionAttr addr siz attrs =>
    obtain rfl : siz = 0 := idle.resolve_right id
    exact ⟨1, Nat.one_ne_zero⟩
  | setRegionDcacheBehaviour start size option =>
    refine ⟨1, ?_⟩
    rw [Call.turns, read_bind]
    split
    · trivial
    · rename_i set
      obtain rfl : size = 0 := idle.resolve_right set
      exact Nat.one_ne_zero

/-- The loops of a call on a mapped range end exactly when the range is made of
pages, or the call panics before it can go on for ever: it is refused, or the
space is too short for the tables down to the page of its start. -/
theorem region_loops_end_iff (memMap : List MmRegion) (s : Mmu) (tables : PageTable memMap s) (call : Call)
    (mapped : Mapped memMap s call.start call.size) :
    LoopsEnd memMap call s ↔ call.size = 0 ∨ call.start % 4096 = 0 ∧ call.size % 4096 = 0 ∨ Refuses s call ∨
      ∃ leaf, leafOf memMap s call.start = some leaf ∧ pagesLeft s < 3 - leaf.1 := by
  by_cases none : call.size = 0
  · exact iff_of_true (idle_end (.inl none)) (.inl none)
  by_cases pages : call.start % 4096 = 0 ∧ call.size % 4096 = 0
  · exact iff_of_true (pages_end tables mapped pages.1 pages.2) (.inr (.inl pages))
  by_cases refused : Refuses s call
  · exact iff_of_true (idle_end (.inr refused)) (.inr (.inr (.inl refused)))
  obtain ⟨other, tables⟩ := tables
  obtain ⟨leaf, old⟩ := Option.ne_none_iff_exists'.mp (mapped call.start le_rfl (by omega))
  have idle := idle_call tables none pages refused old
  rw [or_iff_right none, or_iff_right pages, or_iff_right refused]
  constructor
  · rintro ⟨count, ends⟩
    refine ⟨leaf, old, ?_⟩
    by_contra enough
    cases count with
    | zero => exact no_turns refused ends
    | succ count =>
      obtain ⟨left, t, ran, _, _, zero⟩ := (idle count).enough (by omega)
      exact Outcome.Ends.of_ret ends ran zero
  · rintro ⟨same, found, short⟩
    obtain rfl := Option.some.inj (found.symm.trans old)
    obtain ⟨t, stopped⟩ := (idle 0).short short
    exact ⟨1, by rw [stopped]; trivial⟩

end Calls

/-- Two kilobytes of a block: the loop goes on for ever. -/
theorem region_loop_stuck : ∃ s, Reachable splitMap s ∧ PageTable splitMap s ∧ Mapped splitMap s 0x40000000 0x800 ∧
    ¬ LoopsEnd splitMap (.setRegionDcacheBehaviour 0x40000000 0x800 0) s := by
  obtain ⟨s, reachable, paired, space, mapped⟩ := splitMap_tables
  obtain ⟨other, tables, _⟩ := reachable_tables splitMap_proper reachable
  have range : Mapped splitMap s 0x40000000 0x800 := fun va low high => mapped va low (by omega)
  have accepted : ¬ Refuses s (.setRegionDcacheBehaviour 0x40000000 0x800 0) :=
    reachable_emergency splitMap_proper reachable
  refine ⟨s, reachable, ⟨other, tables⟩, range, ?_⟩
  rintro ⟨count, ends⟩
  cases count with
  | zero => exact no_turns accepted ends
  | succ count =>
    obtain ⟨leaf, old⟩ := Option.ne_none_iff_exists'.mp (range 0x40000000 le_rfl (by decide))
    obtain ⟨left, t, ran, _, _, zero⟩ := (idle_call tables (by decide) (by decide) accepted old count).enough (by omega)
    exact Outcome.Ends.of_ret ends ran zero

/-- A page is done. -/
theorem region_loop_page : ∃ s, Reachable splitMap s ∧
    LoopsEnd splitMap (.changeRegionAttr 0x40000000 0x1000 1#64) s := by
  obtain ⟨s, reachable, paired, space, mapped⟩ := splitMap_tables
  obtain ⟨other, tables, _⟩ := reachable_tables splitMap_proper reachable
  have range : Mapped splitMap s 0x40000000 0x1000 := fun va low high => mapped va low (by omega)
  exact ⟨s, reachable, (region_loops_end_iff splitMap s ⟨other, tables⟩ (.changeRegionAttr 0x40000000 0x1000 1#64)
    range).mpr (.inr (.inl (by decide)))⟩

end RockOs.RegionLoops
