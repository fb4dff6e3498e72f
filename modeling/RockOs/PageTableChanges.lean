import RockOs.PageTableSetup

/-! What any call of `mmu_change_region_attr` or
`mmu_set_region_dcache_behaviour` leaves intact, for whatever address, size and
attributes: the tables stay a tree with leaves that are where their level can
put them, and nothing is stored outside the tree and its new tables. -/
namespace RockOs.PageTableChanges
open Machine PageTables PageDescriptors PageWalk PageTableSteps PageTableSetup RadixTable

/-! ## Addresses beyond the first table -/

section Wrap
variable {memMap : List MmRegion} {start k level va size : Nat} {s : Mmu}

/-- A walk looks at no bits above the reach of its first table. -/
def wrap (start va : Nat) : Nat := va % 2 ^ (level2shift start + 9)

theorem wrap_inReach : InReach start (wrap start va) := Nat.mod_lt _ (Nat.two_pow_pos _)

private theorem index_wrap (first : start ≤ level) (last : level ≤ 3) :
    format.index level (wrap start va) = format.index level va := by
  have top : level2shift start = 12 + 9 * (3 - start) := level2shift_eq (by omega)
  have here : level2shift level = 12 + 9 * (3 - level) := level2shift_eq last
  have power : 2 ^ (level2shift start + 9) = 2 ^ level2shift level * 2 ^
      (level2shift start + 9 - level2shift level) := by
    rw [← Nat.pow_add]
    congr 1
    omega
  have divides : 512 ∣ 2 ^ (level2shift start + 9 - level2shift level) :=
    Nat.pow_dvd_pow 2 (show 9 ≤ level2shift start + 9 - level2shift level by omega)
  rw [index_eq, index_eq, wrap, power, Nat.mod_mul_right_div_self, Nat.mod_mod_of_dvd _ divides]

private theorem slots_wrap (start : Nat) (s : Mmu) (va : Nat) : slots start s (wrap start va) = slots start s va := by
  have same : format.Same (levelsFrom start) 4 (wrap start va) va := by
    intro level member
    have inside := List.mem_of_mem_take member
    rw [levelsFrom, List.mem_range'_1] at inside
    exact index_wrap inside.1 (by omega)
  have begins : (slots start s (wrap start va)).take 4 = (slots start s va).take 4 := path_same same
  have left : (slots start s (wrap start va)).length ≤ 4 - start := slots_length_le
  have right : (slots start s va).length ≤ 4 - start := slots_length_le
  rwa [List.take_of_length_le (by omega), List.take_of_length_le (by omega)] at begins

theorem findPte_wrap (small : startLevel memMap + k < 4) :
    findPte memMap s (wrap (startLevel memMap) va) (startLevel memMap + k) =
      findPte memMap s va (startLevel memMap + k) := by
  apply Option.ext
  intro pte
  rw [findPte_iff small, findPte_iff small]
  have path := slots_wrap (startLevel memMap) s va
  rw [show entriesFrom s.mem (wrap (startLevel memMap) va) (startLevel memMap) s.tlbAddr =
    entriesFrom s.mem va (startLevel memMap) s.tlbAddr from congrArg (List.map s.mem) path]
  rw [show pathFrom s.mem (wrap (startLevel memMap) va) (startLevel memMap) s.tlbAddr = _ from path]

theorem isAligned_iff : isAligned va size (2 ^ level2shift level) ↔
    va % 2 ^ level2shift level = 0 ∧ size % 2 ^ level2shift level = 0 := by
  rw [isAligned, Nat.and_two_pow_sub_one_eq_mod, Nat.and_two_pow_sub_one_eq_mod]

private theorem isAligned_wrap (va size : Nat) (first : start ≤ level) (last : level ≤ 3) :
    isAligned (wrap start va) size (2 ^ level2shift level) ↔ isAligned va size (2 ^ level2shift level) := by
  have divides : 2 ^ level2shift level ∣ 2 ^ (level2shift start + 9) := by
    refine Nat.pow_dvd_pow 2 ?_
    rw [level2shift_eq (show start ≤ 3 by omega), level2shift_eq last]
    omega
  rw [isAligned_iff, isAligned_iff, wrap, Nat.mod_mod_of_dvd _ divides]

private theorem setOneRegion_wrap (small : startLevel memMap + k < 4) (attrs : BitVec 64) (flag : Bool) :
    setOneRegion memMap (wrap (startLevel memMap) va) size attrs flag (startLevel memMap + k) s =
      setOneRegion memMap va size attrs flag (startLevel memMap + k) s := by
  unfold setOneRegion
  rw [read_bind, read_bind, findPte_wrap small]
  cases findPte memMap s va (startLevel memMap + k) with
  | none => rfl
  | some pte =>
    have same := isAligned_wrap va size (Nat.le_add_right (startLevel memMap) k) (by omega)
    simp only [same]

end Wrap

/-! ## One step -/

/-- The leaf is where its level can put it. -/
def Settled (start : Nat) (es : List (BitVec 64)) : Prop :=
  ∀ d, es[es.length - 1]? = some d → Aligned (start + (es.length - 1)) d

def AllSettled (start : Nat) (s : Mmu) : Prop := ∀ b, InReach start b → Settled start (entries start s b)

/-- Leaves stay where their level can put them. -/
def Settles (start : Nat) (s t : Mmu) : Prop := AllSettled start s → AllSettled start t

/-- The tables of a map, for all addresses that its first table reaches. -/
abbrev MapTables (memMap : List MmRegion) (other : Nat → Prop) (s : Mmu) : Prop :=
  Tables (startLevel memMap) other (InReach (startLevel memMap)) s

/-- Nothing that belongs to others changed. -/
def Kept (other : Nat → Prop) (s t : Mmu) : Prop := ∀ x, other x → t.mem x = s.mem x

/-- The tables of `t` came from those of `s`. -/
structure Later (start : Nat) (other : Nat → Prop) (s t : Mmu) : Prop where
  tables : Tables start other (InReach start) t
  within : ∃ n, Within other n s t
  settles : Settles start s t

section Steps
variable {memMap : List MmRegion} {start k va pte size fuel : Nat} {other : Nat → Prop} {s t u : Mmu}

theorem Kept.trans (first : Kept other s t) (second : Kept other t u) : Kept other s u :=
  fun x foreign => (second x foreign).trans (first x foreign)

theorem Later.refl (tables : Tables start other (InReach start) s) : Later start other s s :=
  ⟨tables, ⟨0, Within.refl s⟩, fun settled => settled⟩

theorem Later.trans (first : Later start other s t) (second : Later start other t u) : Later start other s u := by
  obtain ⟨n, used⟩ := first.within
  obtain ⟨m, more⟩ := second.within
  exact ⟨second.tables, ⟨n + m, used.trans more⟩, fun settled => second.settles (first.settles settled)⟩

theorem Later.kept (later : Later start other s t) : Kept other s t := by
  obtain ⟨_, within⟩ := later.within
  exact within.kept

theorem settled_append (leaf : Aligned (start + front.length) d) : Settled start (front ++ [d]) := by
  intro e met
  rw [List.length_append, List.length_singleton, Nat.add_sub_cancel, List.getElem?_concat_length,
    Option.some.injEq] at met
  rw [← met, List.length_append, List.length_singleton, Nat.add_sub_cancel]
  exact leaf

private theorem settled_modify (short : start + es.length ≤ 4) (settled : Settled start es) (attrs : BitVec 64)
    (flag : Bool) :
    Settled start (es.modify k (fun d => withAttrs d attrs flag)) := by
  intro e met
  rw [List.length_modify] at met ⊢
  rw [List.getElem?_modify] at met
  cases last : es[es.length - 1]? with
  | none => simp [last] at met
  | some d =>
    have leaf := settled d last
    have inside := (List.getElem?_eq_some_iff.mp last).1
    rw [last, Option.map_eq_map, Option.map_some, Option.some.injEq] at met
    rw [← met]
    split
    · exact withAttrs_aligned (by omega) leaf flag
    · exact leaf

section Split
variable {n : Nat} (visited : (slots start s va)[k]? = some pte) (lower : start + k < 3)
  (block : pteType (s.mem pte) = pteTypeBlock)
  (replaced : Replaced start (InReach start) va k (fun b => [tableDesc n, pieceAt (start + k) (s.mem pte) b]) s t)
include visited lower block replaced

/-- A block below the last level is split. -/
theorem split_through (reach : InReach start b) (agree : format.Same (levelsFrom start) (k + 1) va b) :
    ∃ front, front.length = k ∧ entries start s b = front ++ [s.mem pte] ∧
      entries start t b = front ++ [tableDesc n, pieceAt (start + k) (s.mem pte) b] := by
  obtain ⟨front, ends, split⟩ := block_ends (by omega) (entry_of_slot (visited_of_same visited agree)) block
  refine ⟨front, ends, split, ?_⟩
  rw [replaced.through b reach agree, split, ← ends, List.take_left]

theorem split_settles (upper : 1 ≤ start + k) : Settles start s t := by
  intro settled b reachB
  by_cases agree : format.Same (levelsFrom start) (k + 1) va b
  · obtain ⟨front, long, before, now⟩ := split_through visited lower block replaced reachB agree
    have aligned : Aligned (start + k) (s.mem pte) := by
      have leaf := settled b reachB
      rw [before] at leaf
      have here := leaf (s.mem pte) (by simp)
      rwa [List.length_append, List.length_singleton, Nat.add_sub_cancel, long] at here
    have piece : Aligned (start + k + 1) (pieceAt (start + k) (s.mem pte) b) :=
      splitEntry_aligned upper (by omega) aligned
    rw [now, List.append_cons]
    refine settled_append ?_
    rw [List.length_append, List.length_singleton, long]
    exact piece
  · rw [replaced.other b reachB agree]
    exact settled b reachB

end Split

section Visited
variable (tables : Tables start other (InReach start) s) (reach : InReach start va)
  (visited : (slots start s va)[k]? = some pte)
include tables reach visited

/-- On the last level there is no block to split: an entry that looks like one
gets the address of the new table as if it were a page. -/
theorem splitBlock_last (last : start + k = 3) (block : pteType (s.mem pte) = pteTypeBlock) :
    (splitBlock pte (start + k) s).Guards (Kept other s)
      (fun _ t => Later start other s t) := by
  have inside := tables.slot_inside reach visited
  obtain ⟨⟨aligned, low, high, fits⟩, outside, tree⟩ := tables
  have space : Space s := ⟨aligned, low, high, fits⟩
  by_cases full : pagesLeft s = 0
  · rw [splitBlock_panic space block full]
    exact fun x _ => rfl
  · obtain ⟨mem, returned, -, -, rest⟩ := splitBlock_ret space block full (.inl inside.1) (start + k)
    rw [returned]
    have kept : ∀ x, other x → mem x = s.mem x := by
      intro x foreign
      refine rest x (outside x foreign) ?_
      rintro rfl
      exact inside.2 foreign
    have changed : ChangedAt (Own other s) pte s.mem mem := fun x own different => rest x own.1 different
    obtain ⟨cut, through⟩ := tree.cut reach visited changed (.inr (by rw [levelsFrom, List.length_range']; omega))
    have used : s.tlbFillptr + 4096 ≤ s.tlbAddr + s.tlbSize := by
      unfold pagesLeft at full
      omega
    refine ⟨kept, ⟨⟨by dsimp only; omega, by dsimp only; omega, used, fits⟩,
      fun x foreign => Nat.lt_add_right _ (outside x foreign), ?_⟩,
      ⟨1, rfl, rfl, rfl, Nat.le_add_right _ _, le_rfl, kept⟩, fun settled b reachB => ?_⟩
    · refine cut.of_shorter (fun _ member => member) (fun x own => ?_) (fun _ _ _ _ met => met)
      exact ⟨Nat.lt_add_right _ own.1, own.2⟩
    · by_cases agree : format.Same (levelsFrom start) (k + 1) va b
      · have met := (List.getElem?_eq_some_iff.mp (entry_of_slot (visited_of_same visited agree))).1
        have long : ((entries start s b).take k).length = k := by
          rw [List.length_take]
          omega
        show Settled start (format.entries mem b (levelsFrom start) s.tlbAddr)
        rw [through b reachB agree]
        refine settled_append ?_
        rw [show (List.take k (format.entries s.mem b (levelsFrom start) s.tlbAddr)).length = k from long, last]
        intro i above below
        have page : level2shift (3 : Nat) = 12 := rfl
        omega
      · rw [show entries start _ b = entries start s b from (tree.path_other reach visited changed reachB agree).2]
        exact settled b reachB

/-- Whatever entry is split, the tables stay tables. -/
theorem splitIfBlock_guards (upper : 1 ≤ start + k) :
    (splitIfBlock pte (start + k) s).Guards (Kept other s) (fun _ t => Later start other s t) := by
  have small := slots_lt visited
  unfold splitIfBlock
  rw [read_bind]
  by_cases block : pteType (s.mem pte) = pteTypeBlock
  · rw [if_pos block]
    by_cases last : start + k = 3
    · exact splitBlock_last tables reach visited last block
    · by_cases full : pagesLeft s = 0
      · rw [splitBlock_panic tables.toSpace block full]
        exact fun x _ => rfl
      · obtain ⟨_, t, returned, within, _, after, replaced, _⟩ :=
          (splitBlock_spec tables reach visited upper (by omega) block).enough (Nat.one_le_iff_ne_zero.mpr full)
        rw [returned]
        exact ⟨within.kept, after, ⟨1, within⟩, split_settles visited (by omega) block replaced upper⟩
  · rw [if_neg block]
    exact ⟨fun _ _ => rfl, Later.refl tables⟩

private theorem modify_later (attrs : BitVec 64) (flag : Bool) :
    Later start other s (s.set pte (withAttrs (s.mem pte) attrs flag)) := by
  obtain ⟨within, after, through, rest⟩ := tables.modify reach visited attrs flag
  refine ⟨after, ⟨0, within⟩, fun settled b reachB => ?_⟩
  by_cases agree : format.Same (levelsFrom start) (k + 1) va b
  · have short : (slots start s b).length ≤ 4 - start := slots_length_le
    have first := slots_lt visited
    rw [through b reachB agree]
    refine settled_modify ?_ (settled b reachB) attrs flag
    rw [entries_length]
    omega
  · rw [rest b reachB agree]
    exact settled b reachB

end Visited

theorem setOneRegion_guards (tables : MapTables memMap other s) (upper : 1 ≤ level) (lower : level ≤ 3)
    (va size : Nat) (attrs : BitVec 64) (flag : Bool) :
    (setOneRegion memMap va size attrs flag level s).Guards (Kept other s)
      (fun _ t => Later (startLevel memMap) other s t) := by
  have top : startLevel memMap ≤ 1 := startLevel_le
  obtain ⟨k, rfl⟩ : ∃ k, level = startLevel memMap + k := ⟨level - startLevel memMap, by omega⟩
  rw [← setOneRegion_wrap (by omega)]
  have reach : InReach (startLevel memMap) (wrap (startLevel memMap) va) := wrap_inReach
  generalize wrap (startLevel memMap) va = va at reach
  unfold setOneRegion
  rw [read_bind]
  cases found : findPte memMap s va (startLevel memMap + k) with
  | none => exact fun _ _ => rfl
  | some pte =>
    have visited := ((findPte_iff (by omega)).mp found).1
    simp only
    by_cases aligned : isAligned va size (2 ^ level2shift (startLevel memMap + k : Nat))
    · rw [if_pos aligned]
      have later := modify_later tables reach visited attrs flag
      exact ⟨later.kept, later⟩
    · rw [if_neg aligned]
      refine (splitIfBlock_guards tables reach visited upper).bind (fun _ between kept later => ?_)
      rw [read_bind]
      split
      · exact kept
      · exact ⟨kept, later⟩

/-- One turn of the loop over the levels. -/
theorem setGranule_guards (tables : MapTables memMap other s) {levels : List Nat}
    (inside : ∀ level ∈ levels, 1 ≤ level ∧ level ≤ 3) (va size : Nat) (attrs : BitVec 64) (flag : Bool) :
    (setGranule memMap va size attrs flag levels s).Guards (Kept other s)
      (fun _ t => Later (startLevel memMap) other s t) := by
  induction levels generalizing s with
  | nil => exact ⟨fun _ _ => rfl, Later.refl tables⟩
  | cons level levels ih =>
    rw [setGranule]
    obtain ⟨upper, lower⟩ := inside level (by simp)
    refine (setOneRegion_guards tables upper lower va size attrs flag).bind (fun r between kept later => ?_)
    split
    · exact ⟨kept, later⟩
    · exact (ih later.tables (fun level member => inside level (by simp [member]))).mono (fun t more => kept.trans more)
        (fun _ t rest => later.trans rest)

/-! ## A pass over a range -/

/-- The loop over the range, stopped after at most `turns` turns; returns how
many were left. -/
def setRegionTurns (memMap : List MmRegion) (attrs : BitVec 64) (flag : Bool) : (turns start size : Nat) → Pt Nat
  | 0, _, _ => return 0
  | turns + 1, start, size =>
    if size = 0 then return turns + 1
    else do
      let r ← setGranule memMap start size attrs flag [1, 2, 3]
      setRegionTurns memMap attrs flag turns ((start + r) % 2 ^ 64) (size - r)

/-- The loop is its turns; when there are too many of them it does not end. -/
theorem setRegion_eq_turns (attrs : BitVec 64) (flag : Bool) (fuel va size : Nat) :
    setRegion memMap attrs flag fuel va size =
      setRegionTurns memMap attrs flag fuel va size >>= fun left => if left = 0 then hang else pure () := by
  induction fuel generalizing va size with
  | zero => rfl
  | succ fuel ih =>
    rw [setRegion, setRegionTurns]
    by_cases done : size = 0
    · rw [if_pos done, if_pos done]
      rfl
    · rw [if_neg done, if_neg done, Machine.bind_assoc]
      congr 1
      funext r
      exact ih _ _

private theorem setRegionTurns_guards (tables : MapTables memMap other s) (attrs : BitVec 64) (flag : Bool)
    (turns va size : Nat) :
    (setRegionTurns memMap attrs flag turns va size s).Guards (Kept other s)
      (fun _ t => Later (startLevel memMap) other s t) := by
  induction turns generalizing s va size with
  | zero => exact ⟨fun _ _ => rfl, Later.refl tables⟩
  | succ turns ih =>
    rw [setRegionTurns]
    by_cases done : size = 0
    · rw [if_pos done]
      exact ⟨fun _ _ => rfl, Later.refl tables⟩
    · rw [if_neg done]
      refine (setGranule_guards tables (by decide) va size attrs flag).bind (fun r between kept later => ?_)
      exact (ih later.tables _ _).mono (fun t more => kept.trans more) (fun _ t rest => later.trans rest)

/-- A pass over a range, whatever the range. -/
theorem setRegion_guards (tables : MapTables memMap other s) (attrs : BitVec 64) (flag : Bool) (fuel va size : Nat) :
    (setRegion memMap attrs flag fuel va size s).Guards (Kept other s)
      (fun _ t => Later (startLevel memMap) other s t) := by
  rw [setRegion_eq_turns]
  refine (setRegionTurns_guards tables attrs flag fuel va size).bind (fun left between kept later => ?_)
  split
  · trivial
  · exact ⟨kept, later⟩

end Steps

/-! ## Runs of calls -/

/-- The calls that change a region. -/
inductive Call where
  | changeRegionAttr (addr siz : Nat) (attrs : BitVec 64)
  | setRegionDcacheBehaviour (start size option : Nat)

def Call.code (memMap : List MmRegion) : Call → Pt Unit
  | .changeRegionAttr addr siz attrs => mmuChangeRegionAttr memMap addr siz attrs
  | .setRegionDcacheBehaviour start size option => mmuSetRegionDcacheBehaviour memMap start size option

/-- The call up to some turn of its loops, which need not end. -/
def Call.turns (memMap : List MmRegion) (count : Nat) : Call → Pt Nat
  | .changeRegionAttr addr siz attrs => do
    let left ← setRegionTurns memMap pteTypeFault true count addr siz
    setRegionTurns memMap attrs true left addr siz
  | .setRegionDcacheBehaviour start size option => do
    let s ← read
    if s.tlbEmerg = 0 then panic .emergencyNotSetup
    else setRegionTurns memMap (BitVec.ofNat 64 (option <<< 2 % 2 ^ 32)) false count start size

/-- The range of a call. -/
def Call.start : Call → Nat
  | .changeRegionAttr addr _ _ => addr
  | .setRegionDcacheBehaviour start _ _ => start

def Call.size : Call → Nat
  | .changeRegionAttr _ siz _ => siz
  | .setRegionDcacheBehaviour _ size _ => size

/-- New attributes keep the range valid. -/
def Call.Valid : Call → Prop
  | .changeRegionAttr _ _ attrs => attrs.getLsbD 0 = true
  | .setRegionDcacheBehaviour _ _ _ => True

/-- A call that returns takes the tables to its last state; one that panics or
does not end is the end of the run. -/
def Call.step (memMap : List MmRegion) (s : Mmu) (call : Call) : Option Mmu := (call.code memMap s).after?

section Runs
variable {memMap : List MmRegion} {other : Nat → Prop} {s t : Mmu}

theorem call_guards (tables : MapTables memMap other s) (call : Call) :
    (call.code memMap s).Guards (Kept other s) (fun _ t => Later (startLevel memMap) other s t) := by
  cases call with
  | changeRegionAttr addr siz attrs =>
    refine (setRegion_guards tables pteTypeFault true _ addr siz).bind (fun _ between kept later => ?_)
    exact (setRegion_guards later.tables attrs true _ addr siz).mono (fun t more => kept.trans more)
      (fun _ t rest => later.trans rest)
  | setRegionDcacheBehaviour start size option =>
    show (mmuSetRegionDcacheBehaviour memMap start size option s).Guards _ _
    unfold mmuSetRegionDcacheBehaviour
    rw [read_bind]
    split
    · exact fun _ _ => rfl
    · exact setRegion_guards tables _ false _ start size

theorem turns_guards (tables : MapTables memMap other s) (count : Nat) (call : Call) :
    (call.turns memMap count s).Guards (Kept other s) (fun _ t => Later (startLevel memMap) other s t) := by
  cases call with
  | changeRegionAttr addr siz attrs =>
    refine (setRegionTurns_guards tables pteTypeFault true count addr siz).bind (fun left between kept later => ?_)
    exact (setRegionTurns_guards later.tables attrs true left addr siz).mono (fun t more => kept.trans more)
      (fun _ t rest => later.trans rest)
  | setRegionDcacheBehaviour start size option =>
    rw [Call.turns, read_bind]
    split
    · exact fun _ _ => rfl
    · exact setRegionTurns_guards tables _ false count start size

private theorem step_later (tables : MapTables memMap other s) (call : Call) (stepped : call.step memMap s = some t) :
    Later (startLevel memMap) other s t := by
  obtain ⟨_, returned⟩ := Outcome.ret_of_after stepped
  have guards := call_guards tables call
  rw [returned] at guards
  exact guards.2

theorem run_later (tables : MapTables memMap other s) (calls : List Call)
    (ran : run (Call.step memMap) s calls = some t) : Later (startLevel memMap) other s t := by
  have preserved : ∀ state call after, Later (startLevel memMap) other s state →
      Call.step memMap state call = some after → Later (startLevel memMap) other s after :=
    fun state call after later stepped => later.trans (step_later later.tables call stepped)
  exact run_invariant preserved (Later.refl tables) calls ran

end Runs

end RockOs.PageTableChanges
