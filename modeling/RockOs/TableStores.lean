import RockOs.PageTableAttributes

/-! The stores that a pass over a region makes to the tables, one by one, and
what the tables mean between any two of them. -/
namespace RockOs.TableStores
open Machine PageTables PageDescriptors PageWalk PageTableSteps PageLeaves PageTableSetup PageTableChanges
open PageTableRegions PageTablePasses PageTableAttributes RadixTable

/-- A store to table memory. The `memset` of a new table counts as one. -/
inductive Store where
  | word (pte : Nat) (value : BitVec 64)
  | clear (table : Nat)

def Store.apply (mem : Nat → BitVec 64) : Store → Nat → BitVec 64
  | .word pte value => Function.update mem pte value
  | .clear table => clearTable mem table

def after (mem : Nat → BitVec 64) (stores : List Store) : Nat → BitVec 64 := stores.foldl Store.apply mem

/-- `P` holds before, between and after the stores. -/
def Throughout (P : (Nat → BitVec 64) → Prop) : List Store → (Nat → BitVec 64) → Prop
  | [], mem => P mem
  | store :: stores, mem => P mem ∧ Throughout P stores (store.apply mem)

/-- None of the cells is stored to. -/
def Store.Avoids (cells : Nat → Prop) : Store → Prop
  | .word pte _ => ¬ cells pte
  | .clear table => ∀ x, table ≤ x → x < table + 4096 → ¬ cells x

section Stores
variable {mem : Nat → BitVec 64} {P Q : (Nat → BitVec 64) → Prop} {stores more : List Store} {cells : Nat → Prop}

private theorem apply_clear : (Store.clear table).apply mem = clearTable mem table := rfl

theorem after_cons : after mem (store :: stores) = after (store.apply mem) stores := rfl

private theorem after_append : after mem (stores ++ more) = after (after mem stores) more := List.foldl_append

theorem Throughout.append (first : Throughout P stores mem) (second : Throughout P more (after mem stores)) :
    Throughout P (stores ++ more) mem := by
  induction stores generalizing mem with
  | nil => exact second
  | cons store stores ih => exact ⟨first.1, ih first.2 second⟩

theorem Throughout.mono (throughout : Throughout P stores mem) (weaker : ∀ mem, P mem → Q mem) :
    Throughout Q stores mem := by
  induction stores generalizing mem with
  | nil => exact weaker mem throughout
  | cons store stores ih => exact ⟨weaker mem throughout.1, ih throughout.2⟩

theorem Throughout.ends (throughout : Throughout P stores mem) : P (after mem stores) := by
  induction stores generalizing mem with
  | nil => exact throughout
  | cons store stores ih => exact ih throughout.2

theorem Store.Avoids.apply {store : Store} (avoids : store.Avoids cells) (inside : cells x) :
    store.apply mem x = mem x := by
  cases store with
  | word pte value =>
    refine Function.update_of_ne ?_ _ _
    rintro rfl
    exact avoids inside
  | clear table =>
    refine if_neg ?_
    rintro ⟨low, high⟩
    exact avoids x low high inside

/-- Cells that no store goes to keep what they hold. -/
theorem throughout_avoids (mem : Nat → BitVec 64) (avoid : ∀ store ∈ stores, store.Avoids cells) :
    Throughout (fun now => ∀ x, cells x → now x = mem x) stores mem := by
  induction stores generalizing mem with
  | nil => exact fun _ _ => rfl
  | cons store stores ih =>
    rw [List.forall_mem_cons] at avoid
    refine ⟨fun _ _ => rfl, (ih _ avoid.2).mono (fun now same x inside => ?_)⟩
    rw [same x inside, avoid.1.apply inside]

end Stores

/-! ## The stores of the code -/

/-- What comes behind a call, if it returns. -/
def behind (outcome : Outcome Mmu Panic α) (next : α → Mmu → List Store) : List Store :=
  match outcome with
  | .ret value t => next value t
  | _ => []

/-- The entry `i` of the table that takes the place of the block `old`; a page
gets its type by a second store. -/
def entryStores (old : BitVec 64) (level table i : Nat) : List Store :=
  .word (table + 8 * i) (old ||| (BitVec.ofNat 64 i <<< level2shift (level + 1))) ::
    if level + 1 = 3 then [.word (table + 8 * i) (splitEntry old level i)] else []

/-- The stores of `split_block` to its new table. -/
def freshStores (old : BitVec 64) (level table : Nat) : List Store :=
  .clear table :: (List.range 512).flatMap (entryStores old level table)

def splitBlockStores (pte level : Nat) (s : Mmu) : List Store :=
  behind (createTable s) fun table _ =>
    freshStores (s.mem pte) level table ++ [.word pte (pteTypeTable ||| BitVec.ofNat 64 table)]

/-- The old attributes are cleared before the new ones are set. -/
def attrStores (pte : Nat) (d attrs : BitVec 64) (flag : Bool) : List Store :=
  [.word pte (d &&& ~~~changedBits flag), .word pte (withAttrs d attrs flag)]

section Code
variable (memMap : List MmRegion)

def setOneRegionStores (start size : Nat) (attrs : BitVec 64) (flag : Bool) (level : Nat) (s : Mmu) : List Store :=
  match findPte memMap s start level with
  | none => []
  | some pte =>
    if isAligned start size (2 ^ level2shift level) then attrStores pte (s.mem pte) attrs flag
    else if pteType (s.mem pte) = pteTypeBlock then splitBlockStores pte level s
    else []

def setGranuleStores (start size : Nat) (attrs : BitVec 64) (flag : Bool) : List Nat → Mmu → List Store
  | [], _ => []
  | level :: levels, s => setOneRegionStores memMap start size attrs flag level s ++
    behind (setOneRegion memMap start size attrs flag level s) fun r t =>
      if r ≠ 0 then [] else setGranuleStores start size attrs flag levels t

def setRegionStores (attrs : BitVec 64) (flag : Bool) : (fuel start size : Nat) → Mmu → List Store
  | 0, _, _, _ => []
  | fuel + 1, start, size, s =>
    if size = 0 then []
    else setGranuleStores memMap start size attrs flag [1, 2, 3] s ++
      behind (setGranule memMap start size attrs flag [1, 2, 3] s) fun r t =>
        setRegionStores attrs flag fuel ((start + r) % 2 ^ 64) (size - r) t

end Code

/-! ## The memory behind the stores -/

/-- Wherever the code stops, it has made these stores. -/
def Traced (code : Pt α) (stores : Mmu → List Store) : Prop :=
  ∀ s, (code s).Guards (fun t => t.mem = after s.mem (stores s)) (fun _ _ => True)

section Traced
variable {memMap : List MmRegion} {s t : Mmu}

theorem Traced.bind {first : Pt α} {next : α → Pt β} {stores : Mmu → List Store} {more : α → Mmu → List Store}
    (traced : Traced first stores) (rest : ∀ value, Traced (next value) (more value)) :
    Traced (first >>= next) (fun s => stores s ++ behind (first s) more) := by
  intro s
  have begun := traced s
  simp only
  cases ended : first s with
  | ret value between =>
    rw [ended] at begun
    rw [bind_of_ret ended]
    refine (rest value between).mono (fun t made => ?_) (fun _ _ done => done)
    rw [made, begun.1, behind, after_append]
  | panic | fault | hang =>
    -- What stops in the first part makes no more stores.
    have stopped : (first s).Guards (fun t => t.mem = after s.mem (stores s ++ [])) (fun _ _ => False) := by
      rw [List.append_nil]
      rw [ended] at begun ⊢
      exact begun
    exact stopped.bind (fun _ _ _ never => never.elim)

theorem Traced.of_ret {code : Pt α} {stores : Mmu → List Store} (traced : Traced code stores)
    (returned : code s = .ret value t) : t.mem = after s.mem (stores s) := by
  have guards := traced s
  rw [returned] at guards
  exact guards.1

private theorem after_entryStores (old : BitVec 64) (level table i : Nat) (mem : Nat → BitVec 64) :
    after mem (entryStores old level table i) = Function.update mem (table + 8 * i) (splitEntry old level i) := by
  unfold entryStores splitEntry
  split
  · exact Function.update_idem _ _ _
  · rfl

private theorem after_entries (old : BitVec 64) (level table count : Nat) (mem : Nat → BitVec 64) :
    after mem ((List.range count).flatMap (entryStores old level table)) = splitEntries old level table count mem := by
  induction count with
  | zero => rfl
  | succ count ih =>
    rw [List.range_succ, List.flatMap_append, after_append, ih, List.flatMap_singleton, after_entryStores, splitEntries]

private theorem after_freshStores (old : BitVec 64) (level table : Nat) (mem : Nat → BitVec 64) :
    after mem (freshStores old level table) = splitEntries old level table 512 (clearTable mem table) := by
  rw [freshStores, after_cons, apply_clear, after_entries]

private theorem createTable_cases (s : Mmu) :
    createTable s = .panic .insufficientRam { s with tlbFillptr := (s.tlbFillptr + 4096) % 2 ^ 64 } ∨
      createTable s = .ret s.tlbFillptr
        { s with tlbFillptr := (s.tlbFillptr + 4096) % 2 ^ 64, mem := clearTable s.mem s.tlbFillptr } := by
  unfold createTable
  simp only [read_bind, write_bind]
  split
  · exact .inl rfl
  · exact .inr rfl

private theorem splitBlock_traced (pte level : Nat) (s : Mmu) (block : pteType (s.mem pte) = pteTypeBlock) :
    (splitBlock pte level s).Guards (fun t => t.mem = after s.mem (splitBlockStores pte level s)) (fun _ _ => True) := by
  unfold splitBlock splitBlockStores
  rw [read_bind, if_neg (not_not.mpr block)]
  rcases createTable_cases s with full | made
  · rw [bind_of_panic full, full]
    rfl
  · rw [bind_of_ret made, read_bind, write_bind, setPteTable_run, made]
    refine ⟨?_, trivial⟩
    show Function.update (splitEntries (s.mem pte) level s.tlbFillptr 512 (clearTable s.mem s.tlbFillptr)) pte _ =
      after s.mem (freshStores (s.mem pte) level s.tlbFillptr ++ _)
    rw [after_append, after_freshStores]
    rfl

private theorem after_attrStores (pte : Nat) (d attrs : BitVec 64) (flag : Bool) (mem : Nat → BitVec 64) :
    after mem (attrStores pte d attrs flag) = Function.update mem pte (withAttrs d attrs flag) :=
  Function.update_idem _ _ _

private theorem setOneRegion_traced (start size : Nat) (attrs : BitVec 64) (flag : Bool) (level : Nat) :
    Traced (setOneRegion memMap start size attrs flag level)
    (setOneRegionStores memMap start size attrs flag level) := by
  intro s
  unfold setOneRegion setOneRegionStores
  rw [read_bind]
  cases found : findPte memMap s start level with
  | none => rfl
  | some pte =>
    simp only
    split
    · exact ⟨(after_attrStores _ _ _ _ _).symm, trivial⟩
    · have split : (splitIfBlock pte level s).Guards (fun t => t.mem = after s.mem
          (if pteType (s.mem pte) = pteTypeBlock then splitBlockStores pte level s else [])) (fun _ _ => True) := by
        unfold splitIfBlock
        rw [read_bind]
        by_cases block : pteType (s.mem pte) = pteTypeBlock
        · rw [if_pos block, if_pos block]
          exact splitBlock_traced pte level s block
        · rw [if_neg block, if_neg block]
          exact ⟨rfl, trivial⟩
      refine split.bind (fun _ between made _ => ?_)
      rw [read_bind]
      by_cases table : pteType (between.mem pte) ≠ pteTypeTable
      · rw [if_pos table]
        exact made
      · rw [if_neg table]
        exact ⟨made, trivial⟩

private theorem setGranule_traced (start size : Nat) (attrs : BitVec 64) (flag : Bool) (levels : List Nat) :
    Traced (setGranule memMap start size attrs flag levels) (setGranuleStores memMap start size attrs flag levels) := by
  induction levels with
  | nil => exact fun s => ⟨rfl, trivial⟩
  | cons level levels ih =>
    refine (setOneRegion_traced start size attrs flag level).bind (fun r s => ?_)
    by_cases set : r ≠ 0
    · rw [if_pos set, if_pos set]
      exact ⟨rfl, trivial⟩
    · rw [if_neg set, if_neg set]
      exact ih s

theorem setRegion_traced (attrs : BitVec 64) (flag : Bool) (fuel start size : Nat) :
    Traced (setRegion memMap attrs flag fuel start size) (setRegionStores memMap attrs flag fuel start size) := by
  induction fuel generalizing start size with
  | zero => exact fun s => trivial
  | succ fuel ih =>
    intro s
    rw [setRegion, setRegionStores]
    by_cases done : size = 0
    · rw [if_pos done, if_pos done]
      exact ⟨rfl, trivial⟩
    · rw [if_neg done, if_neg done]
      have rest := fun r => ih ((start + r) % 2 ^ 64) (size - r)
      exact (setGranule_traced start size attrs flag [1, 2, 3]).bind rest s

end Traced

/-! ## What the stores leave alone -/

section Avoids
variable {memMap : List MmRegion} {other cells : Nat → Prop} {s : Mmu} {pte level : Nat} {store : Store}

theorem Store.Avoids.mono {more : Nat → Prop} (avoids : store.Avoids more) (fewer : ∀ x, cells x → more x) :
    store.Avoids cells := by
  cases store with
  | word pte value => exact fun inside => avoids (fewer _ inside)
  | clear table => exact fun x low high inside => avoids x low high (fewer x inside)

private theorem freshStores_avoid (old : BitVec 64) (level table : Nat) :
    ∀ store ∈ freshStores old level table, store.Avoids (· < table) := by
  intro store member
  rw [freshStores, List.mem_cons, List.mem_flatMap] at member
  rcases member with rfl | ⟨i, _, entry⟩
  · exact fun x low _ below => absurd below (Nat.not_lt.mpr low)
  · have here : ∃ value, store = .word (table + 8 * i) value := by
      unfold entryStores at entry
      rcases List.mem_cons.mp entry with rfl | second
      · exact ⟨_, rfl⟩
      · split at second
        · exact ⟨_, List.mem_singleton.mp second⟩
        · cases second
    obtain ⟨value, rfl⟩ := here
    exact fun below => absurd below (by omega)

private theorem splitBlockStores_avoid (filled : ∀ x, cells x → x < s.tlbFillptr) (out : ¬ cells pte) :
    ∀ store ∈ splitBlockStores pte level s, store.Avoids cells := by
  intro store member
  unfold splitBlockStores at member
  rcases createTable_cases s with full | made
  · rw [full] at member
    cases member
  · rw [made] at member
    rcases List.mem_append.mp member with fresh | link
    · exact (freshStores_avoid _ _ _ store fresh).mono filled
    · rw [List.mem_singleton.mp link]
      exact out

/-- Whatever the range, nothing of others is stored to. -/
theorem setOneRegionStores_avoid (tables : MapTables memMap other s) (upper : 1 ≤ level) (lower : level ≤ 3)
    (va size : Nat) (attrs : BitVec 64) (flag : Bool) :
    ∀ store ∈ setOneRegionStores memMap va size attrs flag level s, store.Avoids other := by
  intro store member
  have top : startLevel memMap ≤ 1 := startLevel_le
  obtain ⟨k, rfl⟩ : ∃ k, level = startLevel memMap + k := ⟨level - startLevel memMap, by omega⟩
  unfold setOneRegionStores at member
  cases found : findPte memMap s va (startLevel memMap + k) with
  | none =>
    rw [found] at member
    cases member
  | some pte =>
    have out : ¬ other pte := by
      rw [← findPte_wrap (by omega)] at found
      exact (tables.slot_inside wrap_inReach ((findPte_iff (by omega)).mp found).1).2
    rw [found] at member
    simp only at member
    split at member
    · unfold attrStores at member
      rcases List.mem_cons.mp member with rfl | second
      · exact out
      · rw [List.mem_singleton.mp second]
        exact out
    · split at member
      · exact splitBlockStores_avoid tables.outside out store member
      · cases member

private theorem setGranuleStores_avoid (tables : MapTables memMap other s) {levels : List Nat}
    (inside : ∀ level ∈ levels, 1 ≤ level ∧ level ≤ 3) (va size : Nat) (attrs : BitVec 64) (flag : Bool) :
    ∀ store ∈ setGranuleStores memMap va size attrs flag levels s, store.Avoids other := by
  induction levels generalizing s with
  | nil => exact fun store member => by cases member
  | cons level levels ih =>
    rw [List.forall_mem_cons] at inside
    intro store member
    rcases List.mem_append.mp member with here | later
    · exact setOneRegionStores_avoid tables inside.1.1 inside.1.2 va size attrs flag store here
    · have guards := setOneRegion_guards tables inside.1.1 inside.1.2 va size attrs flag
      cases ended : setOneRegion memMap va size attrs flag level s with
      | ret r t =>
        rw [ended] at later guards
        unfold behind at later
        simp only at later
        split at later
        · cases later
        · exact ih guards.2.tables inside.2 store later
      | panic | fault | hang =>
        rw [ended] at later
        cases later

theorem setRegionStores_avoid (tables : MapTables memMap other s) (attrs : BitVec 64) (flag : Bool)
    (fuel va size : Nat) :
    ∀ store ∈ setRegionStores memMap attrs flag fuel va size s, store.Avoids other := by
  induction fuel generalizing s va size with
  | zero => exact fun store member => by cases member
  | succ fuel ih =>
    intro store member
    rw [setRegionStores] at member
    split at member
    · cases member
    · rcases List.mem_append.mp member with here | later
      · exact setGranuleStores_avoid tables (by decide) va size attrs flag store here
      · have guards := setGranule_guards tables (show ∀ level ∈ [1, 2, 3], 1 ≤ level ∧ level ≤ 3 by decide)
          va size attrs flag
        cases ended : setGranule memMap va size attrs flag [1, 2, 3] s with
        | ret r t =>
          rw [ended] at later guards
          exact ih guards.2.tables _ _ store later
        | panic | fault | hang =>
          rw [ended] at later
          cases later

end Avoids

/-! ## What the hardware sees meanwhile -/

/-- What a walk of the tables at `root` finds. -/
def seen (memMap : List MmRegion) (root : Nat) (mem : Nat → BitVec 64) (va : Nat) : Option (Nat × BitVec 64) :=
  translate memMap { mem, tlbAddr := root, tlbSize := 0, tlbFillptr := 0, tlbEmerg := 0 } va

/-- On the way from the tables `old` to the tables `new`, a walk finds what one of
them says or nothing. -/
def Amid (memMap : List MmRegion) (root : Nat) (old new now : Nat → BitVec 64) : Prop :=
  ∀ va, seen memMap root now va = seen memMap root old va ∨ seen memMap root now va = none ∨
    seen memMap root now va = seen memMap root new va

section Seen
variable {memMap : List MmRegion} {other : Nat → Prop} {s t u : Mmu} {mem : Nat → BitVec 64}
  {p k i count size r first stop fuel pte root : Nat} {attrs : BitVec 64} {P : (Nat → BitVec 64) → Prop}

/-- Walks that mean the same are seen the same. -/
theorem seen_congr {old : Nat → BitVec 64} (va : Nat) (same : InReach (startLevel memMap) va →
      meaning (startLevel memMap) (entriesFrom mem va (startLevel memMap) root) va =
        meaning (startLevel memMap) (entriesFrom old va (startLevel memMap) root) va) :
    seen memMap root mem va = seen memMap root old va := by
  unfold seen
  by_cases inside : va < 2 ^ (getTcr memMap 0).vaBits
  · rw [translate_eq inside, translate_eq inside]
    exact same (PageWalk.reach inside)
  · rw [translate_outside (by omega), translate_outside (by omega)]

private theorem seen_finer (addr : t.tlbAddr = s.tlbAddr) (va : Nat)
    (finer : InReach (startLevel memMap) va →
      Finer (startLevel memMap) va (entries (startLevel memMap) s va) (entries (startLevel memMap) t va))
    (settled : AllSettled (startLevel memMap) s) :
    seen memMap s.tlbAddr t.mem va = seen memMap s.tlbAddr s.mem va := by
  refine seen_congr va (fun reach => ?_)
  have same := ((finer reach).meaning_eq (settled va reach)).1
  unfold entries at same
  rwa [addr] at same

/-- What is stored outside the tables is not seen. -/
theorem seen_framed (tables : MapTables memMap other s) (same : ∀ x, Own other s x → mem x = s.mem x) (va : Nat) :
    seen memMap s.tlbAddr mem va = seen memMap s.tlbAddr s.mem va := by
  refine seen_congr va (fun reach => ?_)
  have walks : entriesFrom mem va (startLevel memMap) s.tlbAddr = _ := (tables.tree.frame same).2 va reach
  rw [walks]

private theorem seen_none_of_invalid (d : BitVec 64) (met : (entriesFrom mem va (startLevel memMap) root)[k]? = some d)
    (invalid : d.getLsbD 0 = false) : seen memMap root mem va = none := by
  unfold seen
  by_cases inside : va < 2 ^ (getTcr memMap 0).vaBits
  · have nothing : decode (startLevel memMap) (entriesFrom mem va (startLevel memMap) root) = none := by
      by_contra found
      have valid := decode_valid found d (List.mem_of_getElem? met)
      rw [invalid] at valid
      cases valid
    rw [translate_eq inside, meaning, nothing, Option.map_none]
  · exact translate_outside (by omega)

/-- Between the two stores to an entry the walks through it find nothing. -/
theorem attrStores_amid (tables : MapTables memMap other s) (reach : InReach (startLevel memMap) p)
    (visited : (slots (startLevel memMap) s p)[k]? = some pte) (attrs : BitVec 64) :
    Throughout (Amid memMap s.tlbAddr s.mem (Function.update s.mem pte (withAttrs (s.mem pte) attrs true)))
      (attrStores pte (s.mem pte) attrs true) s.mem := by
  refine ⟨fun va => .inl rfl, fun va => ?_, fun va => .inr (.inr ?_)⟩
  · have cleared : s.mem pte &&& ~~~changedBits true = withAttrs (s.mem pte) 0#64 true := by
      rw [withAttrs, if_pos rfl, BitVec.zero_and, BitVec.or_zero]
      rfl
    rw [Store.apply, cleared]
    obtain ⟨_, _, through, rest⟩ := tables.modify reach visited 0#64 true
    by_cases inReach : InReach (startLevel memMap) va
    · by_cases agree : format.Same (levelsFrom (startLevel memMap)) (k + 1) p va
      · have met := entry_of_slot (visited_of_same visited agree)
        have now := through va inReach agree
        refine .inr (.inl (seen_none_of_invalid (k := k) (withAttrs (s.mem pte) 0#64 true) ?_ ?_))
        · have stored : (entries (startLevel memMap) (s.set pte (withAttrs (s.mem pte) 0#64 true)) va)[k]? = _ :=
            congrArg (·[k]?) now
          rw [List.getElem?_modify_eq, met] at stored
          exact stored
        · rw [withAttrs_bit (by omega), changedBits_bit]
          rfl
      · exact .inl (seen_congr va (fun _ => congrArg (meaning _ · va) (rest va inReach agree)))
    · exact .inl (seen_congr va (fun inside => absurd inside inReach))
  · rw [Store.apply, Store.apply, Function.update_idem]

/-- A split is seen at its last store only. -/
theorem splitBlockStores_through (level : Nat) (fresh : ∀ mem, (∀ x < s.tlbFillptr, mem x = s.mem x) → P mem)
    (ends : P (after s.mem (splitBlockStores pte level s))) : Throughout P (splitBlockStores pte level s) s.mem := by
  unfold splitBlockStores at ends ⊢
  rcases createTable_cases s with full | made
  · rw [full]
    exact fresh _ (fun _ _ => rfl)
  · rw [made] at ends ⊢
    have before := (throughout_avoids s.mem (freshStores_avoid (s.mem pte) level s.tlbFillptr)).mono fresh
    refine before.append ⟨before.ends, ?_⟩
    rwa [behind, after_append] at ends

private theorem setOneRegionStores_above {level : Nat} {flag : Bool} (above : ¬ isAligned p size (2 ^ level2shift level))
    (fresh : ∀ mem, (∀ x < s.tlbFillptr, mem x = s.mem x) → P mem)
    (ends : P (after s.mem (setOneRegionStores memMap p size attrs flag level s))) :
    Throughout P (setOneRegionStores memMap p size attrs flag level s) s.mem := by
  have here : P s.mem := fresh _ (fun _ _ => rfl)
  unfold setOneRegionStores at ends ⊢
  cases found : findPte memMap s p level with
  | none => exact here
  | some pte =>
    rw [found] at ends
    simp only [above, ↓reduceIte] at ends ⊢
    by_cases block : pteType (s.mem pte) = pteTypeBlock
    · rw [if_pos block] at ends ⊢
      exact splitBlockStores_through level fresh ends
    · rw [if_neg block]
      exact here

/-- One turn of the loop. -/
theorem setGranule_amid (tables : MapTables memMap other s) (settled : AllSettled (startLevel memMap) s)
    (turn : Turn memMap p size k i s) (levels : i + count = k)
    (returned : setGranule memMap p size attrs true (levelsFrom (startLevel memMap + i)) s = .ret r t) :
    Throughout (Amid memMap s.tlbAddr s.mem t.mem)
      (setGranuleStores memMap p size attrs true (levelsFrom (startLevel memMap + i)) s) s.mem := by
  induction count generalizing i s with
  | zero =>
    obtain rfl : i = k := levels
    obtain ⟨reach, _, _, here, _, ready, deep⟩ := turn
    obtain ⟨pte, found, visited, ran⟩ := setOneRegion_here attrs true ready deep here
    have positive : 2 ^ level2shift (startLevel memMap + i : Nat) ≠ 0 := (Nat.two_pow_pos _).ne'
    have stores : setOneRegionStores memMap p size attrs true (startLevel memMap + i) s =
        attrStores pte (s.mem pte) attrs true := by
      unfold setOneRegionStores
      rw [found]
      simp only [here, ↓reduceIte]
    rw [levelsFrom_cons (by omega), setGranule, bind_of_ret ran, if_pos positive] at returned
    cases returned
    rw [levelsFrom_cons (by omega), setGranuleStores, ran, behind, if_pos positive, List.append_nil, stores]
    exact attrStores_amid tables reach visited attrs
  | succ count ih =>
    have bounds := turn
    obtain ⟨reach, small, upper, _, above, ready, deep⟩ := bounds
    have unaligned := above _ upper (by omega)
    have first := setOneRegion_above attrs true tables reach small upper (by omega) unaligned ready deep
    rw [levelsFrom_cons (by omega), setGranule] at returned
    obtain ⟨taken, between, ended, rest⟩ := ret_of_bind returned
    obtain ⟨within, nothing, opened, deeper, changes⟩ := Outcome.Ends.of_ret (first.builds le_rfl) ended
    rw [if_neg (by rw [nothing]; simp)] at rest
    rw [levelsFrom_cons (by omega), setGranuleStores, ended, behind, if_neg (by rw [nothing]; simp)]
    have made := (setOneRegion_traced p size attrs true (startLevel memMap + i)).of_ret ended
    have same : ∀ va, seen memMap s.tlbAddr between.mem va = seen memMap s.tlbAddr s.mem va :=
      fun va => seen_finer within.addr va (fun reachB => (changes va reachB).1.finer) settled
    have settles : AllSettled (startLevel memMap) between :=
      fun b reachB => ((changes b reachB).1.finer.meaning_eq (settled b reachB)).2
    have next : Throughout _ (setGranuleStores memMap p size attrs true (levelsFrom (startLevel memMap + (i + 1)))
        between) between.mem :=
      ih opened settles (turn.next (changes p reach).1.finer (by omega)) (by omega) rest
    have fresh : ∀ mem, (∀ x < s.tlbFillptr, mem x = s.mem x) → Amid memMap s.tlbAddr s.mem t.mem mem :=
      fun mem beyond va => .inl (seen_framed tables (fun x own => beyond x own.1) va)
    refine Throughout.append (setOneRegionStores_above unaligned fresh ?_) ?_
    · rw [← made]
      exact fun va => .inl (same va)
    · rw [← made]
      refine next.mono (fun mem amid va => ?_)
      rw [← same va, ← within.addr]
      exact amid va

private theorem firstTurn_amid (ahead : Ahead memMap first stop s) (more : first < stop)
    (tables : MapTables memMap other s) (settled : AllSettled (startLevel memMap) s)
    (returned : setGranule memMap first (stop - first) attrs true [1, 2, 3] s = .ret r t) :
    Throughout (Amid memMap s.tlbAddr s.mem t.mem)
      (setGranuleStores memMap first (stop - first) attrs true [1, 2, 3] s) s.mem := by
  have top : startLevel memMap ≤ 1 := startLevel_le
  have bounds := granule_bounds first stop first
  have all : levelsFrom (startLevel memMap + (1 - startLevel memMap)) = [1, 2, 3] := by
    rw [show startLevel memMap + (1 - startLevel memMap) = 1 by omega]
    rfl
  rw [← all] at returned ⊢
  exact setGranule_amid tables settled (ahead.turn more)
    (show _ + (granule first stop first - 1) = granule first stop first - startLevel memMap by omega) returned

/-- Of what a turn sees to, the rest of the pass changes nothing, and before it the
turn changes nothing of what comes later. -/
theorem seen_turned (settled : AllSettled (startLevel memMap) s) (settledNext : AllSettled (startLevel memMap) t)
    {upd : BitVec 64 → BitVec 64} (addr : t.tlbAddr = s.tlbAddr) (addrNext : u.tlbAddr = t.tlbAddr)
    (aligned : first % 2 ^ level2shift (granule first stop first) = 0)
    (turned : Turned (startLevel memMap) first (granule first stop first - startLevel memMap) upd s t)
    (passed : Passed (startLevel memMap) (first + 2 ^ level2shift (granule first stop first)) stop upd t u) (va : Nat) :
    seen memMap s.tlbAddr t.mem va = seen memMap s.tlbAddr s.mem va ∨
      seen memMap s.tlbAddr t.mem va = seen memMap s.tlbAddr u.mem va := by
  by_cases inside : SameBlock (granule first stop first) first va
  · rw [sameBlock_iff aligned] at inside
    rw [← addr]
    exact .inr (seen_finer addrNext va (fun reach => (passed.outside va reach (by omega)).finer) settledNext).symm
  · rw [← granule_level memMap] at inside
    exact .inl (seen_finer addr va (fun reach => (turned.outside va reach inside).finer) settled)

/-- Between any two stores of a pass every address has the translation it had, or
none, or the one that it gets. -/
theorem setRegion_amid (tables : MapTables memMap other s) (settled : AllSettled (startLevel memMap) s)
    (ahead : Ahead memMap first stop s) (enough : (stop - first) / 4096 < fuel)
    (returned : setRegion memMap attrs true fuel first (stop - first) s = .ret () t) :
    Throughout (Amid memMap s.tlbAddr s.mem t.mem)
      (setRegionStores memMap attrs true fuel first (stop - first) s) s.mem := by
  induction fuel generalizing first s with
  | zero => omega
  | succ fuel ih =>
    rw [setRegion] at returned
    rw [setRegionStores]
    by_cases done : stop - first = 0
    · rw [if_pos done]
      exact fun va => .inl rfl
    · rw [if_neg done] at returned ⊢
      have more : first < stop := by omega
      obtain ⟨r, between, ended, rest⟩ := ret_of_bind returned
      obtain ⟨within, set, opened, turned⟩ :=
        Outcome.Ends.of_ret ((ahead.takes more tables attrs true).builds le_rfl) ended
      have guards := setGranule_guards tables (show ∀ level ∈ [1, 2, 3], 1 ≤ level ∧ level ≤ 3 by decide) first
        (stop - first) attrs true
      rw [ended] at guards
      have settledNext := guards.2.settles settled
      obtain ⟨_, aligned, sum, left, fewer⟩ := ahead.cut more
      have next := ahead.next more turned
      rw [set, sum, left] at rest
      obtain ⟨withinNext, _, passed⟩ := Outcome.Ends.of_ret
        ((setRegion_spec attrs true opened next (show _ < fuel by omega)).builds le_rfl) rest
      have apart := seen_turned settled settledNext within.addr withinNext.addr aligned turned passed
      have later := ih opened settledNext next (by omega) rest
      have made := (setGranule_traced first (stop - first) attrs true [1, 2, 3]).of_ret ended
      refine Throughout.append ((firstTurn_amid ahead more tables settled ended).mono (fun mem amid va => ?_)) ?_
      · rcases amid va with old | none | new
        · exact .inl old
        · exact .inr (.inl none)
        · rw [new]
          exact (apart va).imp_right .inr
      · rw [ended, behind, ← made, set, sum, left]
        refine later.mono (fun mem amid va => ?_)
        have here := amid va
        rw [within.addr] at here
        rcases here with old | rest
        · rw [old]
          exact (apart va).imp_right .inr
        · exact .inr rest

/-- A pass that sets the entries of its range to fault leaves nothing of it to be seen. -/
theorem seen_faulted (addr : t.tlbAddr = s.tlbAddr) (settled : AllSettled (startLevel memMap) s)
    (passed : Passed (startLevel memMap) first stop (fun d => withAttrs d pteTypeFault true) s t) (va : Nat) :
    (¬ (first ≤ va ∧ va < stop) → seen memMap s.tlbAddr t.mem va = seen memMap s.tlbAddr s.mem va) ∧
      (first ≤ va ∧ va < stop → InReach (startLevel memMap) va → seen memMap s.tlbAddr t.mem va = none) := by
  refine ⟨fun out => seen_finer addr va (fun reach => (passed.outside va reach out).finer) settled,
    fun range reach => ?_⟩
  obtain ⟨qs, _, length, _, result⟩ := passed.inside va reach range.1 range.2
  obtain ⟨d, met⟩ : ∃ d, qs[granule first stop va - startLevel memMap]? = some d :=
    ⟨_, List.getElem?_eq_getElem (by omega)⟩
  have stored := congrArg (·[granule first stop va - startLevel memMap]?) result
  simp only [List.getElem?_modify_eq, met] at stored
  rw [← addr]
  refine seen_none_of_invalid _ stored ?_
  rw [withAttrs_bit (by omega), changedBits_bit]
  rfl

/-- Before the tables are flushed for the first time a walk finds the old
translation of an address or none, and afterwards the new one or none. The second
pass splits nothing. -/
theorem changeRegionAttr_amid (tables : MapTables memMap other s) (settled : AllSettled (startLevel memMap) s)
    (page : first % 4096 = 0) (pages : size % 4096 = 0) (mapped : Mapped memMap s first size)
    (returned : mmuChangeRegionAttr memMap first size attrs s = .ret () u) :
    ∃ t, setRegion memMap pteTypeFault true (size / 4096 + 3) first size s = .ret () t ∧
      setRegion memMap attrs true (size / 4096 + 3) first size t = .ret () u ∧
      (∀ b, InReach (startLevel memMap) b → ¬ (first ≤ b ∧ b < first + size) →
        entries (startLevel memMap) u b = entries (startLevel memMap) t b) ∧
      Throughout (fun mem => ∀ va, seen memMap s.tlbAddr mem va = none ∨
          seen memMap s.tlbAddr mem va = seen memMap s.tlbAddr s.mem va)
        (setRegionStores memMap pteTypeFault true (size / 4096 + 3) first size s) s.mem ∧
      Throughout (fun mem => ∀ va, seen memMap s.tlbAddr mem va = none ∨
          seen memMap s.tlbAddr mem va = seen memMap s.tlbAddr u.mem va)
        (setRegionStores memMap attrs true (size / 4096 + 3) first size t) t.mem := by
  obtain ⟨_, t, faulted, set⟩ := ret_of_bind returned
  by_cases none : size = 0
  · subst none
    cases faulted
    cases set
    exact ⟨s, rfl, rfl, fun _ _ _ => rfl, fun va => .inr rfl, fun va => .inr rfl⟩
  have ahead := mapped.ahead page pages none
  obtain ⟨within, opened, passed⟩ := Outcome.Ends.of_ret
    ((setRegion_changes pteTypeFault true tables page pages mapped (by omega)).builds le_rfl) faulted
  have guards := setRegion_guards tables pteTypeFault true (size / 4096 + 3) first size
  rw [faulted] at guards
  have settledNext := guards.2.settles settled
  have enough : (first + size - first) / 4096 < size / 4096 + 3 := by omega
  have again := ahead.again passed
  have length : first + size - first = size := Nat.add_sub_cancel_left first size
  have spec := setRegion_spec attrs true opened again enough
  rw [length] at spec
  obtain ⟨withinNext, _, passedNext⟩ := Outcome.Ends.of_ret (spec.builds le_rfl) set
  have gone := seen_faulted within.addr settled passed
  have amid := setRegion_amid tables settled ahead enough (by rw [length]; exact faulted)
  have amidNext := setRegion_amid opened settledNext again enough (by rw [length]; exact set)
  rw [length] at amid amidNext
  rw [within.addr] at amidNext
  have absent : ∀ va, first ≤ va ∧ va < first + size → seen memMap s.tlbAddr t.mem va = Option.none :=
    fun va range => (gone va).2 range (lt_of_lt_of_le range.2 ahead.reach)
  have deep : ∀ c, first ≤ c → c < first + size → granule first (first + size) c - startLevel memMap <
      (entries (startLevel memMap) t c).length := by
    intro c low high
    obtain ⟨qs, _, depth, _, result⟩ := passed.inside c (lt_of_lt_of_le high ahead.reach) low high
    rw [result, List.length_modify]
    omega
  refine ⟨t, faulted, set, fun b reachB out => passedNext.still startLevel_le ahead.reach deep reachB out,
    amid.mono (fun mem amid va => ?_), amidNext.mono (fun mem amid va => ?_)⟩
  · rcases amid va with old | nothing | new
    · exact .inr old
    · exact .inl nothing
    · by_cases range : first ≤ va ∧ va < first + size
      · exact .inl (new.trans (absent va range))
      · exact .inr (new.trans ((gone va).1 range))
  · rcases amid va with old | nothing | new
    · by_cases range : first ≤ va ∧ va < first + size
      · exact .inl (old.trans (absent va range))
      · have same := seen_finer withinNext.addr va (fun reachB => (passedNext.outside va reachB range).finer) settledNext
        rw [within.addr] at same
        exact .inr (old.trans same.symm)
    · exact .inl nothing
    · exact .inr new

end Seen

end RockOs.TableStores
