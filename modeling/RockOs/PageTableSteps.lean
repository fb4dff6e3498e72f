import RockOs.PageWalk

/-! The steps of `cache_v8.c` on the tables: a new table, a block split into
one, a store to an entry. Each is stated by what it does to the entries that
the walk of an address meets, and by the table space it takes. -/
namespace RockOs.PageTableSteps
open Machine PageTables PageDescriptors PageWalk RadixTable

/-! ## Table space -/

/-- The space for tables: filled up to `tlb_fillptr`, and all of it within the
addresses a table descriptor can hold. -/
structure Space (s : Mmu) : Prop where
  aligned : s.tlbFillptr % 4096 = 0
  low : s.tlbAddr ≤ s.tlbFillptr
  high : s.tlbFillptr ≤ s.tlbAddr + s.tlbSize
  fits : s.tlbAddr + s.tlbSize ≤ 2 ^ 48

/-- The table pages not used yet. -/
def pagesLeft (s : Mmu) : Nat := (s.tlbAddr + s.tlbSize - s.tlbFillptr) / 4096

theorem Space.next_fits {s : Mmu} (space : Space s) (left : pagesLeft s ≠ 0) : s.tlbFillptr < 2 ^ 48 := by
  have fits := space.fits
  unfold pagesLeft at left
  omega

/-- From `s` to `t` at most `n` pages of the same space were used, and nothing
changed at the addresses that belong to others. -/
structure Within (other : Nat → Prop) (n : Nat) (s t : Mmu) : Prop where
  addr : t.tlbAddr = s.tlbAddr
  size : t.tlbSize = s.tlbSize
  emerg : t.tlbEmerg = s.tlbEmerg
  more : s.tlbFillptr ≤ t.tlbFillptr
  used : t.tlbFillptr ≤ s.tlbFillptr + 4096 * n
  kept : ∀ x, other x → t.mem x = s.mem x

section Within
variable {other : Nat → Prop} {s t u : Mmu}

theorem Within.refl (s : Mmu) : Within other n s s where
  addr := rfl
  size := rfl
  emerg := rfl
  more := le_rfl
  used := Nat.le_add_right _ _
  kept _ _ := rfl

theorem Within.trans (first : Within other n s t) (second : Within other m t u) : Within other (n + m) s u where
  addr := second.addr.trans first.addr
  size := second.size.trans first.size
  emerg := second.emerg.trans first.emerg
  more := first.more.trans second.more
  used := by
    have usedFirst := first.used
    have usedSecond := second.used
    omega
  kept x foreign := (second.kept x foreign).trans (first.kept x foreign)

theorem Within.mono (within : Within other n s t) (fewer : n ≤ m) : Within other m s t :=
  { within with used := within.used.trans (Nat.add_le_add_left (Nat.mul_le_mul_left _ fewer) _) }

private theorem Within.pagesLeft_le (within : Within other n s t) : pagesLeft s ≤ pagesLeft t + n := by
  have used := within.used
  unfold pagesLeft
  rw [within.addr, within.size]
  omega

/-- The code returns with `post`, or stops because it ran out of table space
although it needs `n` pages at most. -/
def Builds (other : Nat → Prop) (n : Nat) (s : Mmu) (post : α → Mmu → Prop) (outcome : Outcome Mmu Panic α) : Prop :=
  outcome.Ends (fun reason => reason = .insufficientRam ∧ pagesLeft s < n)
    (fun value t => Within other n s t ∧ post value t)

theorem Builds.bind {first : Pt α} {next : α → Pt β} {middle : α → Mmu → Prop} {post : β → Mmu → Prop}
    (builds : Builds other n s middle (first s))
    (rest : ∀ value between, middle value between → Builds other m between post (next value between)) :
    Builds other (n + m) s post ((first >>= next) s) := by
  have weak : (first s).Ends (fun reason => reason = .insufficientRam ∧ pagesLeft s < n + m)
      (fun value t => Within other n s t ∧ middle value t) := by
    refine Outcome.Ends.mono builds (fun reason stopped => ⟨stopped.1, ?_⟩) (fun _ _ holds => holds)
    exact Nat.lt_add_right m stopped.2
  refine Outcome.Ends.bind weak (fun value between _ mid => ?_)
  refine Outcome.Ends.mono (rest value between mid.2) (fun reason stopped => ⟨stopped.1, ?_⟩)
    (fun _ _ holds => ⟨mid.1.trans holds.1, holds.2⟩)
  exact lt_of_le_of_lt mid.1.pagesLeft_le (by omega)

theorem Builds.mono {outcome : Outcome Mmu Panic α} {strong weak : α → Mmu → Prop}
    (builds : Builds other n s strong outcome) (fewer : n ≤ m) (weaker : ∀ value t, strong value t → weak value t) :
    Builds other m s weak outcome :=
  Outcome.Ends.mono builds (fun _ stopped => ⟨stopped.1, lt_of_lt_of_le stopped.2 fewer⟩)
    (fun value t holds => ⟨holds.1.mono fewer, weaker value t holds.2⟩)

/-- With enough pages the code returns. -/
theorem Builds.returns {outcome : Outcome Mmu Panic α} {post : α → Mmu → Prop} (builds : Builds other n s post outcome)
    (enough : n ≤ pagesLeft s) : ∃ value t, outcome = .ret value t ∧ Within other n s t ∧ post value t := by
  cases outcome with
  | ret value t => exact ⟨value, t, rfl, builds⟩
  | panic reason =>
    have short : pagesLeft s < n := builds.2
    omega
  | fault | hang => exact builds.elim

/-- The code takes exactly `n` pages: it returns with `post` if they are left, and
otherwise stops because the table space is used up. -/
structure Takes (other : Nat → Prop) (n : Nat) (s : Mmu) (post : α → Mmu → Prop) (outcome : Outcome Mmu Panic α) :
    Prop where
  enough : n ≤ pagesLeft s → ∃ value t, outcome = .ret value t ∧ Within other n s t ∧ pagesLeft t + n = pagesLeft s ∧
    post value t
  short : pagesLeft s < n → ∃ t, outcome = .panic .insufficientRam t

theorem Takes.ret {post : α → Mmu → Prop} (within : Within other 0 s t) (holds : post value t) :
    Takes other 0 s post (.ret value t) where
  enough _ := by
    have more := within.more
    have used := within.used
    refine ⟨value, t, rfl, within, ?_, holds⟩
    unfold pagesLeft
    rw [within.addr, within.size]
    omega
  short none := absurd none (Nat.not_lt_zero _)

theorem Takes.bind {first : Pt α} {next : α → Pt β} {middle : α → Mmu → Prop} {post : β → Mmu → Prop}
    (takes : Takes other n s middle (first s))
    (rest : ∀ value between, middle value between → Takes other m between post (next value between)) :
    Takes other (n + m) s post ((first >>= next) s) where
  enough left := by
    obtain ⟨value, between, ran, within, spent, mid⟩ := takes.enough (by omega)
    obtain ⟨result, t, ranRest, withinRest, spentRest, holds⟩ := (rest value between mid).enough (by omega)
    rw [bind_of_ret ran]
    exact ⟨result, t, ranRest, within.trans withinRest, by omega, holds⟩
  short few := by
    by_cases left : n ≤ pagesLeft s
    · obtain ⟨value, between, ran, _, spent, mid⟩ := takes.enough left
      rw [bind_of_ret ran]
      exact (rest value between mid).short (by omega)
    · obtain ⟨t, stopped⟩ := takes.short (by omega)
      exact ⟨t, bind_of_panic stopped⟩

theorem Takes.mono {outcome : Outcome Mmu Panic α} {strong weak : α → Mmu → Prop}
    (takes : Takes other n s strong outcome) (weaker : ∀ value t, strong value t → weak value t) :
    Takes other n s weak outcome where
  enough left := by
    obtain ⟨value, t, ran, within, spent, holds⟩ := takes.enough left
    exact ⟨value, t, ran, within, spent, weaker value t holds⟩
  short := takes.short

/-- The pages taken are a bound. -/
theorem Takes.builds {outcome : Outcome Mmu Panic α} {post : α → Mmu → Prop} (takes : Takes other n s post outcome)
    (bound : n ≤ m) : Builds other m s post outcome := by
  by_cases left : n ≤ pagesLeft s
  · obtain ⟨value, t, rfl, within, _, holds⟩ := takes.enough left
    exact ⟨within.mono bound, holds⟩
  · obtain ⟨t, rfl⟩ := takes.short (by omega)
    exact ⟨rfl, by omega⟩

end Within

private theorem createTable_run (space : Space s) : createTable s =
    if pagesLeft s = 0 then .panic .insufficientRam { s with tlbFillptr := s.tlbFillptr + 4096 }
    else .ret s.tlbFillptr
      { s with tlbFillptr := s.tlbFillptr + 4096, mem := clearTable s.mem s.tlbFillptr } := by
  obtain ⟨_, low, high, fits⟩ := space
  have fill : (s.tlbFillptr + 4096) % 2 ^ 64 = s.tlbFillptr + 4096 := Nat.mod_eq_of_lt (by omega)
  have used : (s.tlbFillptr + 4096 + 2 ^ 64 - s.tlbAddr) % 2 ^ 64 = s.tlbFillptr + 4096 - s.tlbAddr := by omega
  have full : s.tlbSize < s.tlbFillptr + 4096 - s.tlbAddr ↔ pagesLeft s = 0 := by
    unfold pagesLeft
    omega
  unfold createTable
  simp only [read_bind, write_bind, fill, used, full]
  split <;> rfl

theorem createTable_panic (space : Space s) (full : pagesLeft s = 0) :
    createTable s = .panic .insufficientRam { s with tlbFillptr := s.tlbFillptr + 4096 } := by
  rw [createTable_run space, if_pos full]

theorem createTable_ret (space : Space s) (left : pagesLeft s ≠ 0) :
    createTable s = .ret s.tlbFillptr
      { s with tlbFillptr := s.tlbFillptr + 4096, mem := clearTable s.mem s.tlbFillptr } := by
  rw [createTable_run space, if_neg left]

theorem clearTable_inside (low : table ≤ x) (high : x < table + 4096) : clearTable mem table x = 0#64 :=
  if_pos ⟨low, high⟩

theorem clearTable_outside (outside : x < table) : clearTable mem table x = mem x :=
  if_neg (fun inside => absurd inside.1 (Nat.not_le.mpr outside))

theorem setPteTable_run (pte table : Nat) (s : Mmu) :
    setPteTable pte table s = .ret () (s.set pte (tableDesc table)) := rfl

private theorem splitEntries_inside (small : j < count) (level : Nat) :
    splitEntries d level table count mem (table + 8 * j) = splitEntry d level j := by
  induction count with
  | zero => omega
  | succ count ih =>
    by_cases last : j = count
    · rw [last, splitEntries, Function.update_self]
    · rw [splitEntries, Function.update_of_ne (by omega), ih (by omega)]

private theorem splitEntries_outside (outside : x < table ∨ table + 8 * count ≤ x) :
    splitEntries d level table count mem x = mem x := by
  induction count with
  | zero => rfl
  | succ count ih => rw [splitEntries, Function.update_of_ne (by omega), ih (by omega)]

theorem splitBlock_panic (space : Space s) (block : pteType (s.mem pte) = pteTypeBlock) (full : pagesLeft s = 0) :
    splitBlock pte level s = .panic .insufficientRam { s with tlbFillptr := s.tlbFillptr + 4096 } := by
  unfold splitBlock
  rw [read_bind]
  simp only [block, ne_eq, not_true_eq_false, ↓reduceIte]
  rw [bind_of_panic (createTable_panic space full)]

/-- The new table holds the pieces of the block, the entry leads to it, and the
rest of the filled space is as it was. -/
theorem splitBlock_ret (space : Space s) (block : pteType (s.mem pte) = pteTypeBlock) (left : pagesLeft s ≠ 0)
    (apart : pte < s.tlbFillptr ∨ s.tlbFillptr + 4096 ≤ pte) (level : Nat) :
    ∃ mem, splitBlock pte level s = .ret () { s with mem := mem, tlbFillptr := s.tlbFillptr + 4096 } ∧
      mem pte = tableDesc s.tlbFillptr ∧ (∀ j < 512, mem (s.tlbFillptr + 8 * j) = splitEntry (s.mem pte) level j) ∧
        ∀ x < s.tlbFillptr, x ≠ pte → mem x = s.mem x := by
  unfold splitBlock
  rw [read_bind]
  simp only [block, ne_eq, not_true_eq_false, ↓reduceIte]
  rw [bind_of_ret (createTable_ret space left), read_bind, write_bind, setPteTable_run]
  refine ⟨Function.update (splitEntries (s.mem pte) level s.tlbFillptr 512 (clearTable s.mem s.tlbFillptr)) pte
    (tableDesc s.tlbFillptr), rfl, Function.update_self _ _ _, fun j small => ?_, fun x below different => ?_⟩
  · rw [Function.update_of_ne (by omega), splitEntries_inside small]
  · rw [Function.update_of_ne different, splitEntries_outside (.inl below), clearTable_outside below]

/-! ## Trees in the table space -/

/-- The filled part of the space, without what belongs to others. -/
def Own (other : Nat → Prop) (s : Mmu) (x : Nat) : Prop := x < s.tlbFillptr ∧ ¬ other x

/-- The walks of `keys` form a tree inside the filled part of the space. -/
structure Tables (start : Nat) (other keys : Nat → Prop) (s : Mmu) : Prop extends Space s where
  outside : ∀ x, other x → x < s.tlbFillptr
  tree : Tree format (levelsFrom start) s.tlbAddr (Own other s) keys s.mem

/-- The slots and entries of the walk for `va`. -/
abbrev slots (start : Nat) (s : Mmu) (va : Nat) : List Nat := pathFrom s.mem va start s.tlbAddr

abbrev entries (start : Nat) (s : Mmu) (va : Nat) : List (BitVec 64) := entriesFrom s.mem va start s.tlbAddr

/-- From entry `k` on the walks that go the way of `va` meet `new`; the other
walks are as they were. -/
structure Replaced (start : Nat) (keys : Nat → Prop) (va k : Nat) (new : Nat → List (BitVec 64)) (s t : Mmu) : Prop where
  through : ∀ b, keys b → format.Same (levelsFrom start) (k + 1) va b →
    entries start t b = (entries start s b).take k ++ new b
  other : ∀ b, keys b → ¬ format.Same (levelsFrom start) (k + 1) va b → entries start t b = entries start s b

section Steps
variable {start va k pte : Nat} {other keys : Nat → Prop} {s : Mmu}

theorem slots_length_le : (slots start s va).length ≤ 4 - start := by
  have bound : (slots start s va).length ≤ (levelsFrom start).length := path_length_le
  rwa [levelsFrom, List.length_range'] at bound

theorem entries_length : (entries start s va).length = (slots start s va).length := List.length_map _

/-- A walk ends, and behind nothing but tables. -/
theorem entries_ends (s : Mmu) (va : Nat) (first : start < 4) :
    ∃ front last, entries start s va = front ++ [last] ∧ (∀ d ∈ front, d.getLsbD 1 = true) ∧
      (start + front.length < 3 → last.getLsbD 1 = false) := by
  have some : entries start s va ≠ [] := entriesFrom_ne_nil first
  have split := (List.dropLast_append_getLast some).symm
  exact ⟨_, _, split, entriesFrom_shape first split⟩

/-- A block has bit 1 clear, so no walk goes on behind it. -/
theorem block_ends (first : start < 4) (met : (entries start s va)[k]? = some d) (block : pteType d = pteTypeBlock) :
    ∃ front, front.length = k ∧ entries start s va = front ++ [d] := by
  obtain ⟨front, last, split, leads, _⟩ := entries_ends s va first
  rw [split] at met
  rcases Nat.lt_or_ge k front.length with before | behind
  · rw [List.getElem?_append_left before] at met
    have table := leads d (List.mem_of_getElem? met)
    rw [(type_block_iff.mp block).2] at table
    cases table
  · have inside := (List.getElem?_eq_some_iff.mp met).1
    rw [List.length_append, List.length_singleton] at inside
    obtain rfl : k = front.length := by omega
    rw [List.getElem?_concat_length, Option.some.injEq] at met
    exact ⟨front, rfl, by rw [split, met]⟩

theorem slots_lt (visited : (slots start s va)[k]? = some pte) : start + k < 4 := by
  have bound : (slots start s va).length ≤ 4 - start := slots_length_le
  have inside := (List.getElem?_eq_some_iff.mp visited).1
  omega

theorem entry_of_slot (visited : (slots start s va)[k]? = some pte) : (entries start s va)[k]? = some (s.mem pte) := by
  show ((slots start s va).map s.mem)[k]? = _
  rw [List.getElem?_map, visited, Option.map_some]

theorem Tables.slot_inside (tables : Tables start other keys s) (key : keys va)
    (visited : (slots start s va)[k]? = some pte) :
    pte < s.tlbFillptr ∧ ¬ other pte :=
  tables.tree.inside va key pte (List.mem_of_getElem? visited)

/-- A new table behind an entry. -/
theorem Tables.grow (tables : Tables start other keys s) (key : keys va) (visited : (slots start s va)[k]? = some pte)
    (upper : start + k < 3) (left : pagesLeft s ≠ 0) {mem : Nat → BitVec 64} {entry : Nat → BitVec 64}
    (atPte : mem pte = tableDesc s.tlbFillptr) (atEntry : ∀ j < 512, mem (s.tlbFillptr + 8 * j) = entry j)
    (rest : ∀ x < s.tlbFillptr, x ≠ pte → mem x = s.mem x)
    (leaves : ∀ j < 512, (entry j).getLsbD 1 = false ∨ start + k = 2) {t : Mmu}
    (result : t = { s with mem := mem, tlbFillptr := s.tlbFillptr + 4096 }) :
    Within other 1 s t ∧ Tables start other keys t ∧
      Replaced start keys va k
        (fun b => [tableDesc s.tlbFillptr, entry (format.index (start + k + 1) b)]) s t := by
  obtain ⟨⟨aligned, low, high, fits⟩, outside, tree⟩ := tables
  have inside := tree.inside va key pte (List.mem_of_getElem? visited)
  have used : s.tlbFillptr + 4096 ≤ s.tlbAddr + s.tlbSize := by
    unfold pagesLeft at left
    omega
  have changed : ChangedAt (Own other s) pte s.mem mem :=
    fun x own different => rest x own.1 different
  have leads : format.child (mem pte) = some s.tlbFillptr := by
    rw [atPte, child_of_table (type_table_iff.mp (tableDesc_type _)).2, nextTable_tableDesc aligned (by omega)]
  have deeper : (levelsFrom start)[k + 1]? = some (start + k + 1) := levelsFrom_get (by omega)
  obtain ⟨grown, through⟩ := tree.grow key visited changed leads deeper (fun x own => .inl own.1) (by
    intro j small
    rw [show format.width = 8 from rfl, atEntry j small, levelsFrom, List.length_range']
    rcases leaves j small with leaf | last
    · exact .inl (child_of_leaf leaf)
    · exact .inr (by omega))
  subst result
  refine ⟨⟨rfl, rfl, rfl, Nat.le_add_right _ _, le_rfl, fun x foreign => rest x (outside x foreign) ?_⟩,
    ⟨⟨?_, ?_, used, fits⟩, fun x foreign => Nat.lt_add_right _ (outside x foreign), ?_⟩,
    ⟨fun b keyB same => ?_, fun b keyB different => ?_⟩⟩
  · rintro rfl
    exact inside.2 foreign
  · show (s.tlbFillptr + 4096) % 4096 = 0
    omega
  · show s.tlbAddr ≤ s.tlbFillptr + 4096
    omega
  · refine grown.of_shorter (fun _ member => member) (fun x own => ?_) (fun _ _ _ _ met => met)
    rcases own with ⟨before, mine⟩ | ⟨above, before⟩
    · exact ⟨Nat.lt_add_right _ before, mine⟩
    · exact ⟨before, fun foreign => absurd (outside x foreign) (Nat.not_lt.mpr above)⟩
  · have child := atEntry _ (format.index_lt (start + k + 1) b)
    refine (through b keyB same).trans ?_
    rw [atPte]
    exact congrArg (fun last => (entries start s b).take k ++ [tableDesc s.tlbFillptr, last]) child
  · exact (tree.path_other key visited changed keyB different).2

private theorem newSubtable_eq (pte : Nat) :
    newSubtable pte = createTable >>= fun newTable => setPteTable pte newTable := by
  delta newSubtable
  rfl

section Visited
variable (tables : Tables start other keys s) (key : keys va) (visited : (slots start s va)[k]? = some pte)
include tables key visited

theorem newSubtable_spec (upper : start + k < 3) :
    Builds other 1 s (fun _ t => Tables start other keys t ∧
      Replaced start keys va k (fun _ => [tableDesc s.tlbFillptr, 0#64]) s t ∧ s.tlbFillptr < 2 ^ 48)
      (newSubtable pte s) := by
  have inside := tables.slot_inside key visited
  rw [newSubtable_eq]
  by_cases full : pagesLeft s = 0
  · rw [bind_of_panic (createTable_panic tables.toSpace full)]
    exact ⟨rfl, by omega⟩
  · rw [bind_of_ret (createTable_ret tables.toSpace full), setPteTable_run]
    have inNew : ∀ j < 512, clearTable s.mem s.tlbFillptr (s.tlbFillptr + 8 * j) = 0#64 :=
      fun j small => clearTable_inside (Nat.le_add_right _ _) (by omega)
    have outside : ∀ x < s.tlbFillptr, clearTable s.mem s.tlbFillptr x = s.mem x := fun x => clearTable_outside
    generalize clearTable s.mem s.tlbFillptr = cleared at inNew outside ⊢
    have fresh : ∀ j < 512, Function.update cleared pte (tableDesc s.tlbFillptr) (s.tlbFillptr + 8 * j) = 0#64 := by
      intro j small
      rw [Function.update_of_ne (by omega), inNew j small]
    have rest : ∀ x < s.tlbFillptr, x ≠ pte →
        Function.update cleared pte (tableDesc s.tlbFillptr) x = s.mem x := by
      intro x below different
      rw [Function.update_of_ne different, outside x below]
    have leaves : ∀ j < 512, (0#64).getLsbD 1 = false ∨ start + k = 2 := fun _ _ => .inl (BitVec.getLsbD_zero)
    obtain ⟨within, after, replaced⟩ :=
      tables.grow key visited upper full (Function.update_self _ _ _) fresh rest leaves rfl
    exact ⟨within, after, replaced, tables.toSpace.next_fits full⟩

theorem splitBlock_spec (upper : 1 ≤ start + k) (lower : start + k < 3) (block : pteType (s.mem pte) = pteTypeBlock) :
    Takes other 1 s (fun _ t => Tables start other keys t ∧
      Replaced start keys va k (fun b => [tableDesc s.tlbFillptr, pieceAt (start + k) (s.mem pte) b]) s t ∧
      t.mem pte = tableDesc s.tlbFillptr ∧ s.tlbFillptr < 2 ^ 48) (splitBlock pte (start + k) s) := by
  have inside := tables.slot_inside key visited
  refine ⟨fun left => ?_, fun few => ⟨_, splitBlock_panic tables.toSpace block (by omega)⟩⟩
  · have full : pagesLeft s ≠ 0 := by omega
    have spent : (s.tlbAddr + s.tlbSize - (s.tlbFillptr + 4096)) / 4096 + 1 = pagesLeft s := by
      unfold pagesLeft at left ⊢
      omega
    obtain ⟨mem, returned, atPte, atEntry, rest⟩ :=
      splitBlock_ret tables.toSpace block full (.inl inside.1) (start + k)
    have leaves : ∀ j < 512, (splitEntry (s.mem pte) (start + k) j).getLsbD 1 = false ∨ start + k = 2 := by
      intro j small
      have type : (splitEntry (s.mem pte) (start + k) j).getLsbD 1 = _ := (splitEntry_type upper (by omega) block).2
      by_cases last : start + k = 2
      · exact .inr last
      · exact .inl (by rw [type, decide_eq_false (by omega)])
    obtain ⟨within, after, replaced⟩ :=
      tables.grow key visited lower full atPte atEntry rest leaves rfl
    exact ⟨_, _, returned, within, spent, after, replaced, atPte, tables.toSpace.next_fits full⟩

/-- A leaf is stored to an entry: walks that go there end there. -/
theorem Tables.store (leaf : d.getLsbD 1 = false ∨ start + k = 3) :
    Within other 0 s (s.set pte d) ∧ Tables start other keys (s.set pte d) ∧
      Replaced start keys va k (fun _ => [d]) s (s.set pte d) := by
  have inside := tables.slot_inside key visited
  have changed : ChangedAt (Own other s) pte s.mem (Function.update s.mem pte d) := changedAt_update
  have ends : format.child (Function.update s.mem pte d pte) = none ∨ (levelsFrom start).length ≤ k + 1 := by
    rw [Function.update_self, levelsFrom, List.length_range']
    rcases leaf with clear | last
    · exact .inl (child_of_leaf clear)
    · exact .inr (by omega)
  obtain ⟨tree, through⟩ := tables.tree.cut key visited changed ends
  refine ⟨⟨rfl, rfl, rfl, le_rfl, le_rfl, fun x foreign => Function.update_of_ne ?_ _ _⟩,
    { tables with tree := tree }, ⟨fun b keyB same => ?_, fun b keyB different => ?_⟩⟩
  · rintro rfl
    exact inside.2 foreign
  · have stored := through b keyB same
    rwa [Function.update_self] at stored
  · exact (tables.tree.path_other key visited changed keyB different).2

/-- Whatever is stored to an entry, the walks past it form the tree they were. -/
theorem Tables.leave (d : BitVec 64) :
    Tables start other (fun b => keys b ∧ ¬ format.Same (levelsFrom start) (k + 1) va b) (s.set pte d) ∧
      ∀ b, keys b → ¬ format.Same (levelsFrom start) (k + 1) va b →
        entries start (s.set pte d) b = entries start s b := by
  have changed : ChangedAt (Own other s) pte s.mem (Function.update s.mem pte d) := changedAt_update
  have past : ∀ b, keys b → ¬ format.Same (levelsFrom start) (k + 1) va b →
      slots start (s.set pte d) b = slots start s b ∧ entries start (s.set pte d) b = entries start s b :=
    fun b keyB different => tables.tree.path_other key visited changed keyB different
  refine ⟨{ tables with tree := ?_ }, fun b keyB different => (past b keyB different).2⟩
  refine tables.tree.of_shorter (fun b keyB => keyB.1) (fun _ own => own) (fun b keyB i x met => ?_)
  have same := (past b keyB.1 keyB.2).1
  rw [← show slots start s b = format.path s.mem b (levelsFrom start) s.tlbAddr from rfl, ← same]
  exact met

/-- New attributes for an entry: no walk changes its way. -/
theorem Tables.modify (attrs : BitVec 64) (flag : Bool) :
    Within other 0 s (s.set pte (withAttrs (s.mem pte) attrs flag)) ∧
      Tables start other keys (s.set pte (withAttrs (s.mem pte) attrs flag)) ∧
      (∀ b, keys b → format.Same (levelsFrom start) (k + 1) va b →
        entries start (s.set pte (withAttrs (s.mem pte) attrs flag)) b =
          (entries start s b).modify k (fun d => withAttrs d attrs flag)) ∧
      ∀ b, keys b → ¬ format.Same (levelsFrom start) (k + 1) va b →
        entries start (s.set pte (withAttrs (s.mem pte) attrs flag)) b = entries start s b := by
  have inside := tables.slot_inside key visited
  let d := withAttrs (s.mem pte) attrs flag
  have changed : ChangedAt (Own other s) pte s.mem (Function.update s.mem pte d) := changedAt_update
  have leads : format.child (Function.update s.mem pte d pte) = format.child (s.mem pte) := by
    rw [Function.update_self]
    show (if (withAttrs (s.mem pte) attrs flag).getLsbD 1 then
      some (nextTable (withAttrs (s.mem pte) attrs flag)) else none) = _
    rw [withAttrs_same (.inl rfl), withAttrs_nextTable]
    rfl
  obtain ⟨tree, through⟩ := tables.tree.modify visited changed leads
  refine ⟨⟨rfl, rfl, rfl, le_rfl, le_rfl, fun x foreign => Function.update_of_ne ?_ _ _⟩,
    { tables with tree := tree }, fun b keyB same => ?_, fun b keyB different => ?_⟩
  · rintro rfl
    exact inside.2 foreign
  · have stored := through b keyB same
    have met := entry_of_slot (visited_of_same visited same)
    rw [Function.update_self] at stored
    rw [List.modify_eq_set, met]
    exact stored
  · exact (tables.tree.path_other key visited changed keyB different).2

end Visited

end Steps

end RockOs.PageTableSteps
