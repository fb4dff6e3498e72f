import RockOs.PageTableChanges

/-! One turn of the loop over a range that is mapped. The loop cuts the range
into granules by alignment alone. On the way to a granule it splits the blocks
above it, which changes no translation and takes a page each, and then it changes
the entry of the granule, which may be a leaf or a table that earlier calls have
put there. -/
namespace RockOs.PageTableRegions
open Machine PageTables PageDescriptors PageWalk PageTableSteps PageLeaves PageTableSetup PageTableChanges RadixTable

/-! ## Granules -/

/-- The level on which a pass over `[first, stop)` sets the entry of `va`. -/
def granule (first stop va : Nat) : Nat :=
  if stop % 2 ^ 30 = 0 ∧ first ≤ va / 2 ^ 30 * 2 ^ 30 then 1
  else if stop % 2 ^ 21 = 0 ∧ first ≤ va / 2 ^ 21 * 2 ^ 21 then 2
  else 3

section Granules
variable {first stop va level : Nat}

theorem granule_bounds (first stop va : Nat) : 1 ≤ granule first stop va ∧ granule first stop va ≤ 3 := by
  unfold granule
  split_ifs <;> omega

theorem granule_level (memMap : List MmRegion) (first stop va : Nat) :
    startLevel memMap + (granule first stop va - startLevel memMap) = granule first stop va := by
  have top : startLevel memMap ≤ 1 := startLevel_le
  have bounds := granule_bounds first stop va
  omega

/-- The three block sizes. -/
theorem shift_cases (upper : 1 ≤ level) (lower : level ≤ 3) :
    level = 1 ∧ 2 ^ level2shift level = 2 ^ 30 ∨ level = 2 ∧ 2 ^ level2shift level = 2 ^ 21 ∨
      level = 3 ∧ 2 ^ level2shift level = 2 ^ 12 := by
  rw [level2shift_eq lower]
  obtain rfl | rfl | rfl : level = 1 ∨ level = 2 ∨ level = 3 := by omega
  all_goals decide

/-- The loop takes the first level on which both ends are aligned. -/
theorem granule_here (firstPage : first % 2 ^ 12 = 0) (stopPage : stop % 2 ^ 12 = 0) (more : first < stop) :
    isAligned first (stop - first) (2 ^ level2shift (granule first stop first)) ∧
      first + 2 ^ level2shift (granule first stop first) ≤ stop ∧
      ∀ level, 1 ≤ level → level < granule first stop first →
        ¬ isAligned first (stop - first) (2 ^ level2shift level) := by
  obtain ⟨upper, lower⟩ := granule_bounds first stop first
  have sizes := shift_cases upper lower
  refine ⟨?_, ?_, fun level above below => ?_⟩
  · rw [isAligned_iff]
    generalize 2 ^ level2shift (granule first stop first) = size at sizes
    unfold granule at sizes
    rcases sizes with ⟨here, rfl⟩ | ⟨here, rfl⟩ | ⟨here, rfl⟩
    all_goals split_ifs at here <;> omega
  · generalize 2 ^ level2shift (granule first stop first) = size at sizes
    unfold granule at sizes
    split_ifs at sizes <;> omega
  · rw [isAligned_iff]
    have size := shift_cases above (by omega)
    generalize 2 ^ level2shift level = blocksize at size
    unfold granule at below
    rcases size with ⟨here, rfl⟩ | ⟨here, rfl⟩ | ⟨here, rfl⟩
    all_goals split_ifs at below <;> omega

/-- A granule does not start before the range. -/
theorem granule_start (firstPage : first % 2 ^ 12 = 0) (inside : first ≤ va) :
    first ≤ va / 2 ^ level2shift (granule first stop va) * 2 ^ level2shift (granule first stop va) := by
  obtain ⟨upper, lower⟩ := granule_bounds first stop va
  have sizes := shift_cases upper lower
  generalize 2 ^ level2shift (granule first stop va) = size at sizes
  unfold granule at sizes
  rcases sizes with ⟨level, rfl⟩ | ⟨level, rfl⟩ | ⟨level, rfl⟩
  all_goals split_ifs at level <;> omega

/-- All of a granule is set on its level. -/
theorem granule_same (firstPage : first % 2 ^ 12 = 0) (stopPage : stop % 2 ^ 12 = 0) (low : first ≤ va)
    (high : va < first + 2 ^ level2shift (granule first stop first)) :
    granule first stop va = granule first stop first := by
  obtain ⟨upper, lower⟩ := granule_bounds first stop first
  have sizes := shift_cases upper lower
  generalize 2 ^ level2shift (granule first stop first) = size at sizes high
  unfold granule at sizes ⊢
  split_ifs at sizes ⊢ <;> omega

/-- What comes after a granule is cut as before. -/
theorem granule_next (firstPage : first % 2 ^ 12 = 0) (stopPage : stop % 2 ^ 12 = 0)
    (low : first + 2 ^ level2shift (granule first stop first) ≤ va) :
    granule (first + 2 ^ level2shift (granule first stop first)) stop va = granule first stop va := by
  obtain ⟨upper, lower⟩ := granule_bounds first stop first
  have sizes := shift_cases upper lower
  generalize 2 ^ level2shift (granule first stop first) = size at sizes low ⊢
  unfold granule at sizes ⊢
  split_ifs at sizes ⊢ <;> omega

end Granules

/-! ## Walks with split leaves -/

/-- The entries `qs` of `b` come from `es` by splitting the leaf, any number of
times. -/
inductive Finer (start b : Nat) : List (BitVec 64) → List (BitVec 64) → Prop
  | refl (es : List (BitVec 64)) : Finer start b es es
  | split {front qs : List (BitVec 64)} {d : BitVec 64} {n : Nat} (upper : 1 ≤ start + front.length)
      (lower : start + front.length ≤ 2) (block : pteType d = pteTypeBlock)
      (rest : Finer start b (front ++ [tableDesc n, pieceAt (start + front.length) d b]) qs) :
      Finer start b (front ++ [d]) qs

/-- A pass that is to set entry `k` can get there: through valid tables, or
through valid tables to a block that it can split. -/
def Ready (start : Nat) (es : List (BitVec 64)) (k : Nat) : Prop :=
  k < es.length ∧ (∀ d ∈ es.take k, pteType d = pteTypeTable) ∨
    ∃ front d, es = front ++ [d] ∧ front.length < k ∧ 1 ≤ start + front.length ∧
      (∀ e ∈ front, pteType e = pteTypeTable) ∧ pteType d = pteTypeBlock

section Walks
variable {start b k : Nat} {es qs rs : List (BitVec 64)}

theorem Finer.trans (first : Finer start b es qs) (second : Finer start b qs rs) : Finer start b es rs := by
  induction first with
  | refl => exact second
  | split upper lower block _ ih => exact .split upper lower block (ih second)

theorem Finer.longer (finer : Finer start b es qs) : qs = es ∨ es.length < qs.length := by
  induction finer with
  | refl => exact .inl rfl
  | split _ _ _ _ ih =>
    rw [List.length_append, List.length_cons, List.length_singleton] at ih
    rw [List.length_append, List.length_singleton]
    rcases ih with rfl | more
    · exact .inr (by rw [List.length_append, List.length_cons, List.length_singleton]; omega)
    · exact .inr (by omega)

theorem Finer.ready (finer : Finer start b es qs) (small : start + k ≤ 3) (ready : Ready start es k) :
    Ready start qs k := by
  induction finer with
  | refl => exact ready
  | @split front qs d n upper lower block _ ih =>
    apply ih
    rcases ready with ⟨inside, tables⟩ | ⟨front', d', same, above, _, tables, _⟩
    · rw [List.length_append, List.length_singleton] at inside
      refine .inl ⟨by rw [List.length_append]; simp; omega, ?_⟩
      rw [List.take_append_of_le_length (by omega)] at tables ⊢
      exact tables
    · obtain ⟨rfl, last⟩ := List.append_inj' same rfl
      have valid : ∀ e ∈ front ++ [tableDesc n], pteType e = pteTypeTable := by
        intro e member
        rw [List.mem_append, List.mem_singleton] at member
        rcases member with old | rfl
        · exact tables e old
        · exact tableDesc_type n
      rw [List.append_cons]
      by_cases reached : k = front.length + 1
      · refine .inl ⟨by simp; omega, fun e member => ?_⟩
        rw [List.take_append_of_le_length (by simp; omega)] at member
        exact valid e (List.mem_of_mem_take member)
      · have type := pieceAt_type upper lower block b
        refine .inr ⟨_, _, rfl, by simp; omega, by simp; omega, valid, type_block_iff.mpr ⟨type.1, ?_⟩⟩
        rw [type.2, decide_eq_false (by omega)]

/-- Finer leaves say the same. -/
theorem Finer.meaning_eq (finer : Finer start b es qs) (settled : Settled start es) :
    meaning start qs b = meaning start es b ∧ Settled start qs := by
  induction finer with
  | refl => exact ⟨rfl, settled⟩
  | @split front qs d n upper lower block _ ih =>
    have aligned : Aligned (start + front.length) d := by
      have leaf := settled d (by simp)
      rwa [List.length_append, List.length_singleton, Nat.add_sub_cancel] at leaf
    have piece : Aligned (start + front.length + 1) (pieceAt (start + front.length) d b) :=
      splitEntry_aligned upper lower aligned
    obtain ⟨same, after⟩ := ih (by
      rw [List.append_cons]
      refine settled_append ?_
      rw [List.length_append, List.length_singleton]
      exact piece)
    refine ⟨same.trans ?_, after⟩
    have valid := (type_table_iff.mp (tableDesc_type n)).1
    have here := meaning_split upper lower block aligned b
    have through : decode (start + front.length) [tableDesc n, pieceAt (start + front.length) d b] =
        decode (start + front.length + 1) [pieceAt (start + front.length) d b] := by
      rw [decode_cons (List.cons_ne_nil _ _), valid, if_pos rfl]
    unfold meaning at here ⊢
    rw [decode_append (by simp), decode_append (List.cons_ne_nil d []), through]
    by_cases above : ∀ e ∈ front, e.getLsbD 0 = true
    · rw [if_pos above, if_pos above]
      exact here
    · rw [if_neg above, if_neg above]

/-- The hardware still finds a leaf. -/
theorem Finer.found (finer : Finer start b es qs) (found : decode start es ≠ none) : decode start qs ≠ none := by
  induction finer with
  | refl => exact found
  | @split front qs d n upper lower block _ ih =>
    apply ih
    have type := pieceAt_type upper lower block b
    have page : start + front.length + 1 = 3 → (pieceAt (start + front.length) d b).getLsbD 1 = true := by
      intro last
      rw [type.2, decide_eq_true (by omega)]
    rw [decode_append (List.cons_ne_nil d [])] at found
    split at found
    · rename_i valid
      rw [decode_append (List.cons_ne_nil _ _), if_pos valid, decode_cons (List.cons_ne_nil _ _),
        if_pos (type_table_iff.mp (tableDesc_type n)).1, decode, if_pos ⟨type.1, page, by omega⟩]
      exact Option.some_ne_none _
    · exact absurd rfl found

/-- A walk that is one entry longer finds a piece of the block that it found. -/
theorem Finer.piece {d : BitVec 64} (finer : Finer start b es qs) (found : decode start es = some (level, d))
    (one : qs.length = es.length + 1) :
    decode start qs = some (level + 1, splitEntry d level (format.index (level + 1) b)) := by
  cases finer with
  | refl => omega
  | @split front _ last n upper lower block rest =>
    obtain rfl := rest.longer.resolve_right (by
      rw [List.length_append, List.length_cons, List.length_singleton]
      rw [List.length_append, List.length_singleton] at one
      omega)
    rw [decode_append (List.cons_ne_nil _ _)] at found
    split at found
    · next valid =>
      obtain ⟨here, _⟩ := decode_some found
      obtain ⟨rfl, rfl⟩ := Prod.mk.inj here
      have type := pieceAt_type upper lower block b
      rw [decode_append (List.cons_ne_nil _ _), if_pos valid, decode_cons (List.cons_ne_nil _ _),
        if_pos (type_table_iff.mp (tableDesc_type n)).1, decode_leaf (by omega) type.1 type.2]
    · cases found

/-- The level of the leaf is the depth of the walk. -/
theorem decode_level (found : decode i es = some leaf) : leaf.1 + 1 = i + es.length := by
  induction es generalizing i with
  | nil => cases found
  | cons d rest ih =>
    cases rest with
    | nil =>
      rw [decode] at found
      split at found
      · cases found
        rfl
      · cases found
    | cons e rest =>
      rw [decode] at found
      split at found
      · have below := ih found
        rw [List.length_cons]
        omega
      · cases found

/-- A change of entry `k` that leaves its type bits alone changes the leaf if
the leaf is that entry. -/
theorem decode_modify {f : BitVec 64 → BitVec 64}
    (keeps : ∀ d, es[k]? = some d → (f d).getLsbD 0 = d.getLsbD 0 ∧ (f d).getLsbD 1 = d.getLsbD 1) :
    decode i (es.modify k f) =
      (decode i es).map (fun leaf => if leaf.1 = i + k then (leaf.1, f leaf.2) else leaf) := by
  induction es generalizing i k with
  | nil => simp [decode]
  | cons d rest ih =>
    cases k with
    | zero =>
      obtain ⟨valid, page⟩ := keeps d rfl
      rw [List.modify_zero_cons]
      cases rest with
      | nil =>
        rw [decode, decode, valid, page]
        split <;> simp
      | cons e rest =>
        rw [decode, decode, valid]
        split
        · cases found : decode (i + 1) (e :: rest) with
          | none => rfl
          | some leaf =>
            have level := decode_level found
            rw [List.length_cons] at level
            rw [Option.map_some, if_neg (by omega)]
        · rfl
    | succ k =>
      have below : decode (i + 1) (rest.modify k f) = _ := ih (fun e met => keeps e met)
      rw [List.modify_succ_cons]
      cases rest with
      | nil =>
        rw [List.modify_nil, decode]
        split <;> simp
      | cons e rest =>
        have some : (e :: rest).modify k f ≠ [] := by
          intro none
          have same := congrArg List.length none
          rw [List.length_modify, List.length_cons, List.length_nil] at same
          omega
        rw [decode_cons some, below, decode, show i + (k + 1) = i + 1 + k by omega]
        split <;> rfl

end Walks

/-! ## One turn of the loop -/

/-- What setting the entry of a granule does to the walk of an address. -/
def Set (start b k : Nat) (upd : BitVec 64 → BitVec 64) (es after : List (BitVec 64)) : Prop :=
  ∃ qs, Finer start b es qs ∧ qs.length = max es.length (k + 1) ∧ (k < es.length → qs = es) ∧ after = qs.modify k upd

/-- What the way to other granules does to it: each split is of a block that a
place `near` shares. -/
def Around (start b : Nat) (near : Nat → Prop) (es after : List (BitVec 64)) : Prop :=
  after = es ∨ Finer start b es after ∧ es.length < after.length ∧
    ∃ c, near c ∧ SameBlock (start + (after.length - 2)) c b

/-- One turn of the loop at `p` sets the entries `k` of a granule. -/
structure Turned (start p k : Nat) (upd : BitVec 64 → BitVec 64) (s t : Mmu) : Prop where
  inside : ∀ b, InReach start b → SameBlock (start + k) p b → Set start b k upd (entries start s b) (entries start t b)
  outside : ∀ b, InReach start b → ¬ SameBlock (start + k) p b →
    Around start b (· = p) (entries start s b) (entries start t b)

section Turn
variable {memMap : List MmRegion} {start b p k i j count level size pte : Nat}
  {other : Nat → Prop} {near far : Nat → Prop} {s t : Mmu} {es qs rs : List (BitVec 64)} {upd : BitVec 64 → BitVec 64}

theorem sameBlock_mono (same : SameBlock level p b) (above : j ≤ level) (small : level ≤ 3) : SameBlock j p b := by
  have shift : level2shift j = level2shift level + 9 * (level - j) := by
    rw [level2shift_eq small, level2shift_eq (by omega)]
    omega
  unfold SameBlock at same ⊢
  rw [shift, Nat.pow_add, ← Nat.div_div_eq_div_mul, ← Nat.div_div_eq_div_mul, same]

theorem Around.finer (around : Around start b near es qs) : Finer start b es qs := by
  rcases around with rfl | ⟨finer, _⟩
  · exact .refl _
  · exact finer

theorem Around.longer (around : Around start b near es qs) : es.length ≤ qs.length := by
  rcases around with rfl | ⟨_, longer, _⟩
  · exact le_rfl
  · exact longer.le

theorem Around.trans (first : Around start b near es qs) (second : Around start b near qs rs) :
    Around start b near es rs := by
  rcases first with rfl | ⟨finer, longer, _⟩
  · exact second
  · rcases second with rfl | ⟨more, further, close⟩
    · exact .inr ⟨finer, longer, by assumption⟩
    · exact .inr ⟨finer.trans more, longer.trans further, close⟩

/-- Where a pass gets to entry `k` there are the tables above it. -/
theorem Ready.above (ready : Ready start es k) (inside : j < es.length) (before : j ≤ k) :
    ∀ d ∈ es.take j, pteType d = pteTypeTable := by
  rcases ready with ⟨_, tables⟩ | ⟨front, d, rfl, _, _, tables, _⟩
  · exact fun d member => tables d ((List.take_sublist_take_left before).subset member)
  · rw [List.length_append, List.length_singleton] at inside
    rw [List.take_append_of_le_length (by omega)]
    exact fun d member => tables d (List.mem_of_mem_take member)

/-- An entry above the granule is a table, or the block to be split. -/
theorem Ready.entry (ready : Ready start es k) (before : j < k) (met : es[j]? = some d) :
    pteType d = pteTypeTable ∨ pteType d = pteTypeBlock := by
  rcases ready with ⟨inside, tables⟩ | ⟨front, e, rfl, _, _, tables, block⟩
  · refine .inl (tables d (List.mem_of_getElem? (i := j) ?_))
    rw [List.getElem?_take, if_pos before, met]
  · rcases Nat.lt_or_ge j front.length with early | late
    · rw [List.getElem?_append_left early] at met
      exact .inl (tables d (List.mem_of_getElem? met))
    · have inside := (List.getElem?_eq_some_iff.mp met).1
      rw [List.length_append, List.length_singleton] at inside
      obtain rfl : j = front.length := by omega
      rw [List.getElem?_concat_length, Option.some.injEq] at met
      exact .inr (met ▸ block)

/-- The walks that a pass is ready for go down to level 1. -/
theorem Ready.deep (ready : Ready start es k) (top : start ≤ 1) (upper : 1 ≤ start + k) : 1 - start < es.length := by
  rcases ready with ⟨inside, _⟩ | ⟨front, d, rfl, _, upper, _⟩
  · omega
  · rw [List.length_append, List.length_singleton]
    omega

/-- The entry at `i` of a walk that is ready for a deeper one. -/
theorem ready_slot (ready : Ready (startLevel memMap) (entries (startLevel memMap) s p) k) (before : i ≤ k)
    (deep : i < (entries (startLevel memMap) s p).length) :
    ∃ pte, findPte memMap s p (startLevel memMap + i) = some pte ∧
      (slots (startLevel memMap) s p)[i]? = some pte := by
  have inside : i < (slots (startLevel memMap) s p).length := by rwa [entries_length] at deep
  have visited : (slots (startLevel memMap) s p)[i]? = some _ := List.getElem?_eq_getElem inside
  exact ⟨_, (findPte_iff (slots_lt visited)).mpr ⟨visited, ready.above deep before⟩, visited⟩

theorem splitIfBlock_table (table : pteType (s.mem pte) = pteTypeTable) (level : Nat) :
    splitIfBlock pte level s = .ret () s := by
  unfold splitIfBlock
  rw [read_bind, if_neg (by rw [table]; decide)]
  rfl

private theorem splitIfBlock_block (block : pteType (s.mem pte) = pteTypeBlock) (level : Nat) :
    splitIfBlock pte level s = splitBlock pte level s := by
  unfold splitIfBlock
  rw [read_bind, if_pos block]

/-- Above its granule a turn finds a table, or makes one of a block. -/
theorem setOneRegion_above (attrs : BitVec 64) (flag : Bool) (tables : MapTables memMap other s)
    (reach : InReach (startLevel memMap) p) (small : startLevel memMap + k ≤ 3) (upper : 1 ≤ startLevel memMap + i)
    (before : i < k) (above : ¬ isAligned p size (2 ^ level2shift (startLevel memMap + i : Nat)))
    (ready : Ready (startLevel memMap) (entries (startLevel memMap) s p) k)
    (deep : i < (entries (startLevel memMap) s p).length) :
    Takes other (i + 2 - (entries (startLevel memMap) s p).length) s
      (fun r t => r = 0 ∧ MapTables memMap other t ∧
        (entries (startLevel memMap) t p).length = max (entries (startLevel memMap) s p).length (i + 2) ∧
        ∀ b, InReach (startLevel memMap) b →
          Around (startLevel memMap) b (· = p) (entries (startLevel memMap) s b) (entries (startLevel memMap) t b) ∧
            (entries (startLevel memMap) t b).length ≤ max (entries (startLevel memMap) s b).length (i + 2))
      (setOneRegion memMap p size attrs flag (startLevel memMap + i) s) := by
  obtain ⟨pte, found, visited⟩ := ready_slot ready before.le deep
  have met := entry_of_slot visited
  unfold setOneRegion
  rw [read_bind, found]
  simp only [above, ↓reduceIte]
  rcases ready.entry before met with table | block
  · -- A table above the last level is not the end of the walk.
    have deeper : i + 1 < (entries (startLevel memMap) s p).length := by
      obtain ⟨front, last, split, _, leaf⟩ := entries_ends s p (show startLevel memMap < 4 by omega)
      by_contra short
      have length : (entries (startLevel memMap) s p).length = front.length + 1 := by
        rw [split, List.length_append, List.length_singleton]
      have here : i = front.length := by omega
      have notTable := leaf (by omega)
      rw [split, here, List.getElem?_concat_length, Option.some.injEq] at met
      rw [met, (type_table_iff.mp table).2] at notTable
      cases notTable
    rw [bind_of_ret (splitIfBlock_table table _), read_bind]
    simp only [table, ne_eq, not_true_eq_false, ↓reduceIte]
    rw [show i + 2 - (entries (startLevel memMap) s p).length = 0 by omega]
    exact .ret (Within.refl s) ⟨rfl, tables, by omega, fun b _ => ⟨.inl rfl, by omega⟩⟩
  · -- And a block is.
    have ends : (entries (startLevel memMap) s p).length = i + 1 := by
      obtain ⟨front, rfl, split⟩ := block_ends (by omega) met block
      rw [split, List.length_append, List.length_singleton]
    have spec := splitBlock_spec tables reach visited upper (by omega) block
    rw [← splitIfBlock_block block] at spec
    rw [show i + 2 - (entries (startLevel memMap) s p).length = 1 + 0 by omega]
    refine spec.bind (fun _ t holds => ?_)
    obtain ⟨after, replaced, stored, _⟩ := holds
    rw [read_bind, stored, if_neg (by rw [tableDesc_type]; decide)]
    refine .ret (Within.refl t) ⟨rfl, after, ?_, fun b reachB => ?_⟩
    · obtain ⟨front, long, _, now⟩ := split_through visited (by omega) block replaced reach (Format.Same.refl p)
      rw [now, List.length_append]
      simp only [List.length_cons, List.length_nil]
      omega
    · by_cases agree : format.Same (levelsFrom (startLevel memMap)) (i + 1) p b
      · obtain ⟨front, long, old, now⟩ := split_through visited (by omega) block replaced reachB agree
        have same : SameBlock (startLevel memMap + i) p b := (same_block (by omega) reach reachB).mp agree
        subst long
        rw [old, now]
        simp only [List.length_append, List.length_cons, List.length_nil]
        refine ⟨.inr ⟨.split upper (by omega) block (.refl _), by simp, p, rfl, ?_⟩, by omega⟩
        simp only [List.length_append, List.length_cons, List.length_nil]
        exact same
      · rw [replaced.other b reachB agree]
        exact ⟨.inl rfl, by omega⟩

/-- On the level of its granule a turn sets the entry. -/
theorem setOneRegion_here (attrs : BitVec 64) (flag : Bool)
    (ready : Ready (startLevel memMap) (entries (startLevel memMap) s p) k)
    (deep : k < (entries (startLevel memMap) s p).length)
    (here : isAligned p size (2 ^ level2shift (startLevel memMap + k : Nat))) :
    ∃ pte, findPte memMap s p (startLevel memMap + k) = some pte ∧ (slots (startLevel memMap) s p)[k]? = some pte ∧
      setOneRegion memMap p size attrs flag (startLevel memMap + k) s =
        .ret (2 ^ level2shift (startLevel memMap + k : Nat)) (s.set pte (withAttrs (s.mem pte) attrs flag)) := by
  obtain ⟨pte, found, visited⟩ := ready_slot ready le_rfl deep
  refine ⟨pte, found, visited, ?_⟩
  unfold setOneRegion
  rw [read_bind, found]
  simp only [here, ↓reduceIte]
  rfl

/-- A turn at `p` that has come down to entry `i`, on its way to entry `k`. -/
structure Turn (memMap : List MmRegion) (p size k i : Nat) (s : Mmu) : Prop where
  reach : InReach (startLevel memMap) p
  small : startLevel memMap + k ≤ 3
  upper : 1 ≤ startLevel memMap + i
  here : isAligned p size (2 ^ level2shift (startLevel memMap + k : Nat))
  above : ∀ level, 1 ≤ level → level < startLevel memMap + k → ¬ isAligned p size (2 ^ level2shift level)
  ready : Ready (startLevel memMap) (entries (startLevel memMap) s p) k
  deep : i < (entries (startLevel memMap) s p).length

theorem Turn.next (turn : Turn memMap p size k i s)
    (finer : Finer (startLevel memMap) p (entries (startLevel memMap) s p) (entries (startLevel memMap) t p))
    (deeper : i + 1 < (entries (startLevel memMap) t p).length) : Turn memMap p size k (i + 1) t :=
  ⟨turn.reach, turn.small, Nat.le_succ_of_le turn.upper, turn.here, turn.above,
    finer.ready turn.small turn.ready, deeper⟩

/-- One turn: the blocks above the granule are split, and its entry is set. -/
theorem setGranule_spec (attrs : BitVec 64) (flag : Bool) (tables : MapTables memMap other s)
    (turn : Turn memMap p size k i s) (levels : i + count = k) :
    Takes other (k + 1 - (entries (startLevel memMap) s p).length) s
      (fun r t => r = 2 ^ level2shift (startLevel memMap + k : Nat) ∧
        MapTables memMap other t ∧ Turned (startLevel memMap) p k (fun d => withAttrs d attrs flag) s t)
      (setGranule memMap p size attrs flag (levelsFrom (startLevel memMap + i)) s) := by
  induction count generalizing i s with
  | zero =>
    obtain rfl : i = k := levels
    obtain ⟨reach, _, _, here, _, ready, deep⟩ := turn
    obtain ⟨pte, _, visited, ran⟩ := setOneRegion_here attrs flag ready deep here
    have positive : 2 ^ level2shift (startLevel memMap + i : Nat) ≠ 0 := (Nat.two_pow_pos _).ne'
    rw [levelsFrom_cons (by omega), setGranule, bind_of_ret ran, if_pos positive]
    obtain ⟨within, after, through, rest⟩ := tables.modify reach visited attrs flag
    rw [show i + 1 - (entries (startLevel memMap) s p).length = 0 by omega]
    refine .ret within ⟨rfl, after, fun b reachB same => ?_, fun b reachB different => ?_⟩
    · have agree := (same_block (by omega) reach reachB).mpr same
      have inside := (List.getElem?_eq_some_iff.mp (entry_of_slot (visited_of_same visited agree))).1
      exact ⟨_, .refl _, by omega, fun _ => rfl, through b reachB agree⟩
    · exact .inl (rest b reachB (fun agree => different ((same_block (by omega) reach reachB).mp agree)))
  | succ count ih =>
    have bounds := turn
    obtain ⟨reach, small, upper, _, above, ready, deep⟩ := bounds
    rw [levelsFrom_cons (by omega), setGranule]
    have first := setOneRegion_above attrs flag tables reach small upper (by omega) (above _ upper (by omega)) ready deep
    have total : k + 1 - (entries (startLevel memMap) s p).length = (i + 2 - (entries (startLevel memMap) s p).length) +
        (k + 1 - max (entries (startLevel memMap) s p).length (i + 2)) := by omega
    rw [total]
    refine first.bind (fun r between holds => ?_)
    obtain ⟨zero, opened, deeper, changes⟩ := holds
    rw [if_neg (by rw [zero]; simp), ← deeper]
    have next : Takes other _ between _ (setGranule memMap p size attrs flag (levelsFrom (startLevel memMap + (i + 1)))
        between) := ih opened (turn.next (changes p reach).1.finer (by omega)) (by omega)
    refine next.mono (fun r t holds => ?_)
    obtain ⟨set, after, turned⟩ := holds
    refine ⟨set, after, fun b reachB same => ?_, fun b reachB different => ?_⟩
    · obtain ⟨around, bound⟩ := changes b reachB
      obtain ⟨qs, finer, length, unsplit, result⟩ := turned.inside b reachB same
      have longer := around.longer
      refine ⟨qs, around.finer.trans finer, by omega, fun deepB => ?_, result⟩
      rcases around with eq | ⟨_, grown, _⟩
      · rw [← eq]
        exact unsplit (by rw [eq]; exact deepB)
      · omega
    · exact (changes b reachB).1.trans (turned.outside b reachB different)

theorem Around.mono (around : Around start b near es qs) (more : ∀ c, near c → far c) : Around start b far es qs := by
  rcases around with same | ⟨finer, longer, c, close, block⟩
  · exact .inl same
  · exact .inr ⟨finer, longer, c, more c close, block⟩

/-- An entry whose granule no place near it shares is not split any further. -/
theorem Around.unchanged (around : Around start b near es qs) (bound : start + qs.length ≤ 4)
    (deep : k < es.length) (apart : ∀ c, near c → ¬ SameBlock (start + k) c b) : qs = es := by
  rcases around with same | ⟨_, longer, c, close, block⟩
  · exact same
  · exact absurd (sameBlock_mono block (by omega) (by omega)) (apart c close)

/-- Nor split below its granule. -/
theorem Around.length_le (around : Around start b near es qs) (bound : start + qs.length ≤ 4)
    (apart : ∀ c, near c → ¬ SameBlock (start + k) c b) : qs.length ≤ max es.length (k + 1) := by
  rcases around with same | ⟨_, longer, c, close, block⟩
  · rw [same]
    omega
  · by_contra long
    exact apart c close (sameBlock_mono block (by omega) (by omega))

theorem entries_bound (small : start ≤ 3) : start + (entries start s b).length ≤ 4 := by
  have short : (slots start s b).length ≤ 4 - start := slots_length_le
  rw [entries_length]
  omega

end Turn

end RockOs.PageTableRegions
