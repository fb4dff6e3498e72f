import Mathlib.Data.List.Basic
import Mathlib.Logic.Function.Basic

/-! Radix trees laid out in memory. A walk looks up one index of the key for
each level: the entry found is either a leaf or leads to the table of the next
level. What the tree says about a key is the list of entries its walk meets.
The tree stays a tree as long as no entry is reached in two ways; then a store
to one entry changes the walks through that entry and no others. -/
namespace RockOs.RadixTable

/-- How the trees are laid out: which entries lead to another table, and which
entry of a table a key selects at a level. -/
structure Format (K D : Type) where
  width : Nat
  fanout : Nat
  child : D → Option Nat
  index : Nat → K → Nat
  width_pos : 0 < width
  index_lt : ∀ level key, index level key < fanout

variable {K D : Type} {F : Format K D} {mem after : Nat → D} {key a b : K} {levels : List Nat} {root : Nat}

/-- The address of the entry that the key selects in a table. -/
def Format.slot (F : Format K D) (level table : Nat) (key : K) : Nat := table + F.width * F.index level key

/-- The addresses a walk visits. -/
def Format.path (F : Format K D) (mem : Nat → D) (key : K) : List Nat → Nat → List Nat
  | [], _ => []
  | level :: levels, table =>
    F.slot level table key ::
      match F.child (mem (F.slot level table key)) with
      | none => []
      | some next => F.path mem key levels next

/-- The part of a walk behind an entry that leads to `next`, if to any table. -/
def Format.behind (F : Format K D) (mem : Nat → D) (key : K) (levels : List Nat) : Option Nat → List Nat
  | none => []
  | some next => F.path mem key levels next

theorem path_cons : F.path mem key (level :: levels) root =
    F.slot level root key :: F.behind mem key levels (F.child (mem (F.slot level root key))) := by
  rw [Format.path]
  cases F.child (mem (F.slot level root key)) <;> rfl

/-- The entries a walk meets; the last one is the leaf. -/
def Format.entries (F : Format K D) (mem : Nat → D) (key : K) (levels : List Nat) (root : Nat) : List D :=
  (F.path mem key levels root).map mem

/-- The keys select the same entries on the first `n` levels. -/
def Format.Same (F : Format K D) (levels : List Nat) (n : Nat) (a b : K) : Prop :=
  ∀ level ∈ levels.take n, F.index level a = F.index level b

theorem Format.Same.refl (a : K) : F.Same levels n a a := fun _ _ => rfl

theorem Format.Same.symm (same : F.Same levels n a b) : F.Same levels n b a :=
  fun level member => (same level member).symm

theorem Format.Same.trans (left : F.Same levels n a b) (right : F.Same levels n b c) : F.Same levels n a c :=
  fun level member => (left level member).trans (right level member)

theorem Format.Same.mono (same : F.Same levels n a b) (fewer : m ≤ n) : F.Same levels m a b :=
  fun level member => same level ((List.take_sublist_take_left fewer).subset member)

/-- Entries in a table lie between its first byte and its end. -/
theorem Format.slot_inside (F : Format K D) (level table : Nat) (key : K) :
    table ≤ F.slot level table key ∧ F.slot level table key < table + F.width * F.fanout := by
  have small := F.index_lt level key
  have positive := F.width_pos
  have below : F.width * F.index level key < F.width * F.fanout := Nat.mul_lt_mul_of_pos_left small positive
  unfold Format.slot
  omega

private theorem Format.slot_injective (same : F.slot level root a = F.slot level root b) :
    F.index level a = F.index level b := by
  unfold Format.slot at same
  exact Nat.eq_of_mul_eq_mul_left F.width_pos (by omega)

/-! ## Walks -/

theorem path_length_le : (F.path mem key levels root).length ≤ levels.length := by
  induction levels generalizing root with
  | nil => simp [Format.path]
  | cons level levels ih =>
    rw [path_cons, List.length_cons, List.length_cons]
    cases F.child (mem (F.slot level root key)) with
    | none => simp [Format.behind]
    | some next =>
      have rest : (F.path mem key levels next).length ≤ levels.length := ih
      exact Nat.succ_le_succ rest

/-- A walk begins with the entries of the tables alone that it goes through. -/
theorem path_take (same : ∀ s ∈ (F.path mem key levels root).take k, F.child (after s) = F.child (mem s)) :
    (F.path after key levels root).take (k + 1) = (F.path mem key levels root).take (k + 1) := by
  induction levels generalizing root k with
  | nil => rfl
  | cons level levels ih =>
    rw [path_cons, path_cons, List.take_succ_cons, List.take_succ_cons]
    congr 1
    cases k with
    | zero => rw [List.take_zero, List.take_zero]
    | succ k =>
      rw [path_cons, List.take_succ_cons] at same
      have head := same (F.slot level root key) (by simp)
      rw [head]
      cases next : F.child (mem (F.slot level root key)) with
      | none => rfl
      | some table =>
        rw [next] at same
        exact ih (fun s member => same s (List.mem_cons_of_mem _ member))

private theorem path_congr (same : ∀ s ∈ F.path mem key levels root, F.child (after s) = F.child (mem s)) :
    F.path after key levels root = F.path mem key levels root := by
  induction levels generalizing root with
  | nil => rfl
  | cons level levels ih =>
    rw [path_cons, path_cons]
    rw [path_cons] at same
    rw [same (F.slot level root key) (by simp)]
    cases next : F.child (mem (F.slot level root key)) with
    | none => rfl
    | some table =>
      rw [next] at same
      exact congrArg _ (ih (fun s member => same s (List.mem_cons_of_mem _ member)))

/-- Keys that agree on the first levels begin their walks together. -/
theorem path_same (same : F.Same levels n a b) :
    (F.path mem a levels root).take n = (F.path mem b levels root).take n := by
  induction levels generalizing root n with
  | nil => rfl
  | cons level levels ih =>
    cases n with
    | zero => simp
    | succ n =>
      have head : F.slot level root a = F.slot level root b := by
        unfold Format.slot
        rw [same level (by simp)]
      rw [path_cons, path_cons, List.take_succ_cons, List.take_succ_cons, head]
      congr 1
      cases F.child (mem (F.slot level root b)) with
      | none => rfl
      | some table => exact ih (fun level member => same level (by simp [member]))

/-- A walk that ends on the levels where the keys agree is the walk of both. -/
theorem path_short (same : F.Same levels n a b) (short : (F.path mem a levels root).length ≤ n) :
    F.path mem b levels root = F.path mem a levels root := by
  induction levels generalizing root n with
  | nil => rfl
  | cons level levels ih =>
    cases n with
    | zero =>
      rw [path_cons, List.length_cons] at short
      omega
    | succ n =>
      have head : F.slot level root a = F.slot level root b := by
        unfold Format.slot
        rw [same level (by simp)]
      rw [path_cons, List.length_cons, head] at short
      rw [path_cons, path_cons, head]
      congr 1
      cases next : F.child (mem (F.slot level root b)) with
      | none => rfl
      | some table =>
        rw [next] at short
        exact ih (fun level member => same level (by simp [member])) (Nat.le_of_succ_le_succ short)

/-- A walk goes on from an entry into the table the entry leads to. -/
theorem path_split (visited : (F.path mem key levels root)[k]? = some s) :
    F.path mem key levels root = (F.path mem key levels root).take (k + 1) ++
      F.behind mem key (levels.drop (k + 1)) (F.child (mem s)) := by
  induction levels generalizing root k with
  | nil => simp [Format.path] at visited
  | cons level levels ih =>
    cases k with
    | zero =>
      rw [path_cons, List.getElem?_cons_zero, Option.some.injEq] at visited
      rw [path_cons, visited, List.take_succ_cons, List.take_zero, List.drop_succ_cons, List.drop_zero]
      rfl
    | succ k =>
      rw [path_cons, List.getElem?_cons_succ] at visited
      rw [path_cons, List.take_succ_cons, List.drop_succ_cons, List.cons_append]
      congr 1
      cases next : F.child (mem (F.slot level root key)) with
      | none => simp [next, Format.behind] at visited
      | some table =>
        rw [next] at visited
        exact ih visited

/-- Nothing is behind a leaf, nor behind the last level. -/
theorem behind_nil (ends : next = none ∨ levels.length ≤ n) : F.behind mem key (levels.drop n) next = [] := by
  cases next with
  | none => rfl
  | some table =>
    rcases ends with none | short
    · cases none
    · rw [Format.behind, List.drop_eq_nil_of_le short, Format.path]

/-! ## Trees -/

/-- The walks of `keys` stay inside the addresses `own`, and an entry two of
them meet is met on the same level by keys that agree up to there. -/
structure Tree (F : Format K D) (levels : List Nat) (root : Nat) (own : Nat → Prop) (keys : K → Prop)
    (mem : Nat → D) : Prop where
  inside : ∀ a, keys a → ∀ s ∈ F.path mem a levels root, own s
  apart : ∀ a b, keys a → keys b → ∀ (i j : Nat) s, (F.path mem a levels root)[i]? = some s →
    (F.path mem b levels root)[j]? = some s → i = j ∧ F.Same levels (i + 1) a b

section Updates
variable {own : Nat → Prop} {keys : K → Prop} {k s : Nat}

/-- Only walks through an entry meet it. -/
theorem Tree.same_of_mem (tree : Tree F levels root own keys mem) (keyA : keys a) (keyB : keys b)
    (visited : (F.path mem a levels root)[k]? = some s) (member : s ∈ F.path mem b levels root) :
    F.Same levels (k + 1) a b := by
  obtain ⟨j, met⟩ := List.mem_iff_getElem?.mp member
  exact (tree.apart a b keyA keyB k j s visited met).2

theorem visited_of_same (visited : (F.path mem a levels root)[k]? = some s) (same : F.Same levels (k + 1) a b) :
    (F.path mem b levels root)[k]? = some s := by
  have begins : (F.path mem a levels root).take (k + 1) = (F.path mem b levels root).take (k + 1) := path_same same
  have taken := congrArg (fun path => path[k]?) begins
  simp only [List.getElem?_take, Nat.lt_succ_self, ↓reduceIte] at taken
  rw [← taken, visited]

/-- A walk does not meet the same entry twice. -/
theorem Tree.not_before (tree : Tree F levels root own keys mem) (keyB : keys b)
    (visited : (F.path mem b levels root)[k]? = some s) : s ∉ (F.path mem b levels root).take k := by
  intro member
  obtain ⟨j, met⟩ := List.mem_iff_getElem?.mp member
  rw [List.getElem?_take] at met
  split at met
  · rename_i before
    have same := (tree.apart b b keyB keyB j k s met visited).1
    omega
  · cases met

/-- Memory changed at the entry `s` and outside the tree only. -/
def ChangedAt (own : Nat → Prop) (s : Nat) (mem after : Nat → D) : Prop :=
  ∀ x, own x → x ≠ s → after x = mem x

theorem changedAt_update {own : Nat → Prop} {mem : Nat → D} {d : D} :
    ChangedAt own s mem (Function.update mem s d) :=
  fun _ _ different => Function.update_of_ne different _ _

/-- Walks past the entry are as before. -/
theorem Tree.path_other (tree : Tree F levels root own keys mem) (keyA : keys a)
    (visited : (F.path mem a levels root)[k]? = some s) (changed : ChangedAt own s mem after) (keyB : keys b)
    (different : ¬ F.Same levels (k + 1) a b) :
    F.path after b levels root = F.path mem b levels root ∧
      F.entries after b levels root = F.entries mem b levels root := by
  have unchanged : ∀ x ∈ F.path mem b levels root, after x = mem x := by
    intro x member
    refine changed x (tree.inside b keyB x member) ?_
    rintro rfl
    exact different (tree.same_of_mem keyA keyB visited member)
  have path := path_congr (fun x member => congrArg F.child (unchanged x member))
  refine ⟨path, ?_⟩
  unfold Format.entries
  rw [path]
  exact List.map_congr_left unchanged

/-- Walks through the entry begin as before and go on from the new entry. -/
theorem Tree.path_through (tree : Tree F levels root own keys mem)
    (visited : (F.path mem a levels root)[k]? = some s) (changed : ChangedAt own s mem after) (keyB : keys b)
    (same : F.Same levels (k + 1) a b) :
    (∀ x ∈ (F.path mem b levels root).take k, after x = mem x) ∧
      F.path after b levels root = (F.path mem b levels root).take (k + 1) ++
        F.behind after b (levels.drop (k + 1)) (F.child (after s)) := by
  have met := visited_of_same visited same
  have unchanged : ∀ x ∈ (F.path mem b levels root).take k, after x = mem x := by
    intro x member
    refine changed x (tree.inside b keyB x (List.mem_of_mem_take member)) ?_
    rintro rfl
    exact tree.not_before keyB met member
  have start : (F.path after b levels root).take (k + 1) = (F.path mem b levels root).take (k + 1) :=
    path_take (fun x member => congrArg F.child (unchanged x member))
  have metAfter : (F.path after b levels root)[k]? = some s := by
    have taken := congrArg (fun path => path[k]?) start
    simpa only [List.getElem?_take, Nat.lt_succ_self, ↓reduceIte, met] using taken
  refine ⟨unchanged, ?_⟩
  rw [← start]
  exact path_split metAfter

/-- The first `k + 1` entries of a walk through `s`. -/
theorem path_take_succ (met : (F.path mem b levels root)[k]? = some s) :
    (F.path mem b levels root).take (k + 1) = (F.path mem b levels root).take k ++ [s] := by
  rw [List.take_add_one, met]
  rfl

/-- What a walk through the entry meets begins as before. -/
theorem Tree.entries_through (tree : Tree F levels root own keys mem)
    (visited : (F.path mem a levels root)[k]? = some s) (changed : ChangedAt own s mem after) (keyB : keys b)
    (same : F.Same levels (k + 1) a b) :
    F.entries after b levels root = (F.entries mem b levels root).take k ++ after s ::
      (F.behind after b (levels.drop (k + 1)) (F.child (after s))).map after := by
  obtain ⟨unchanged, path⟩ := tree.path_through visited changed keyB same
  unfold Format.entries
  rw [path, path_take_succ (visited_of_same visited same), List.append_assoc, List.map_append,
    List.map_congr_left unchanged, ← List.map_take]
  rfl

/-- A tree is one for fewer keys and more addresses, when its walks only got
shorter. -/
theorem Tree.of_shorter {own' : Nat → Prop} {keys' : K → Prop} (tree : Tree F levels root own keys mem)
    (fewer : ∀ b, keys' b → keys b) (more : ∀ x, own x → own' x)
    (shorter : ∀ b, keys' b → ∀ (i : Nat) x, (F.path after b levels root)[i]? = some x →
      (F.path mem b levels root)[i]? = some x) :
    Tree F levels root own' keys' after where
  inside a keyA x member := by
    obtain ⟨i, met⟩ := List.mem_iff_getElem?.mp member
    exact more x (tree.inside a (fewer a keyA) x (List.mem_of_getElem? (shorter a keyA i x met)))
  apart a b keyA keyB i j x metA metB :=
    tree.apart a b (fewer a keyA) (fewer b keyB) i j x (shorter a keyA i x metA) (shorter b keyB j x metB)

/-- An entry becomes a leaf: the walks through it end there. -/
theorem Tree.cut (tree : Tree F levels root own keys mem) (keyA : keys a)
    (visited : (F.path mem a levels root)[k]? = some s) (changed : ChangedAt own s mem after)
    (ends : F.child (after s) = none ∨ levels.length ≤ k + 1) :
    Tree F levels root own keys after ∧
      (∀ b, keys b → F.Same levels (k + 1) a b →
        F.entries after b levels root = (F.entries mem b levels root).take k ++ [after s]) := by
  have nothing : ∀ b, F.behind after b (levels.drop (k + 1)) (F.child (after s)) = [] :=
    fun b => behind_nil ends
  constructor
  · refine tree.of_shorter (fun _ member => member) (fun _ inside => inside) (fun b keyB i x met => ?_)
    by_cases same : F.Same levels (k + 1) a b
    · rw [(tree.path_through visited changed keyB same).2, nothing, List.append_nil, List.getElem?_take] at met
      split at met
      · exact met
      · cases met
    · rwa [(tree.path_other keyA visited changed keyB same).1] at met
  · intro b keyB same
    rw [tree.entries_through visited changed keyB same, nothing]
    rfl

/-- An entry changes but leads where it led: every walk is the same walk. -/
theorem Tree.modify (tree : Tree F levels root own keys mem)
    (visited : (F.path mem a levels root)[k]? = some s) (changed : ChangedAt own s mem after)
    (leads : F.child (after s) = F.child (mem s)) :
    Tree F levels root own keys after ∧
      ∀ b, keys b → F.Same levels (k + 1) a b →
        F.entries after b levels root = (F.entries mem b levels root).set k (after s) := by
  have paths : ∀ b, keys b → F.path after b levels root = F.path mem b levels root := by
    intro b keyB
    refine path_congr (fun x member => ?_)
    by_cases entry : x = s
    · rw [entry, leads]
    · rw [changed x (tree.inside b keyB x member) entry]
  constructor
  · exact tree.of_shorter (fun _ member => member) (fun _ inside => inside)
      (fun b keyB i x met => by rwa [paths b keyB] at met)
  · intro b keyB same
    have met := visited_of_same visited same
    unfold Format.entries
    rw [paths b keyB]
    apply List.ext_getElem?
    intro i
    rw [List.getElem?_set, List.getElem?_map, List.getElem?_map]
    by_cases here : k = i
    · subst here
      have inside : k < (F.path mem b levels root).length := (List.getElem?_eq_some_iff.mp met).1
      rw [met, Option.map_some, if_pos rfl, if_pos (by rwa [List.length_map])]
    · rw [if_neg here]
      cases visits : (F.path mem b levels root)[i]? with
      | none => rfl
      | some x =>
        have different : x ≠ s := by
          rintro rfl
          exact here (tree.apart b b keyB keyB k i x met visits).1
        have member : x ∈ F.path mem b levels root := List.mem_of_getElem? visits
        simp [changed x (tree.inside b keyB x member) different]

/-- A leaf gets a table of its own, whose entries are leaves: the walks
through it go one step further. -/
theorem Tree.grow (tree : Tree F levels root own keys mem) (keyA : keys a)
    (visited : (F.path mem a levels root)[k]? = some s) (changed : ChangedAt own s mem after)
    (leads : F.child (after s) = some table) (deeper : levels[k + 1]? = some level)
    (fresh : ∀ x, own x → x < table ∨ table + F.width * F.fanout ≤ x)
    (leaves : ∀ i < F.fanout, F.child (after (table + F.width * i)) = none ∨ levels.length ≤ k + 2) :
    Tree F levels root (fun x => own x ∨ table ≤ x ∧ x < table + F.width * F.fanout) keys after ∧
      ∀ b, keys b → F.Same levels (k + 1) a b →
        F.entries after b levels root =
          (F.entries mem b levels root).take k ++ [after s, after (F.slot level table b)] := by
  have next : ∃ rest, levels.drop (k + 1) = level :: rest := by
    have inside := (List.getElem?_eq_some_iff.mp deeper)
    obtain ⟨small, here⟩ := inside
    exact ⟨_, by rw [List.drop_eq_getElem_cons small, here]⟩
  obtain ⟨rest, next⟩ := next
  have step : ∀ b, F.behind after b (levels.drop (k + 1)) (F.child (after s)) = [F.slot level table b] := by
    intro b
    have here := leaves _ (F.index_lt level b)
    have below : levels.drop (k + 2) = rest := by
      rw [show k + 2 = k + 1 + 1 by omega, ← List.drop_drop, next, List.drop_one, List.tail_cons]
    rw [leads, next, Format.behind, path_cons, ← below]
    exact congrArg _ (behind_nil here)
  have paths : ∀ b, keys b → F.Same levels (k + 1) a b →
      F.path after b levels root = (F.path mem b levels root).take (k + 1) ++ [F.slot level table b] := by
    intro b keyB same
    rw [(tree.path_through visited changed keyB same).2, step]
  -- A walk meets either entries it met before, or the new table on the level below.
  have meets : ∀ b, keys b → ∀ (i : Nat) x, (F.path after b levels root)[i]? = some x →
      (F.path mem b levels root)[i]? = some x ∨
        i = k + 1 ∧ F.Same levels (k + 1) a b ∧ x = F.slot level table b := by
    intro b keyB i x met
    by_cases same : F.Same levels (k + 1) a b
    · have long : ((F.path mem b levels root).take (k + 1)).length = k + 1 := by
        have inside := (List.getElem?_eq_some_iff.mp (visited_of_same visited same)).1
        rw [List.length_take]
        omega
      rw [paths b keyB same] at met
      by_cases before : i < k + 1
      · rw [List.getElem?_append_left (by omega), List.getElem?_take, if_pos before] at met
        exact .inl met
      · rw [List.getElem?_append_right (by omega), long] at met
        have here : i - (k + 1) = 0 := by
          by_contra beyond
          rw [List.getElem?_eq_none (by simp only [List.length_singleton]; omega)] at met
          cases met
        rw [here, List.getElem?_cons_zero, Option.some.injEq] at met
        exact .inr ⟨by omega, same, met.symm⟩
    · rw [(tree.path_other keyA visited changed keyB same).1] at met
      exact .inl met
  constructor
  · refine { inside := fun b keyB x member => ?_, apart := fun b c keyB keyC i j x metB metC => ?_ }
    · obtain ⟨i, met⟩ := List.mem_iff_getElem?.mp member
      rcases meets b keyB i x met with old | ⟨_, _, rfl⟩
      · exact .inl (tree.inside b keyB x (List.mem_of_getElem? old))
      · exact .inr (F.slot_inside level table b)
    · have notBoth : ∀ d e, keys d → ∀ i : Nat,
          (F.path mem d levels root)[i]? = some (F.slot level table e) → False := by
        intro d e keyD i old
        have outside := fresh _ (tree.inside d keyD _ (List.mem_of_getElem? old))
        have inside := F.slot_inside level table e
        omega
      rcases meets b keyB i x metB with oldB | ⟨isB, sameB, atB⟩
      · rcases meets c keyC j x metC with oldC | ⟨_, _, rfl⟩
        · exact tree.apart b c keyB keyC i j x oldB oldC
        · exact (notBoth b c keyB i oldB).elim
      · rcases meets c keyC j x metC with oldC | ⟨isC, sameC, atC⟩
        · exact (notBoth c b keyC j (atB ▸ oldC)).elim
        · refine ⟨isB.trans isC.symm, fun l member => ?_⟩
          rw [isB, List.take_add_one, deeper, List.mem_append] at member
          rcases member with above | here
          · exact (sameB.symm.trans sameC) l above
          · rw [Option.toList_some, List.mem_singleton] at here
            rw [here]
            exact Format.slot_injective (atB.symm.trans atC)
  · intro b keyB same
    rw [tree.entries_through visited changed keyB same, step]
    rfl

/-- What happens outside the tree does not concern it. -/
theorem Tree.frame (tree : Tree F levels root own keys mem) (unchanged : ∀ x, own x → after x = mem x) :
    Tree F levels root own keys after ∧
      ∀ b, keys b → F.entries after b levels root = F.entries mem b levels root := by
  have paths : ∀ b, keys b → F.path after b levels root = F.path mem b levels root := by
    intro b keyB
    exact path_congr (fun x member => congrArg F.child (unchanged x (tree.inside b keyB x member)))
  constructor
  · exact tree.of_shorter (fun _ member => member) (fun _ inside => inside)
      (fun b keyB i x met => by rwa [paths b keyB] at met)
  · intro b keyB
    unfold Format.entries
    rw [paths b keyB]
    exact List.map_congr_left (fun x member => unchanged x (tree.inside b keyB x member))

/-- A table of leaves is a tree. -/
theorem Tree.single (leaves : ∀ i < F.fanout, F.child (mem (root + F.width * i)) = none) :
    Tree F (level :: levels) root (fun x => root ≤ x ∧ x < root + F.width * F.fanout) keys mem ∧
      ∀ b, F.entries mem b (level :: levels) root = [mem (F.slot level root b)] := by
  have paths : ∀ b, F.path mem b (level :: levels) root = [F.slot level root b] := by
    intro b
    rw [path_cons, Format.slot, leaves _ (F.index_lt level b)]
    rfl
  constructor
  · refine { inside := fun b _ x member => ?_, apart := fun b c _ _ i j x metB metC => ?_ }
    · rw [paths, List.mem_singleton] at member
      exact member ▸ F.slot_inside level root b
    · rw [paths, List.getElem?_singleton] at metB metC
      split at metB
      · split at metC
        · rename_i isB isC
          refine ⟨isB.trans isC.symm, fun l member => ?_⟩
          rw [isB, Nat.zero_add, List.take_succ_cons, List.take_zero, List.mem_singleton] at member
          rw [member]
          exact Format.slot_injective ((Option.some.inj metB).trans (Option.some.inj metC).symm)
        · cases metC
      · cases metB
  · intro b
    unfold Format.entries
    rw [paths]
    rfl

end Updates

/-! ## The tables of a tree -/

section Tables
variable {own : Nat → Prop} {keys : K → Prop}

/-- The tables found from the root through entries that lead on, with their
depth. -/
inductive Format.Reaches (F : Format K D) (mem : Nat → D) (depth root : Nat) : Nat → Nat → Prop
  | root : Reaches F mem depth root 0 root
  | step (reached : Reaches F mem depth root k table) (deeper : k + 1 < depth) (small : i < F.fanout)
      (leads : F.child (mem (table + F.width * i)) = some next) : Reaches F mem depth root (k + 1) next

theorem Format.Reaches.lt (reached : F.Reaches mem depth root k table) (positive : 0 < depth) : k < depth := by
  cases reached with
  | root => exact positive
  | step _ deeper => exact deeper

/-- Every choice of an index can follow every beginning of a key. -/
def Format.Full (F : Format K D) (levels : List Nat) (keys : K → Prop) : Prop :=
  ∀ a, keys a → ∀ (k level : Nat), levels[k]? = some level → ∀ i < F.fanout,
    ∃ b, keys b ∧ F.Same levels k a b ∧ F.index level b = i

/-- Some key leads to a table that is reached, and so do all that begin alike. -/
theorem reaches_visited (full : F.Full levels keys) (keyA : keys a)
    (reached : F.Reaches mem levels.length root k table) (level : levels[k]? = some l) :
    ∃ b, keys b ∧ ∀ c, F.Same levels k b c → (F.path mem c levels root)[k]? = some (F.slot l table c) := by
  induction reached generalizing l with
  | root =>
    refine ⟨a, keyA, fun c _ => ?_⟩
    cases levels with
    | nil => cases level
    | cons first levels =>
      rw [List.getElem?_cons_zero, Option.some.injEq] at level
      rw [path_cons, List.getElem?_cons_zero, level]
  | @step k table i next reached deeper small leads ih =>
    have above : levels[k]? = some levels[k] := List.getElem?_eq_getElem (by omega)
    obtain ⟨b, keyB, visited⟩ := ih above
    obtain ⟨d, keyD, same, index⟩ := full b keyB k _ above i small
    refine ⟨d, keyD, fun c agree => ?_⟩
    have met := visited c (same.trans (agree.mono (Nat.le_succ k)))
    have entry : F.slot levels[k] table c = table + F.width * i := by
      have last : levels[k] ∈ levels.take (k + 1) :=
        List.mem_of_getElem? (by rw [List.getElem?_take, if_pos (Nat.lt_succ_self k), above])
      rw [Format.slot, ← agree _ last, index]
    have inside := (List.getElem?_eq_some_iff.mp met).1
    have long : ((F.path mem c levels root).take (k + 1)).length = k + 1 := by
      rw [List.length_take]
      omega
    obtain ⟨small, here⟩ := List.getElem?_eq_some_iff.mp level
    rw [path_split met, entry, leads, Format.behind, List.drop_eq_getElem_cons small, here, path_cons,
      List.getElem?_append_right (by omega), long, Nat.sub_self, List.getElem?_cons_zero]

/-- The tables of a tree lie in its addresses. -/
theorem Tree.reaches_inside (tree : Tree F levels root own keys mem) (full : F.Full levels keys) (keyA : keys a)
    (reached : F.Reaches mem levels.length root k table) (positive : 0 < levels.length) (small : i < F.fanout) :
    own (table + F.width * i) := by
  have inside := reached.lt positive
  have level : levels[k]? = some levels[k] := List.getElem?_eq_getElem inside
  obtain ⟨b, keyB, visited⟩ := reaches_visited full keyA reached level
  obtain ⟨c, keyC, same, index⟩ := full b keyB k _ level i small
  have met := visited c same
  rw [Format.slot, index] at met
  exact tree.inside c keyC _ (List.mem_of_getElem? met)

end Tables

end RockOs.RadixTable
