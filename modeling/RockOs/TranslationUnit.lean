import Mathlib.Data.Set.Insert
import Mathlib.Logic.Function.Conjugate
import Mathlib.Logic.Relation
import RockOs.Aarch64

/-! The translation hardware of one exception level beside the program that
controls it. A register write takes effect at some time before the next `isb`, an
invalidation of the TLB before the next `dsb`. Walks of the tables see a store at
some time before the next `dsb`, and not on all hardware in program order. While
translation is on, the hardware caches what it finds in the tables whenever it
likes. -/
namespace RockOs.TranslationUnit
open Aarch64

/-- The hardware of a level: what a walk finds in tables at an address of the
memory it sees, and whether walks see stores in program order. -/
structure Hardware (M E : Type) where
  el : El
  find : M → Word → Set E
  inOrder : Bool

/-! ## Stores that walks may not see yet -/

/-- Memory as walks see it, and the stores that they do not see yet. -/
structure Memory (M : Type) where
  seen : M
  unseen : List (M → M)

variable {M E : Type} {m n : Memory M} {inOrder : Bool} {P Q : M → Prop} {last mem : M} {store : M → M}
  {stores rest : List (M → M)}

/-- Memory once all stores are seen. -/
def Memory.whole (m : Memory M) : M := m.unseen.foldl (fun mem store => store mem) m.seen

def Memory.push (m : Memory M) (stores : List (M → M)) : Memory M := { m with unseen := m.unseen ++ stores }

/-- One more store is seen. Stores to the same place are seen in program order by
all hardware: what overtakes others commutes with them. -/
inductive Sees (inOrder : Bool) : Memory M → Memory M → Prop
  | store (mem : M) (before after : List (M → M)) (store : M → M) (first : inOrder = true → before = [])
    (overtakes : ∀ earlier ∈ before, Function.Commute earlier store) :
    Sees inOrder ⟨mem, before ++ store :: after⟩ ⟨store mem, before ++ after⟩

/-- `P` holds of all that walks may see before a barrier, and memory will be `last`. -/
structure Pending (inOrder : Bool) (P : M → Prop) (last : M) (m : Memory M) : Prop where
  shows : ∀ n, Relation.ReflTransGen (Sees inOrder) m n → P n.seen
  ends : m.whole = last

private theorem push_nil (m : Memory M) : m.push [] = m := by
  rw [Memory.push, List.append_nil]

private theorem push_cons (m : Memory M) : (m.push [store]).push rest = m.push (store :: rest) := by
  rw [Memory.push, Memory.push, Memory.push, List.append_assoc, List.singleton_append]

private theorem foldl_overtakes {before : List (M → M)}
    (overtakes : ∀ earlier ∈ before, Function.Commute earlier store) :
    before.foldl (fun mem store => store mem) (store mem) = store (before.foldl (fun mem store => store mem) mem) := by
  induction before generalizing mem with
  | nil => rfl
  | cons first before ih =>
    rw [List.forall_mem_cons] at overtakes
    rw [List.foldl_cons, overtakes.1 mem, ih overtakes.2, List.foldl_cons]

theorem Sees.whole (sees : Sees inOrder m n) : n.whole = m.whole := by
  obtain ⟨mem, before, after, store, _, overtakes⟩ := sees
  rw [Memory.whole, Memory.whole, List.foldl_append, List.foldl_append, List.foldl_cons, foldl_overtakes overtakes]

theorem Sees.push (sees : Sees inOrder m n) (stores : List (M → M)) : Sees inOrder (m.push stores) (n.push stores) := by
  obtain ⟨mem, before, after, store, first, overtakes⟩ := sees
  have more := Sees.store mem before (after ++ stores) store first overtakes
  rw [← List.cons_append, ← List.append_assoc, ← List.append_assoc] at more
  exact more

private theorem not_sees_nil : ¬ Sees inOrder ⟨mem, []⟩ n := by
  intro sees
  generalize start : (⟨mem, []⟩ : Memory M) = m at sees
  obtain ⟨_, before, after, store, _, _⟩ := sees
  simp at start

/-- All hardware may see the stores one after the other. -/
theorem sees_whole (m : Memory M) : Relation.ReflTransGen (Sees inOrder) m ⟨m.whole, []⟩ := by
  obtain ⟨mem, stores⟩ := m
  induction stores generalizing mem with
  | nil => exact .refl
  | cons store stores ih =>
    exact .head (.store mem [] stores store (fun _ => rfl) (fun _ member => by cases member)) (ih (store mem))

theorem Pending.here (pending : Pending inOrder P last m) : P m.seen := pending.shows m .refl

theorem Pending.final (pending : Pending inOrder P last m) : P last := by
  have seen := pending.shows _ (sees_whole m)
  rwa [pending.ends] at seen

theorem Pending.sees (pending : Pending inOrder P last m) (sees : Sees inOrder m n) : Pending inOrder P last n :=
  ⟨fun later reached => pending.shows later (.head sees reached), by rw [sees.whole, pending.ends]⟩

theorem Pending.mono (pending : Pending inOrder P last m) (weaker : ∀ mem, P mem → Q mem) : Pending inOrder Q last m :=
  ⟨fun n reached => weaker _ (pending.shows n reached), pending.ends⟩

/-- What every store keeps is kept in any order. -/
theorem pending_of_keeps (here : P m.seen) (keeps : ∀ store ∈ m.unseen, ∀ mem, P mem → P (store mem)) :
    Pending inOrder P m.whole m := by
  refine ⟨fun n reached => ?_, rfl⟩
  have both : P n.seen ∧ ∀ store ∈ n.unseen, ∀ mem, P mem → P (store mem) := by
    induction reached with
    | refl => exact ⟨here, keeps⟩
    | tail _ sees ih =>
      obtain ⟨mem, before, after, store, _, _⟩ := sees
      refine ⟨ih.2 store (by simp) mem ih.1, fun other member => ih.2 other ?_⟩
      rw [List.mem_append, List.mem_cons]
      exact (List.mem_append.mp member).imp_right .inr
  exact both.1

/-- Seen in order, stores show what is there between them. -/
theorem pending_cons (here : P mem) (next : Pending true P last ⟨store mem, rest⟩) :
    Pending true P last ⟨mem, store :: rest⟩ := by
  refine ⟨fun n reached => ?_, next.ends⟩
  rcases reached.cases_head with rfl | ⟨after, sees, reached⟩
  · exact here
  · generalize start : (⟨mem, store :: rest⟩ : Memory M) = m at sees
    obtain ⟨_, before, _, _, first, _⟩ := sees
    rw [first rfl, List.nil_append, Memory.mk.injEq, List.cons.injEq] at start
    obtain ⟨rfl, rfl, rfl⟩ := start
    rw [first rfl, List.nil_append] at reached
    exact next.shows n reached

theorem pending_nil (here : P mem) : Pending inOrder P mem ⟨mem, []⟩ :=
  pending_of_keeps (m := ⟨mem, []⟩) here (fun _ member => absurd member List.not_mem_nil)

/-! ## The hardware and the program -/

structure Walker (M E : Type) where
  /-- Whether addresses are translated, and where the tables are. -/
  on : Bool
  table : Word
  /-- Register writes that may still have to take effect. -/
  late : List (SysReg × Word)
  memory : Memory M
  tlb : Set E
  /-- Entries that are to be gone at the next `dsb`. -/
  doomed : Set E

variable {w v : Walker M E} {hw : Hardware M E} {el : El}

/-- Whether translation is on behind a register write. -/
def newOn (el : El) (on : Bool) : SysReg × Word → Bool
  | (.sctlr level, value) => if level = el then value.getLsbD 0 else on
  | _ => on

def newTable (el : El) (table : Word) : SysReg × Word → Word
  | (.ttbr0 level, value) => if level = el then value else table
  | _ => table

def Walker.write (el : El) (w : Walker M E) (write : SysReg × Word) : Walker M E :=
  { w with on := newOn el w.on write, table := newTable el w.table write }

/-- The level whose entries an invalidation drops. -/
def tlbiLevel : TlbiOp → El
  | .alle3 => 3
  | .alle2 => 2
  | .vmalle1 => 1

/-- What an instruction does to the hardware at once. -/
def Walker.event (el : El) (w : Walker M E) : Event → Walker M E
  | .msr r value => { w with late := w.late ++ [(r, value)] }
  | .isb => { w.late.foldl (Walker.write el) w with late := [] }
  | .tlbi op => if tlbiLevel op = el then { w with doomed := w.tlb } else w
  | .dsb => { w with memory := ⟨w.memory.whole, []⟩, tlb := w.tlb \ w.doomed, doomed := ∅ }
  | _ => w

/-- A step of the program: an instruction of its own kind, or a store to the tables. -/
inductive Action (M : Type) where
  | event (event : Event)
  | store (store : M → M)

def Walker.act (el : El) (w : Walker M E) : Action M → Walker M E
  | .event event => w.event el event
  | .store store => { w with memory := w.memory.push [store] }

/-- What walks of the tables in use find now. -/
def Walker.found (hw : Hardware M E) (w : Walker M E) : Set E := hw.find w.memory.seen w.table

/-- What the hardware does on its own. -/
inductive Moves (hw : Hardware M E) : Walker M E → Walker M E → Prop
  | fill (w : Walker M E) (e : E) (on : w.on = true) (found : e ∈ w.found hw) :
    Moves hw w { w with tlb := insert e w.tlb, doomed := w.doomed \ {e} }
  | evict (w : Walker M E) (e : E) : Moves hw w { w with tlb := w.tlb \ {e} }
  | settle (w : Walker M E) (write : SysReg × Word) (written : write ∈ w.late) :
    Moves hw w { w.write hw.el write with late := w.late.erase write }
  | see (w : Walker M E) (m : Memory M) (sees : Sees hw.inOrder w.memory m) : Moves hw w { w with memory := m }

def Drifts (hw : Hardware M E) : Walker M E → Walker M E → Prop := Relation.ReflTransGen (Moves hw)

/-- The hardware may cache what it can find. -/
theorem drifts_fill (hw : Hardware M E) (on : w.on = true) (found : e ∈ w.found hw) :
    ∃ v, Drifts hw w v ∧ v.on = w.on ∧ v.table = w.table ∧ v.memory = w.memory ∧ v.tlb = insert e w.tlb :=
  ⟨_, .single (.fill w e on found), rfl, rfl, rfl, rfl⟩

private theorem drifts_sees (w : Walker M E) (reached : Relation.ReflTransGen (Sees hw.inOrder) w.memory m) :
    Drifts hw w { w with memory := m } := by
  induction reached with
  | refl => exact .refl
  | tail _ sees ih => exact .tail ih (.see _ _ sees)

/-- It may see all stores. -/
theorem drifts_whole (hw : Hardware M E) (w : Walker M E) : Drifts hw w { w with memory := ⟨w.memory.whole, []⟩ } :=
  drifts_sees w (sees_whole w.memory)

/-- Whatever the hardware does before, between and after the actions, `P` holds
at all times, and `Q` at the end. -/
def Guarded (hw : Hardware M E) (P Q : Walker M E → Prop) : List (Action M) → Walker M E → Prop
  | [], w => ∀ v, Drifts hw w v → P v ∧ Q v
  | action :: actions, w => ∀ v, Drifts hw w v → P v ∧ Guarded hw P Q actions (v.act hw.el action)

/-- The hardware keeps `I`. -/
def Stable (hw : Hardware M E) (I : Walker M E → Prop) : Prop := ∀ w v, I w → Moves hw w v → I v

section Rules
variable {I P Q : Walker M E → Prop} {actions : List (Action M)} {action : Action M}

private theorem Stable.drifts (stable : Stable hw I) (holds : I w) (drifts : Drifts hw w v) : I v := by
  induction drifts with
  | refl => exact holds
  | tail _ moves ih => exact stable _ _ ih moves

/-- The rule for an action: it is enough to have a stable property in front of it. -/
theorem Guarded.cons (stable : Stable hw I) (holds : I w) (safe : ∀ v, I v → P v)
    (next : ∀ v, I v → Guarded hw P Q actions (v.act hw.el action)) : Guarded hw P Q (action :: actions) w :=
  fun v drifts => ⟨safe v (stable.drifts holds drifts), next v (stable.drifts holds drifts)⟩

theorem Guarded.nil (stable : Stable hw I) (holds : I w) (safe : ∀ v, I v → P v) (ends : ∀ v, I v → Q v) :
    Guarded hw P Q [] w :=
  fun v drifts => ⟨safe v (stable.drifts holds drifts), ends v (stable.drifts holds drifts)⟩

/-- One program behind another. -/
theorem Guarded.append {R : Walker M E → Prop} {more : List (Action M)} (first : Guarded hw P Q actions w)
    (second : ∀ v, Q v → Guarded hw P R more v) : Guarded hw P R (actions ++ more) w := by
  induction actions generalizing w with
  | nil =>
    have here := second w (first w .refl).2
    cases more with
    | nil => exact here
    | cons action more => exact here
  | cons action actions ih => exact fun v drifts => ⟨(first v drifts).1, ih (first v drifts).2⟩

theorem Guarded.mono {P' Q' : Walker M E → Prop} (guarded : Guarded hw P Q actions w) (safe : ∀ v, P v → P' v)
    (ends : ∀ v, Q v → Q' v) : Guarded hw P' Q' actions w := by
  induction actions generalizing w with
  | nil => exact fun v drifts => ⟨safe v (guarded v drifts).1, ends v (guarded v drifts).2⟩
  | cons action actions ih => exact fun v drifts => ⟨safe v (guarded v drifts).1, ih (guarded v drifts).2⟩

/-- Actions that keep what the hardware keeps. -/
theorem Guarded.keeps (stable : Stable hw I) (safe : ∀ v, I v → P v)
    (keeps : ∀ action ∈ actions, ∀ v, I v → I (v.act hw.el action)) (holds : I w) : Guarded hw P I actions w := by
  induction actions generalizing w with
  | nil => exact .nil stable holds safe (fun v holds => holds)
  | cons action actions ih =>
    rw [List.forall_mem_cons] at keeps
    exact .cons stable holds safe (fun v holds => ih keeps.2 (keeps.1 v holds))

/-- The rule for stores: a stable property of the stores that are still to come. -/
theorem Guarded.storing {I : List (M → M) → Walker M E → Prop} (stable : ∀ rest, Stable hw (I rest))
    (safe : ∀ rest v, I rest v → P v)
    (next : ∀ store rest v, I (store :: rest) v → I rest (v.act hw.el (.store store))) (holds : I stores w) :
    Guarded hw P (I []) (stores.map .store) w := by
  induction stores generalizing w with
  | nil => exact .nil (stable []) holds (safe []) (fun v holds => holds)
  | cons store stores ih => exact .cons (stable _) holds (safe _) (fun v holds => ih (next store stores v holds))

/-- A state that the hardware can be in before, between or after the actions. -/
inductive Comes (hw : Hardware M E) : List (Action M) → Walker M E → Walker M E → Prop
  | here {actions : List (Action M)} {w v : Walker M E} (drifts : Drifts hw w v) : Comes hw actions w v
  | later {action : Action M} {actions : List (Action M)} {w v u : Walker M E} (drifts : Drifts hw w v)
    (comes : Comes hw actions (v.act hw.el action) u) : Comes hw (action :: actions) w u

theorem Comes.drift {u : Walker M E} (comes : Comes hw actions v u) (drifts : Drifts hw w v) : Comes hw actions w u := by
  cases comes with
  | here more => exact .here (drifts.trans more)
  | later more comes => exact .later (drifts.trans more) comes

/-- The hardware may do nothing for a while. -/
theorem Comes.skip {more : List (Action M)} (comes : Comes hw more (actions.foldl (Walker.act hw.el) w) v) :
    Comes hw (actions ++ more) w v := by
  induction actions generalizing w with
  | nil => exact comes
  | cons action actions ih => exact .later .refl (ih comes)

end Rules

/-- Before walks see any of them, stores only wait. -/
theorem foldl_store (el : El) (stores : List (M → M)) (w : Walker M E) :
    (stores.map .store).foldl (Walker.act el) w = { w with memory := w.memory.push stores } := by
  induction stores generalizing w with
  | nil => rw [List.map_nil, List.foldl_nil, push_nil]
  | cons store stores ih => rw [List.map_cons, List.foldl_cons, ih, Walker.act, push_cons]

/-- All that is cached is in the tables in use. -/
def Walker.Coherent (hw : Hardware M E) (w : Walker M E) : Prop := w.on = true → w.tlb ⊆ w.found hw

/-- On the way from tables with `found` in them to others the hardware walks the
ones or the others, and all that is cached belongs to these. -/
structure Apart (hw : Hardware M E) (found other : Set E) (w : Walker M E) : Prop where
  coherent : w.Coherent hw
  walked : w.on = true → w.found hw = found ∨ w.found hw = other

/-! ## Properties that the hardware keeps -/

/-- At most one write is on its way, and otherwise it has arrived. -/
structure Awaits (el : El) (write : SysReg × Word) (w : Walker M E) : Prop where
  only : ∀ other ∈ w.late, other = write
  arrived : w.late = [] → newOn el w.on write = w.on ∧ newTable el w.table write = w.table

/-- No write is on its way, and no store. -/
structure Quiet (hw : Hardware M E) (table : Word) (mem : M) (w : Walker M E) : Prop where
  late : w.late = []
  based : w.table = table
  memory : w.memory = ⟨mem, []⟩
  coherent : w.Coherent hw

/-- Walks of the tables in use find the same whatever stores they see. -/
structure Resting (hw : Hardware M E) (table : Word) (found : Set E) (last : M) (rest : List (M → M)) (w : Walker M E) :
    Prop where
  late : w.late = []
  based : w.table = table
  pending : Pending hw.inOrder (fun mem => hw.find mem table = found) last (w.memory.push rest)
  cached : w.on = true → w.tlb ⊆ found

/-- Translation by the tables in use is off or about to be. -/
structure Leaving (hw : Hardware M E) (off table : Word) (found : Set E) (last : M) (w : Walker M E) : Prop
    extends Awaits hw.el (.sctlr hw.el, off) w where
  based : w.table = table
  pending : Pending hw.inOrder (fun mem => hw.find mem table = found) last w.memory
  cached : w.on = true → w.tlb ⊆ found

/-- Translation is off. -/
structure Off (last : M) (w : Walker M E) : Prop where
  late : w.late = []
  off : w.on = false
  ends : w.memory.whole = last

/-- All that is cached is to be gone. -/
structure Emptying (last : M) (w : Walker M E) : Prop extends Off last w where
  doomed : w.tlb ⊆ w.doomed

/-- Translation is off, and nothing is cached. -/
structure Clean (mem : M) (w : Walker M E) : Prop where
  late : w.late = []
  off : w.on = false
  memory : w.memory = ⟨mem, []⟩
  empty : w.tlb = ∅

/-- The tables that are to be used are those at `table`. -/
structure Ready (table : Word) (mem : M) (w : Walker M E) : Prop extends Clean mem w where
  based : w.table = table

/-- Nothing is cached, and other tables are about to be used. -/
structure Empty (el : El) (table : Word) (mem : M) (w : Walker M E) : Prop extends Awaits el (.ttbr0 el, table) w where
  off : w.on = false
  memory : w.memory = ⟨mem, []⟩
  empty : w.tlb = ∅

/-- Only one set of tables is cached; translation is about to be as `control` says. -/
structure Using (hw : Hardware M E) (control table : Word) (mem : M) (w : Walker M E) : Prop
    extends Awaits hw.el (.sctlr hw.el, control) w where
  based : w.table = table
  memory : w.memory = ⟨mem, []⟩
  cached : w.tlb ⊆ hw.find mem table

/-- No write is on its way and no store, and only one set of tables is cached. -/
structure Steady (hw : Hardware M E) (on : Bool) (table : Word) (mem : M) (w : Walker M E) : Prop where
  late : w.late = []
  on : w.on = on
  based : w.table = table
  memory : w.memory = ⟨mem, []⟩
  cached : w.tlb ⊆ hw.find mem table

section Stable
variable {table control off : Word} {found : Set E} {write : SysReg × Word}

private theorem newOn_twice (on : Bool) (write : SysReg × Word) :
    newOn el (newOn el on write) write = newOn el on write := by
  unfold newOn
  split <;> simp_all

private theorem newTable_twice (table : Word) (write : SysReg × Word) :
    newTable el (newTable el table write) write = newTable el table write := by
  unfold newTable
  split <;> simp_all

theorem Awaits.moves (awaits : Awaits hw.el write w) (moves : Moves hw w v) : Awaits hw.el write v := by
  cases moves with
  | settle other written =>
    obtain rfl := awaits.only other written
    exact ⟨fun another member => awaits.only another (List.mem_of_mem_erase member),
      fun _ => ⟨newOn_twice _ _, newTable_twice _ _⟩⟩
  | _ => exact ⟨awaits.only, awaits.arrived⟩

private theorem write_fixed {late : List (SysReg × Word)} (fixed : w.write el write = w)
    (only : ∀ other ∈ late, other = write) :
    late.foldl (Walker.write el) w = w := by
  induction late with
  | nil => rfl
  | cons first rest ih =>
    rw [List.foldl_cons, only first List.mem_cons_self, fixed]
    exact ih (fun other member => only other (List.mem_cons_of_mem _ member))

/-- A barrier makes the write arrive. -/
theorem Awaits.isb (awaits : Awaits el write w) : w.event el .isb = { w.write el write with late := [] } := by
  obtain ⟨only, arrived⟩ := awaits
  have all : w.late.foldl (Walker.write el) w = w.write el write := by
    cases pending : w.late with
    | nil =>
      obtain ⟨on, table⟩ := arrived pending
      rw [List.foldl_nil, Walker.write, on, table]
    | cons first rest =>
      rw [pending] at only
      rw [List.foldl_cons, only first List.mem_cons_self]
      refine write_fixed ?_ (fun other member => only other (List.mem_cons_of_mem _ member))
      rw [Walker.write, Walker.write, newOn_twice, newTable_twice]
  rw [Walker.event, all]

/-- A register write behind a quiet time. -/
theorem awaits_msr (late : w.late = []) (r : SysReg) (value : Word) :
    Awaits el (r, value) (w.event el (.msr r value)) where
  only other member := by
    change other ∈ w.late ++ [(r, value)] at member
    rw [late] at member
    exact List.mem_singleton.mp member
  arrived none := by
    change w.late ++ [(r, value)] = [] at none
    exact absurd none (by simp)

private theorem not_sees_drained (memory : w.memory = ⟨mem, []⟩) : ¬ Sees inOrder w.memory m := by
  rw [memory]
  exact not_sees_nil

private theorem not_late (late : w.late = []) : write ∉ w.late := by
  rw [late]
  exact List.not_mem_nil

theorem resting_stable (rest : List (M → M)) : Stable hw (Resting hw table found last rest) := by
  intro w v resting moves
  obtain ⟨late, based, pending, cached⟩ := resting
  cases moves with
  | fill e on here =>
    refine ⟨late, based, pending, fun _ => Set.insert_subset ?_ (cached on)⟩
    rw [Walker.found, based] at here
    rwa [← pending.here]
  | evict e => exact ⟨late, based, pending, fun on => Set.sdiff_subset.trans (cached on)⟩
  | settle write written => exact absurd written (not_late late)
  | see m sees => exact ⟨late, based, pending.sees (sees.push rest), cached⟩

theorem leaving_stable (isOff : off.getLsbD 0 = false) : Stable hw (Leaving hw off table found last) := by
  intro w v leaving moves
  have awaits := leaving.toAwaits.moves moves
  obtain ⟨⟨only, _⟩, based, pending, cached⟩ := leaving
  cases moves with
  | fill e on here =>
    refine ⟨awaits, based, pending, fun _ => Set.insert_subset ?_ (cached on)⟩
    rw [Walker.found, based] at here
    rwa [← pending.here]
  | evict e => exact ⟨awaits, based, pending, fun on => Set.sdiff_subset.trans (cached on)⟩
  | settle write written =>
    obtain rfl := only write written
    have now : newOn hw.el w.on (.sctlr hw.el, off) = false := (if_pos rfl).trans isOff
    exact ⟨awaits, based, pending, fun on => absurd (now.symm.trans on) Bool.false_ne_true⟩
  | see m sees => exact ⟨awaits, based, pending.sees sees, cached⟩

theorem off_stable : Stable hw (Off last) := by
  intro w v isOff moves
  obtain ⟨late, off, ends⟩ := isOff
  cases moves with
  | fill e on here => exact absurd (off.symm.trans on) Bool.false_ne_true
  | evict e => exact ⟨late, off, ends⟩
  | settle write written => exact absurd written (not_late late)
  | see m sees => exact ⟨late, off, sees.whole.trans ends⟩

theorem emptying_stable : Stable hw (Emptying last) := by
  intro w v emptying moves
  have off := off_stable w v emptying.toOff moves
  obtain ⟨⟨late, isOff, _⟩, doomed⟩ := emptying
  cases moves with
  | fill e on here => exact absurd (isOff.symm.trans on) Bool.false_ne_true
  | evict e => exact ⟨off, Set.sdiff_subset.trans doomed⟩
  | settle write written => exact absurd written (not_late late)
  | see m sees => exact ⟨off, doomed⟩

theorem clean_stable : Stable hw (Clean mem) := by
  intro w v clean moves
  obtain ⟨late, off, memory, empty⟩ := clean
  cases moves with
  | fill e on here => exact absurd (off.symm.trans on) Bool.false_ne_true
  | evict e => exact ⟨late, off, memory, by rw [empty]; exact Set.empty_sdiff _⟩
  | settle write written => exact absurd written (not_late late)
  | see m sees => exact absurd sees (not_sees_drained memory)

theorem ready_stable : Stable hw (Ready table mem) := by
  intro w v ready moves
  have clean := clean_stable w v ready.toClean moves
  cases moves with
  | settle write written => exact absurd written (not_late ready.late)
  | _ => exact ⟨clean, ready.based⟩

theorem empty_stable : Stable hw (Empty hw.el table mem) := by
  intro w v empty moves
  have awaits := empty.toAwaits.moves moves
  obtain ⟨⟨only, _⟩, isOff, memory, none⟩ := empty
  cases moves with
  | fill e on here => exact absurd (isOff.symm.trans on) Bool.false_ne_true
  | evict e => exact ⟨awaits, isOff, memory, by rw [none]; exact Set.empty_sdiff _⟩
  | settle write written =>
    obtain rfl := only write written
    exact ⟨awaits, isOff, memory, none⟩
  | see m sees => exact absurd sees (not_sees_drained memory)

theorem using_stable : Stable hw (Using hw control table mem) := by
  intro w v used moves
  have awaits := used.toAwaits.moves moves
  obtain ⟨⟨only, _⟩, based, memory, cached⟩ := used
  cases moves with
  | fill e on here =>
    rw [Walker.found, based, memory] at here
    exact ⟨awaits, based, memory, Set.insert_subset here cached⟩
  | evict e => exact ⟨awaits, based, memory, Set.sdiff_subset.trans cached⟩
  | settle write written =>
    obtain rfl := only write written
    exact ⟨awaits, based, memory, cached⟩
  | see m sees => exact absurd sees (not_sees_drained memory)

theorem steady_stable {on : Bool} : Stable hw (Steady hw on table mem) := by
  intro w v steady moves
  obtain ⟨late, isOn, based, memory, cached⟩ := steady
  cases moves with
  | fill e on here =>
    rw [Walker.found, based, memory] at here
    exact ⟨late, isOn, based, memory, Set.insert_subset here cached⟩
  | evict e => exact ⟨late, isOn, based, memory, Set.sdiff_subset.trans cached⟩
  | settle write written => exact absurd written (not_late late)
  | see m sees => exact absurd sees (not_sees_drained memory)

theorem apart_off {other : Set E} (off : w.on = false) : Apart hw found other w :=
  ⟨fun on => absurd (off.symm.trans on) Bool.false_ne_true, fun on => absurd (off.symm.trans on) Bool.false_ne_true⟩

theorem Resting.found_eq (resting : Resting hw table found last rest w) : w.found hw = found := by
  rw [Walker.found, resting.based]
  exact resting.pending.here

theorem Resting.coherent (resting : Resting hw table found last rest w) : w.Coherent hw := fun on => by
  rw [resting.found_eq]
  exact resting.cached on

theorem Resting.apart {other : Set E} (resting : Resting hw table found last rest w) : Apart hw found other w :=
  ⟨resting.coherent, fun _ => .inl resting.found_eq⟩

theorem Leaving.apart {other : Set E} (leaving : Leaving hw off table found last w) : Apart hw found other w := by
  have finds : w.found hw = found := by
    rw [Walker.found, leaving.based]
    exact leaving.pending.here
  refine ⟨fun on => ?_, fun _ => .inl finds⟩
  rw [finds]
  exact leaving.cached on

theorem Using.apart (used : Using hw control table mem w) : Apart hw found (hw.find mem table) w := by
  have finds : w.found hw = hw.find mem table := by rw [Walker.found, used.based, used.memory]
  refine ⟨fun _ => ?_, fun _ => .inr finds⟩
  rw [finds]
  exact used.cached

theorem Steady.found_eq {on : Bool} (steady : Steady hw on table mem w) : w.found hw = hw.find mem table := by
  rw [Walker.found, steady.based, steady.memory]

theorem Steady.coherent {on : Bool} (steady : Steady hw on table mem w) : w.Coherent hw := fun _ => by
  rw [steady.found_eq]
  exact steady.cached

theorem Steady.apart {on : Bool} (steady : Steady hw on table mem w) : Apart hw found (hw.find mem table) w :=
  ⟨steady.coherent, fun _ => .inr steady.found_eq⟩

/-! ## From one to the next -/

theorem Quiet.resting (quiet : Quiet hw table mem w)
    (pending : Pending hw.inOrder (fun mem => hw.find mem table = found) last ⟨mem, rest⟩) :
    Resting hw table found last rest w := by
  obtain ⟨late, based, memory, coherent⟩ := quiet
  refine ⟨late, based, ?_, fun on => ?_⟩
  · rw [memory]
    exact pending
  · have cached := coherent on
    rw [Walker.found, based, memory] at cached
    rwa [← pending.here]

theorem Steady.quiet {on : Bool} (steady : Steady hw on table mem w) : Quiet hw table mem w :=
  ⟨steady.late, steady.based, steady.memory, steady.coherent⟩

theorem Resting.act_store (resting : Resting hw table found last (store :: rest) w) :
    Resting hw table found last rest (w.act hw.el (.store store)) := by
  refine ⟨resting.late, resting.based, ?_, resting.cached⟩
  rw [Walker.act, push_cons]
  exact resting.pending

theorem Resting.msr_sctlr (resting : Resting hw table found last [] w) (off : Word) :
    Leaving hw off table found last (w.event hw.el (.msr (.sctlr hw.el) off)) := by
  have pending := resting.pending
  rw [push_nil] at pending
  exact ⟨awaits_msr resting.late .., resting.based, pending, resting.cached⟩

theorem Leaving.isb (leaving : Leaving hw off table found last w) (isOff : off.getLsbD 0 = false) :
    Off last (w.event hw.el .isb) := by
  rw [leaving.toAwaits.isb]
  exact ⟨rfl, (if_pos rfl).trans isOff, leaving.pending.ends⟩

theorem Off.tlbi (isOff : Off last w) (op : TlbiOp) (level : tlbiLevel op = el) :
    Emptying last (w.event el (.tlbi op)) := by
  rw [Walker.event, if_pos level]
  exact ⟨⟨isOff.late, isOff.off, isOff.ends⟩, subset_rfl⟩

theorem Emptying.dsb (el : El) (emptying : Emptying last w) : Clean last (w.event el .dsb) := by
  refine ⟨emptying.late, emptying.off, ?_, Set.sdiff_eq_empty.mpr emptying.doomed⟩
  rw [Walker.event, emptying.ends]

theorem Clean.isb (el : El) (clean : Clean mem w) : Clean mem (w.event el .isb) := by
  rw [Walker.event, clean.late]
  exact ⟨rfl, clean.off, clean.memory, clean.empty⟩

theorem Clean.msr_ttbr0 (clean : Clean mem w) (new : Word) : Empty el new mem (w.event el (.msr (.ttbr0 el) new)) :=
  ⟨awaits_msr clean.late .., clean.off, clean.memory, clean.empty⟩

theorem Empty.isb (empty : Empty el table mem w) : Ready table mem (w.event el .isb) := by
  rw [empty.toAwaits.isb]
  exact ⟨⟨rfl, empty.off, empty.memory, empty.empty⟩, if_pos rfl⟩

theorem Ready.msr_sctlr (ready : Ready table mem w) (control : Word) :
    Using hw control table mem (w.event hw.el (.msr (.sctlr hw.el) control)) :=
  ⟨awaits_msr ready.late .., ready.based, ready.memory, ready.empty.subset.trans (Set.empty_subset _)⟩

theorem Using.isb (used : Using hw control table mem w) :
    Steady hw (control.getLsbD 0) table mem (w.event hw.el .isb) := by
  rw [used.toAwaits.isb]
  exact ⟨rfl, if_pos rfl, used.based, used.memory, used.cached⟩

theorem Steady.isb {on : Bool} (el : El) (steady : Steady hw on table mem w) :
    Steady hw on table mem (w.event el .isb) := by
  rw [Walker.event, steady.late]
  exact ⟨rfl, steady.on, steady.based, steady.memory, steady.cached⟩

private theorem dsb_drained (memory : w.memory = ⟨mem, []⟩) : (w.event el .dsb).memory = ⟨mem, []⟩ := by
  rw [Walker.event, memory]
  rfl

theorem Steady.dsb {on : Bool} (el : El) (steady : Steady hw on table mem w) :
    Steady hw on table mem (w.event el .dsb) :=
  ⟨steady.late, steady.on, steady.based, dsb_drained steady.memory, Set.sdiff_subset.trans steady.cached⟩

/-! ## Tables that change while they are walked -/

/-- Tables are walked, and all that is cached or can be is in `bound`. -/
structure Walks (hw : Hardware M E) (on : Bool) (table : Word) (bound : Set E) (last : M) (rest : List (M → M))
    (w : Walker M E) :
    Prop where
  late : w.late = []
  on : w.on = on
  based : w.table = table
  pending : Pending hw.inOrder (fun mem => hw.find mem table ⊆ bound) last (w.memory.push rest)
  cached : w.tlb ⊆ bound

/-- All stores are seen. -/
structure Drained (hw : Hardware M E) (on : Bool) (table : Word) (bound : Set E) (mem : M) (w : Walker M E) : Prop where
  late : w.late = []
  on : w.on = on
  based : w.table = table
  memory : w.memory = ⟨mem, []⟩
  small : hw.find mem table ⊆ bound
  cached : w.tlb ⊆ bound

/-- What the tables do not hold is to be gone. -/
structure Draining (hw : Hardware M E) (on : Bool) (table : Word) (bound : Set E) (mem : M) (w : Walker M E) : Prop
    extends Drained hw on table bound mem w where
  left : w.tlb \ w.doomed ⊆ hw.find mem table

variable {on : Bool} {bound : Set E}

theorem walks_stable (rest : List (M → M)) : Stable hw (Walks hw on table bound last rest) := by
  intro w v walks moves
  obtain ⟨late, isOn, based, pending, cached⟩ := walks
  cases moves with
  | fill e on here =>
    rw [Walker.found, based] at here
    exact ⟨late, isOn, based, pending, Set.insert_subset (pending.here here) cached⟩
  | evict e => exact ⟨late, isOn, based, pending, Set.sdiff_subset.trans cached⟩
  | settle write written => exact absurd written (not_late late)
  | see m sees => exact ⟨late, isOn, based, pending.sees (sees.push rest), cached⟩

theorem drained_stable : Stable hw (Drained hw on table bound mem) := by
  intro w v drained moves
  obtain ⟨late, isOn, based, memory, small, cached⟩ := drained
  cases moves with
  | fill e on here =>
    rw [Walker.found, based, memory] at here
    exact ⟨late, isOn, based, memory, small, Set.insert_subset (small here) cached⟩
  | evict e => exact ⟨late, isOn, based, memory, small, Set.sdiff_subset.trans cached⟩
  | settle write written => exact absurd written (not_late late)
  | see m sees => exact absurd sees (not_sees_drained memory)

private theorem draining_stable : Stable hw (Draining hw on table bound mem) := by
  intro w v draining moves
  have drained := drained_stable w v draining.toDrained moves
  obtain ⟨⟨late, _, based, memory, _, _⟩, left⟩ := draining
  cases moves with
  | fill e on here =>
    rw [Walker.found, based, memory] at here
    refine ⟨drained, fun other member => ?_⟩
    by_cases same : other = e
    · rwa [same]
    · exact left ⟨member.1.resolve_left same, fun gone => member.2 ⟨gone, same⟩⟩
  | evict e => exact ⟨drained, fun other member => left ⟨member.1.1, member.2⟩⟩
  | settle write written => exact absurd written (not_late late)
  | see m sees => exact absurd sees (not_sees_drained memory)

theorem Steady.walks (steady : Steady hw on table mem w)
    (pending : Pending hw.inOrder (fun mem => hw.find mem table ⊆ bound) last ⟨mem, rest⟩) :
    Walks hw on table bound last rest w := by
  refine ⟨steady.late, steady.on, steady.based, ?_, steady.cached.trans pending.here⟩
  rw [steady.memory]
  exact pending

theorem Walks.act_store (walks : Walks hw on table bound last (store :: rest) w) :
    Walks hw on table bound last rest (w.act hw.el (.store store)) := by
  refine ⟨walks.late, walks.on, walks.based, ?_, walks.cached⟩
  rw [Walker.act, push_cons]
  exact walks.pending

/-- A barrier makes all stores seen. -/
theorem Walks.dsb (el : El) (walks : Walks hw on table bound last [] w) :
    Drained hw on table bound last (w.event el .dsb) := by
  have pending := walks.pending
  rw [push_nil] at pending
  refine ⟨walks.late, walks.on, walks.based, ?_, pending.final, Set.sdiff_subset.trans walks.cached⟩
  rw [Walker.event, pending.ends]

theorem Drained.tlbi (drained : Drained hw on table bound mem w) (op : TlbiOp) (level : tlbiLevel op = el) :
    Draining hw on table bound mem (w.event el (.tlbi op)) := by
  rw [Walker.event, if_pos level]
  exact ⟨⟨drained.late, drained.on, drained.based, drained.memory, drained.small, drained.cached⟩,
    fun e member => absurd member.1 member.2⟩

theorem Draining.dsb (el : El) (draining : Draining hw on table bound mem w) :
    Steady hw on table mem (w.event el .dsb) :=
  ⟨draining.late, draining.on, draining.based, dsb_drained draining.memory, draining.left⟩

/-- After an invalidation only what the tables hold now is cached. -/
theorem Drained.invalidate (drained : Drained hw on table bound mem w) (op : TlbiOp) (level : tlbiLevel op = hw.el) :
    Guarded hw (fun v => v.tlb ⊆ bound) (Steady hw on table mem) [.event (.tlbi op), .event .dsb, .event .isb] w := by
  have small := drained.small
  refine .cons drained_stable drained (fun v holds => holds.cached) (fun w drained => ?_)
  refine .cons draining_stable (drained.tlbi op level) (fun v holds => holds.cached) (fun w draining => ?_)
  refine .cons steady_stable (draining.dsb hw.el) (fun v holds => holds.cached.trans small) (fun w steady => ?_)
  exact .nil steady_stable (steady.isb hw.el) (fun v holds => holds.cached.trans small) (fun v holds => holds)

end Stable

end RockOs.TranslationUnit
