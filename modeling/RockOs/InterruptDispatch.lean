import Mathlib.Data.List.Induction
import RockOs.Interrupts

/-! Which handler an interrupt reaches. The table is compared with the history
of calls: the last call about a number decides, and where there is none, or it
was a free, the declared handlers do. -/
namespace RockOs.InterruptDispatch
open Machine Interrupts

/-- The handler of an entry, with its argument. -/
def target (entry : IrqHandlerStruct) : Option (Nat × Nat) := entry.handler.map (fun handler => (handler, entry.arg))

/-- The declared handlers for a number that are meant for this CPU. -/
def declaredFor (declared : List IrqHandlerStruct) (irq : Nat) : List IrqHandlerStruct :=
  declared.filter (fun entry => decide (isrAttrGen &&& entry.irqflags ≠ 0) && decide (entry.irqid.toNat = irq))

/-- The declared handler for a number: of several the last one is in force. -/
def declaredTarget (declared : List IrqHandlerStruct) (irq : Nat) : Option (Nat × Nat) :=
  (declaredFor declared irq).getLast?.bind target

/-- The handler in force for a number after a history of calls: the one installed
last and not freed since, or the declared one. The table takes numbers below
`MAX_IRQ_ID` only. -/
def expected (declared : List IrqHandlerStruct) (history : List Call) (irq : Nat) : Option (Nat × Nat) :=
  if maxIrqId ≤ irq then none
  else
    match history.reverse.find? (fun call => decide (call.irq = irq)) with
    | some (.install _ handler arg _) => handler.map (fun handler => (handler, arg))
    | some (.free _) => declaredTarget declared irq
    | none => declaredTarget declared irq

/-- The zeroed table, and any state of the GIC. -/
def blank (gic : Gic) : Irqs := { tab := fun _ => ⟨0#32, none, 0, "", 0#32⟩, gic }

/-- After `irq_table_init` and a history of calls. -/
def after (declared : List IrqHandlerStruct) (gic : Gic) (history : List Call) : Irqs :=
  history.foldl (fun s call => call.code declared s) (irqTableInit declared (blank gic))

section Table
variable {declared : List IrqHandlerStruct} {s : Irqs} {i : Nat}

/-- Registering some of the declared handlers: the last one for a number stays. -/
theorem registered (keep : IrqHandlerStruct → Bool) (small : i < maxIrqId) :
    (declared.foldl (fun s entry => if keep entry then registerEntry entry s else s) s).tab i =
      (declared.filter (fun entry => keep entry && decide (entry.irqid.toNat = i))).getLast?.getD (s.tab i) := by
  induction declared generalizing s with
  | nil => rfl
  | cons entry declared ih =>
    rw [List.foldl_cons, ih, List.filter_cons]
    by_cases kept : keep entry = true
    · rw [if_pos kept]
      by_cases here : entry.irqid.toNat = i
      · rw [if_pos (by rw [kept, decide_eq_true here]; rfl), List.getLast?_cons, Option.getD_some,
          register_tab entry (by omega), here, Function.update_self]
      · rw [if_neg (by rw [decide_eq_false here]; simp), register_tab_other entry (Ne.symm here)]
    · rw [if_neg kept, if_neg (by rw [Bool.not_eq_true] at kept; rw [kept]; simp)]

/-- Numbers that the table does not take keep their empty entries. -/
theorem not_registered (keep : IrqHandlerStruct → Bool) (large : maxIrqId ≤ i) :
    (declared.foldl (fun s entry => if keep entry then registerEntry entry s else s) s).tab i = s.tab i := by
  induction declared generalizing s with
  | nil => rfl
  | cons entry declared ih =>
    rw [List.foldl_cons, ih]
    split
    · by_cases here : i = entry.irqid.toNat
      · rw [register_refused entry (by omega)]
      · exact register_tab_other entry here
    · rfl

private theorem init_eq (declared : List IrqHandlerStruct) (s : Irqs) : irqTableInit declared s =
    declared.foldl
      (fun s entry => if decide (isrAttrGen &&& entry.irqflags ≠ 0) then registerEntry entry s else s) s := by
  simp only [irqTableInit, decide_eq_true_eq]

private theorem free_eq (declared : List IrqHandlerStruct) (irq : BitVec 32) (s : Irqs) : irqFreeHandler declared irq s =
    declared.foldl (fun s entry =>
      if decide (entry.irqid = irq) && decide (isrAttrGen &&& entry.irqflags ≠ 0) then registerEntry entry s else s)
      (gicUnregisterIrq irq s) := by
  unfold irqFreeHandler restoreDeclared
  congr 1
  funext s entry
  by_cases same : irq = entry.irqid
  · rw [if_neg (not_not_intro same)]
    by_cases meant : isrAttrGen &&& entry.irqflags ≠ 0
    · rw [if_pos (show isrAttrA55 &&& entry.irqflags ≠ 0 from meant),
        if_pos (by rw [decide_eq_true same.symm, decide_eq_true meant]; rfl)]
    · rw [if_neg (show ¬ (isrAttrA55 &&& entry.irqflags ≠ 0) from meant), if_neg (by rw [decide_eq_false meant]; simp)]
  · simp [same, Ne.symm same]

/-- After `irq_table_init` the declared handlers are in force. -/
theorem init_target (small : i < maxIrqId) (gic : Gic) :
    target ((irqTableInit declared (blank gic)).tab i) = declaredTarget declared i := by
  rw [init_eq, registered _ small, declaredTarget, declaredFor]
  cases (declared.filter _).getLast? <;> rfl

private theorem install_target (irq : BitVec 32) (handler : Option Nat) (arg : Nat) (flag : BitVec 32)
    (small : i < maxIrqId) :
    target ((irqInstallHandler irq handler arg flag s).tab i) =
      if irq.toNat = i then handler.map (fun handler => (handler, arg)) else target (s.tab i) := by
  rw [install_eq]
  by_cases here : irq.toNat = i
  · rw [if_pos here, register_tab _ (by simp only; omega), ← here, Function.update_self]
    rfl
  · rw [if_neg here, register_tab_other _ (Ne.symm here)]

private theorem free_target (irq : BitVec 32) (small : i < maxIrqId) :
    target ((irqFreeHandler declared irq s).tab i) =
      if irq.toNat = i then declaredTarget declared i else target (s.tab i) := by
  rw [free_eq, registered _ small]
  by_cases here : irq.toNat = i
  · have same : declared.filter (fun entry => decide (entry.irqid = irq) && decide (isrAttrGen &&& entry.irqflags ≠ 0) &&
        decide (entry.irqid.toNat = i)) = declaredFor declared i := by
      refine List.filter_congr (fun entry _ => ?_)
      have number : entry.irqid = irq ↔ entry.irqid.toNat = i := by rw [← here, BitVec.toNat_inj]
      simp only [number]
      cases decide (entry.irqid.toNat = i) <;> simp
    have none : target ((gicUnregisterIrq irq s).tab i) = Option.none := by
      unfold gicUnregisterIrq
      rw [if_neg (by omega), here]
      show target (Function.update s.tab i _ i) = _
      rw [Function.update_self]
      rfl
    rw [same, if_pos here, declaredTarget]
    cases (declaredFor declared i).getLast? with
    | none => exact none
    | some entry => rfl
  · have nothing : declared.filter (fun entry => decide (entry.irqid = irq) &&
        decide (isrAttrGen &&& entry.irqflags ≠ 0) && decide (entry.irqid.toNat = i)) = [] := by
      refine List.filter_eq_nil_iff.mpr (fun entry _ => ?_)
      simp only [Bool.and_eq_true, decide_eq_true_eq, not_and]
      rintro ⟨rfl, _⟩
      exact here
    rw [nothing, if_neg here]
    show target ((gicUnregisterIrq irq s).tab i) = _
    rw [unregister_tab_other (Ne.symm here)]

end Table

section History
variable {declared : List IrqHandlerStruct} {gic : Gic} {i : Nat}

/-- The table holds what the history of calls says. -/
theorem table_target (history : List Call) (small : i < maxIrqId) :
    target ((after declared gic history).tab i) = expected declared history i := by
  unfold after expected
  rw [if_neg (Nat.not_le.mpr small)]
  induction history using List.reverseRecOn with
  | nil => exact init_target small gic
  | append_singleton history call ih =>
    rw [List.foldl_append, List.foldl_cons, List.foldl_nil, List.reverse_append, List.reverse_singleton,
      List.singleton_append, List.find?_cons]
    cases call with
    | install irq handler arg flag =>
      show target ((irqInstallHandler irq handler arg flag _).tab i) = _
      rw [install_target irq handler arg flag small]
      by_cases here : irq.toNat = i
      · simp [Call.irq, here]
      · simp only [here, ↓reduceIte, Call.irq, decide_false]
        exact ih
    | free irq =>
      show target ((irqFreeHandler declared irq _).tab i) = _
      rw [free_target irq small]
      by_cases here : irq.toNat = i
      · simp [Call.irq, here]
      · simp only [here, ↓reduceIte, Call.irq, decide_false]
        exact ih

/-- The last entry of the table stays empty. -/
theorem table_last (history : List Call) (large : maxIrqId ≤ i) :
    target ((after declared gic history).tab i) = none := by
  unfold after
  induction history using List.reverseRecOn with
  | nil =>
    rw [List.foldl_nil, init_eq, not_registered _ large]
    rfl
  | append_singleton history call ih =>
    rw [List.foldl_append, List.foldl_cons, List.foldl_nil]
    cases call with
    | install irq handler arg flag =>
      show target ((irqInstallHandler irq handler arg flag _).tab i) = _
      rw [install_eq]
      by_cases here : i = irq.toNat
      · rw [register_refused _ (by simp only; omega)]
        exact ih
      · rw [register_tab_other _ here]
        exact ih
    | free irq =>
      show target ((irqFreeHandler declared irq _).tab i) = _
      rw [free_eq, not_registered _ large]
      by_cases here : maxIrqId ≤ irq.toNat
      · rw [gicUnregisterIrq, if_pos here]
        exact ih
      · rw [unregister_tab_other (by omega)]
        exact ih

end History

/-- What an interrupt is to call: nothing for the numbers that are no interrupts. -/
def dispatched (declared : List IrqHandlerStruct) (history : List Call) (intid : Nat) : Option (Nat × Nat) :=
  if intid < 1020 ∨ lpiIrqMin ≤ intid then expected declared history intid else none

/-- The dispatch stays inside the table and calls the handler in force exactly
for the interrupts up to `MAX_IRQ_ID`; LPIs beyond read past the table. -/
theorem dispatch_iff (declared : List IrqHandlerStruct) (gic : Gic) (history : List Call) (intid : BitVec 24) :
    (∃ s, doIrqHandle intid.toNat (after declared gic history) = .ret (dispatched declared history intid.toNat) s) ↔
      intid.toNat ≤ maxIrqId := by
  have bits : intid.toNat &&& gicIarIntMask = intid.toNat := by
    rw [gicIarIntMask, show 0xffffff = 2 ^ 24 - 1 from rfl, Nat.and_two_pow_sub_one_eq_mod]
    exact Nat.mod_eq_of_lt intid.isLt
  unfold doIrqHandle dispatched
  rw [read_bind, bits]
  generalize intid.toNat = n
  by_cases real : n < 1020 ∨ lpiIrqMin ≤ n
  · rw [if_pos real, if_pos real]
    by_cases large : maxIrqId < n
    · rw [if_pos large]
      constructor
      · rintro ⟨_, returned⟩
        cases returned
      · omega
    · rw [if_neg large]
      have called : target ((after declared gic history).tab n) = expected declared history n := by
        by_cases small : n < maxIrqId
        · exact table_target history small
        · rw [table_last history (by omega), expected, if_pos (by omega)]
      refine ⟨fun _ => by omega, fun _ => ?_⟩
      rw [← called]
      split <;> exact ⟨_, rfl⟩
  · rw [if_neg real, if_neg real]
    have small : n ≤ maxIrqId := by
      unfold maxIrqId lpiIrqMin at *
      omega
    exact ⟨fun _ => small, fun _ => ⟨_, rfl⟩⟩

/-- A GIC with everything off. -/
def idleGic : Gic :=
  { are := true, enable := fun _ => false, pending := fun _ => false, active := fun _ => false, priority := fun _ => 0#8,
    sgiEnable := fun _ => false, sgiActive := fun _ => false }

/-- The first LPI that the table has no entry for. -/
theorem dispatch_beyond_table : doIrqHandle 8225 (after [] idleGic []) = .fault (after [] idleGic []) := rfl

end RockOs.InterruptDispatch
