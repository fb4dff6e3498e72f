import Mathlib.Logic.Function.Basic
import RockOs.Machine

/-! Interrupt handlers: `common/interrupt.c`, and the parts of
`module/gicv3/irq-gicv3.c` and `arm-gic-v3.h` that it uses. The GIC is the state
behind the registers that the code can reach: bits that are set or cleared by
writing ones, and priorities that are written a word of four at a time. Waiting
for a register write to complete changes nothing and is left out. -/
namespace RockOs.Interrupts
open Machine

/-! ## The GIC -/

/-- The state of the distributor, and of the redistributor of this CPU. -/
structure Gic where
  /-- Affinity routing: the distributor has no registers for interrupts below 32. -/
  are : Bool
  enable : Nat → Bool
  pending : Nat → Bool
  active : Nat → Bool
  priority : Nat → BitVec 8
  sgiEnable : Nat → Bool
  sgiActive : Nat → Bool

def gicdIsenabler : Nat := 0x0100

def gicdIcenabler : Nat := 0x0180

def gicdIspendr : Nat := 0x0200

def gicdIcpendr : Nat := 0x0280

def gicdIsactiver : Nat := 0x0300

def gicdIcactiver : Nat := 0x0380

def gicdIpriorityr : Nat := 0x0400

def gicdItargetsr : Nat := 0x0800

/-- Bit `i` of a bank of registers lies in word `word`, and the mask has it. -/
def hits (word : Nat) (mask : BitVec 32) (i : Nat) : Bool := decide (i / 32 = word) && mask.getLsbD (i % 32)

/-- The distributor has a register for interrupt `i`. -/
def Gic.present (g : Gic) (i : Nat) : Bool := decide (32 ≤ i) || !g.are

/-- Write ones to set. -/
def Gic.setBits (g : Gic) (bank : Nat → Bool) (word : Nat) (mask : BitVec 32) : Nat → Bool := fun i =>
  bank i || (g.present i && hits word mask i)

/-- Write ones to clear. -/
def Gic.clearBits (g : Gic) (bank : Nat → Bool) (word : Nat) (mask : BitVec 32) : Nat → Bool := fun i =>
  bank i && !(g.present i && hits word mask i)

/-- Four priorities. -/
def Gic.setPriorities (g : Gic) (word : Nat) (value : BitVec 32) : Nat → BitVec 8 := fun i =>
  if g.present i ∧ i / 4 = word then value.extractLsb' (8 * (i % 4)) 8 else g.priority i

/-- A store to a register of the distributor, from `GICD_ISENABLER` up to the
priorities. -/
def Gic.writeDist (g : Gic) (offset : Nat) (value : BitVec 32) : Gic :=
  if offset < gicdIsenabler then g
  else if offset < gicdIcenabler then { g with enable := g.setBits g.enable ((offset - gicdIsenabler) / 4) value }
  else if offset < gicdIspendr then { g with enable := g.clearBits g.enable ((offset - gicdIcenabler) / 4) value }
  else if offset < gicdIcpendr then { g with pending := g.setBits g.pending ((offset - gicdIspendr) / 4) value }
  else if offset < gicdIsactiver then { g with pending := g.clearBits g.pending ((offset - gicdIcpendr) / 4) value }
  else if offset < gicdIcactiver then { g with active := g.setBits g.active ((offset - gicdIsactiver) / 4) value }
  else if offset < gicdIpriorityr then { g with active := g.clearBits g.active ((offset - gicdIcactiver) / 4) value }
  else if offset < gicdItargetsr then { g with priority := g.setPriorities ((offset - gicdIpriorityr) / 4) value }
  else g

/-- A store to the first register of a bank of the redistributor. -/
def Gic.writeSgi (g : Gic) (offset : Nat) (value : BitVec 32) : Gic :=
  if offset = gicdIsenabler then { g with sgiEnable := fun i => g.sgiEnable i || hits 0 value i }
  else if offset = gicdIcenabler then { g with sgiEnable := fun i => g.sgiEnable i && !hits 0 value i }
  else if offset = gicdIcactiver then { g with sgiActive := fun i => g.sgiActive i && !hits 0 value i }
  else g

/-- `gic_poke_irq`. Callers have checked that the number is not negative. -/
def Gic.pokeIrq (g : Gic) (irq offset : Nat) : Gic :=
  let mask : BitVec 32 := 1#32 <<< (irq % 32)
  if irq < 32 then g.writeSgi (offset + irq / 32 * 4) mask else g.writeDist (offset + irq / 32 * 4) mask

/-! ## The table of handlers -/

def lpiIrqMin : Nat := 8192

def maxIrqId : Nat := lpiIrqMin + 32

/-- `ISR_ATTR_GEN` and `ISR_ATTR_A55`. -/
def isrAttrGen : BitVec 32 := 0x4#32

def isrAttrA55 : BitVec 32 := 0x4#32

def gicIarIntMask : Nat := 0xffffff

/-- `struct irq_handler_struct`; a null handler is `none`. -/
structure IrqHandlerStruct where
  irqid : BitVec 32
  handler : Option Nat
  arg : Nat
  irqname : String
  irqflags : BitVec 32

/-- `irq_handler_tab`, of which the entries up to `MAX_IRQ_ID` exist, and the GIC. -/
structure Irqs where
  tab : Nat → IrqHandlerStruct
  gic : Gic

/-- `enable_irq`. -/
def Irqs.enableIrq (s : Irqs) (irq : Nat) : Irqs := { s with gic := s.gic.pokeIrq irq gicdIsenabler }

/-- `disable_irq`. -/
def Irqs.disableIrq (s : Irqs) (irq : Nat) : Irqs := { s with gic := s.gic.pokeIrq irq gicdIcenabler }

def gicRegisterIrq (irq : BitVec 32) (handler : Option Nat) (flags : BitVec 32) (arg : Nat) (name : String) (s : Irqs) :
    Irqs :=
  if maxIrqId ≤ irq.toNat then s
  else
    let entry : IrqHandlerStruct := { irqid := irq, handler, arg, irqname := name, irqflags := flags }
    let s := { s with tab := Function.update s.tab irq.toNat entry }
    -- LPIs are enabled in the table of the redistributor.
    if irq.toNat < lpiIrqMin then s.enableIrq irq.toNat else s

def gicUnregisterIrq (irq : BitVec 32) (s : Irqs) : Irqs :=
  if maxIrqId ≤ irq.toNat then s
  else
    let s := { s with tab := Function.update s.tab irq.toNat { s.tab irq.toNat with handler := none } }
    s.disableIrq irq.toNat

/-- `gic_register_irq` with the fields of a declared handler. -/
def registerEntry (entry : IrqHandlerStruct) (s : Irqs) : Irqs :=
  gicRegisterIrq entry.irqid entry.handler entry.irqflags entry.arg entry.irqname s

/-- `irq_table_init`, over the handlers declared in the program. -/
def irqTableInit (declared : List IrqHandlerStruct) (s : Irqs) : Irqs :=
  declared.foldl (fun s entry => if isrAttrGen &&& entry.irqflags ≠ 0 then registerEntry entry s else s) s

def irqInstallHandler (irq : BitVec 32) (handler : Option Nat) (arg : Nat) (flag : BitVec 32) (s : Irqs) : Irqs :=
  gicRegisterIrq irq handler flag arg "soft install" s

/-- The loop of `irq_free_handler`: the declared handlers come back. -/
def restoreDeclared (declared : List IrqHandlerStruct) (irq : BitVec 32) (s : Irqs) : Irqs :=
  declared.foldl (fun s entry =>
    if irq ≠ entry.irqid then s
    else if isrAttrA55 &&& entry.irqflags ≠ 0 then registerEntry entry s
    else s) s

def irqFreeHandler (declared : List IrqHandlerStruct) (irq : BitVec 32) (s : Irqs) : Irqs :=
  restoreDeclared declared irq (gicUnregisterIrq irq s)

/-- `do_irq_handle` for the value read from `ICC_IAR1`: the handler it calls,
with its argument. Reading the table beyond its end is a fault. -/
def doIrqHandle (irqstat : Nat) : Code Irqs Empty (Option (Nat × Nat)) := do
  let s ← read
  let irqnr := irqstat &&& gicIarIntMask
  if irqnr < 1020 ∨ lpiIrqMin ≤ irqnr then
    if maxIrqId < irqnr then fault
    else
      if irqnr < 1020 then write { s with gic := s.gic.pokeIrq irqstat gicdIcactiver }
      return (s.tab irqnr).handler.map (fun handler => (handler, (s.tab irqnr).arg))
  else return none

/-! ## Calls -/

inductive Call where
  | install (irq : BitVec 32) (handler : Option Nat) (arg : Nat) (flag : BitVec 32)
  | free (irq : BitVec 32)

/-- The number that a call is about, as the code reads it. -/
def Call.irq : Call → Nat
  | .install irq _ _ _ => irq.toNat
  | .free irq => irq.toNat

def Call.code (declared : List IrqHandlerStruct) : Call → Irqs → Irqs
  | .install irq handler arg flag => irqInstallHandler irq handler arg flag
  | .free irq => irqFreeHandler declared irq

section Table
variable {declared : List IrqHandlerStruct} {irq : BitVec 32} {s : Irqs} {i : Nat}

theorem register_tab (entry : IrqHandlerStruct) (small : entry.irqid.toNat < maxIrqId) :
    (registerEntry entry s).tab = Function.update s.tab entry.irqid.toNat entry := by
  unfold registerEntry gicRegisterIrq
  rw [if_neg (Nat.not_le.mpr small)]
  split <;> rfl

theorem register_refused (entry : IrqHandlerStruct) (large : maxIrqId ≤ entry.irqid.toNat) : registerEntry entry s = s :=
  if_pos large

/-- A call changes no entry but its own. -/
theorem register_tab_other (entry : IrqHandlerStruct) (other : i ≠ entry.irqid.toNat) :
    (registerEntry entry s).tab i = s.tab i := by
  by_cases small : entry.irqid.toNat < maxIrqId
  · rw [register_tab entry small, Function.update_of_ne other]
  · rw [register_refused entry (by omega)]

theorem unregister_tab_other (other : i ≠ irq.toNat) : (gicUnregisterIrq irq s).tab i = s.tab i := by
  unfold gicUnregisterIrq
  split
  · rfl
  · exact Function.update_of_ne other _ _

/-- An installed handler is an entry like a declared one. -/
theorem install_eq (irq : BitVec 32) (handler : Option Nat) (arg : Nat) (flag : BitVec 32) (s : Irqs) :
    irqInstallHandler irq handler arg flag s = registerEntry ⟨irq, handler, arg, "soft install", flag⟩ s := rfl

end Table

end RockOs.Interrupts
