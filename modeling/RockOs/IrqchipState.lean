import RockOs.InterruptFrame

/-! `irq_set_irqchip_state` and `irq_get_irqchip_state`. An interrupt has a bit in
three banks, each behind a register to set and one to clear it, in the
redistributor below 32 and in the distributor above. Every load and store is
recorded, so that a refused call can be told from one that went to a register.
Numbers that are too large are refused; a negative one is not, and selects a
register before the bank. -/
namespace RockOs.IrqchipState
open Interrupts InterruptFrame

/-! ## The registers -/

inductive Bank where
  | enable
  | pending
  | active
  deriving DecidableEq, Repr

/-- The bits of one frame of registers. -/
abbrev Frame := Bank → Nat → Bool

/-- The bank behind a register, whether the register sets its bits, and the word:
set and clear registers alternate from `GICD_ISENABLER` to the priorities. -/
def register (offset : Int) : Option (Bank × Bool × Nat) :=
  if offset < gicdIsenabler ∨ (gicdIpriorityr : Int) ≤ offset then none
  else
    let place := (offset - gicdIsenabler).toNat
    let bank := if place / 256 = 0 then Bank.enable else if place / 256 = 1 then .pending else .active
    some (bank, decide (place / 128 % 2 = 0), place % 128 / 4)

/-- Writing ones sets or clears bits. -/
def Frame.writel (f : Frame) (offset : Int) (value : BitVec 32) : Frame :=
  match register offset with
  | none => f
  | some (bank, sets, word) =>
    Function.update f bank (fun i => if hits word value i then sets else f bank i)

/-- Both registers of a bank read as its bits. -/
def Frame.readl (f : Frame) (offset : Int) : BitVec 32 :=
  match register offset with
  | none => 0#32
  | some (bank, _, word) => (BitVec.iunfoldr (fun (k : Fin 32) (_ : Unit) => ((), f bank (32 * word + k))) ()).2

/-- A load or a store. -/
structure Access where
  redistributor : Bool
  offset : Int
  store : Bool
  deriving DecidableEq, Repr

/-- `gic_data.gic_irqs`, the frames behind `dist_base` and the SGI base of this
CPU, and the accesses so far. -/
structure Chip where
  gicIrqs : Nat
  dist : Frame
  sgi : Frame
  log : List Access

/-! ## The code -/

/-- `enum irqchip_irq_state`. -/
inductive IrqchipIrqState where
  | pending
  | active
  | masked
  | lineLevel
  deriving DecidableEq, Repr

def einval : Int := 22

/-- `1 << (irq % 32)`; the machine shifts by the low five bits of the amount. -/
def irqMask (irq : Int) : BitVec 32 := 1#32 <<< (irq.tmod 32 % 32).toNat

def gicIrqInRdist (irq : Int) : Bool := decide (irq < 32)

def gicPeekIrq (irq : Int) (offset : Nat) (c : Chip) : Bool × Chip :=
  let reg := offset + irq.tdiv 32 * 4
  let frame := if gicIrqInRdist irq then c.sgi else c.dist
  (frame.readl reg &&& irqMask irq != 0#32, { c with log := ⟨gicIrqInRdist irq, reg, false⟩ :: c.log })

def gicPokeIrq (irq : Int) (offset : Nat) (c : Chip) : Chip :=
  let reg := offset + irq.tdiv 32 * 4
  let c := { c with log := ⟨gicIrqInRdist irq, reg, true⟩ :: c.log }
  if gicIrqInRdist irq then { c with sgi := c.sgi.writel reg (irqMask irq) }
  else { c with dist := c.dist.writel reg (irqMask irq) }

def gicIrqSetIrqchipState (irq : Int) (which : IrqchipIrqState) (val : Bool) (c : Chip) : Int × Chip :=
  if c.gicIrqs ≤ irq then (-einval, c)
  else
    match which with
    | .pending => (0, gicPokeIrq irq (if val then gicdIspendr else gicdIcpendr) c)
    | .active => (0, gicPokeIrq irq (if val then gicdIsactiver else gicdIcactiver) c)
    | .masked => (0, gicPokeIrq irq (if val then gicdIcenabler else gicdIsenabler) c)
    | .lineLevel => (-einval, c)

/-- The result, what is stored through `val`, and the chip. -/
def gicIrqGetIrqchipState (irq : Int) (which : IrqchipIrqState) (c : Chip) : Int × Option Bool × Chip :=
  if c.gicIrqs ≤ irq then (-einval, none, c)
  else
    match which with
    | .pending => let (bit, c) := gicPeekIrq irq gicdIspendr c; (0, some bit, c)
    | .active => let (bit, c) := gicPeekIrq irq gicdIsactiver c; (0, some bit, c)
    | .masked => let (bit, c) := gicPeekIrq irq gicdIsenabler c; (0, some !bit, c)
    | .lineLevel => (-einval, none, c)

/-! ## What it is for -/

/-- The bank that holds a state, and whether it holds its negation. -/
def IrqchipIrqState.bank : IrqchipIrqState → Bank
  | .pending => .pending
  | .active => .active
  | .masked | .lineLevel => .enable

def IrqchipIrqState.inverted (which : IrqchipIrqState) : Bool := decide (which = .masked)

/-- The state of an interrupt. -/
def Chip.state (c : Chip) (irq : Nat) (which : IrqchipIrqState) : Bool :=
  (if irq < 32 then c.sgi which.bank irq else c.dist which.bank irq) ^^ which.inverted

/-- For an interrupt of the chip, what was set is read back and no other state
changed. For other numbers both calls refuse, and go to no register. -/
def StateRight (c : Chip) (irq : Int) (which : IrqchipIrqState) (val : Bool) : Prop :=
  if 0 ≤ irq ∧ irq < c.gicIrqs then
    let set := gicIrqSetIrqchipState irq which val c
    let get := gicIrqGetIrqchipState irq which set.2
    set.1 = 0 ∧ get.1 = 0 ∧ get.2.1 = some val ∧
      ∀ n kind, kind ≠ .lineLevel → (n, kind) ≠ (irq.toNat, which) → get.2.2.state n kind = c.state n kind
  else
    gicIrqSetIrqchipState irq which val c = (-einval, c) ∧ gicIrqGetIrqchipState irq which c = (-einval, none, c)

/-- The blocks of 32 registers before those of a bank. -/
def Bank.block : Bank → Nat
  | .enable => 0
  | .pending => 2
  | .active => 4

/-- The register that sets or clears bits of a bank. -/
def Bank.register (bank : Bank) (sets : Bool) : Nat := gicdIsenabler + (bank.block + if sets then 0 else 1) * 128

section Registers
variable {f : Frame} {bank : Bank} {sets : Bool} {word n k : Nat} {offset : Int} {which : IrqchipIrqState}

private theorem readl_bit (found : register offset = some (bank, sets, word)) (small : k < 32) :
    (f.readl offset).getLsbD k = f bank (32 * word + k) := by
  rw [Frame.readl, found]
  exact BitVec.iunfoldr_getLsbD (fun _ => ()) ⟨k, small⟩ (fun _ => rfl)

private theorem irqMask_nat (n : Nat) : irqMask n = 1#32 <<< (n % 32) := by
  have rest : (n : Int).tmod 32 = (n % 32 : Nat) := rfl
  have amount : ((n : Int).tmod 32 % 32).toNat = n % 32 := by omega
  rw [irqMask, amount]

/-- A load through the mask of an interrupt sees its bit. -/
theorem peek_bit (found : register offset = some (bank, sets, n / 32)) :
    (f.readl offset &&& irqMask n != 0#32) = f bank n := by
  have small := Nat.mod_lt n (show 0 < 32 by decide)
  have bit : (f.readl offset).getLsbD (n % 32) = f bank n := by
    rw [readl_bit found small, show 32 * (n / 32) + n % 32 = n by omega]
  rw [irqMask_nat, ← BitVec.twoPow_eq, BitVec.and_twoPow, bit]
  cases f bank n with
  | false => rfl
  | true =>
    rw [if_pos rfl, bne_iff_ne]
    intro zero
    have set := congrArg (fun x => x.getLsbD (n % 32)) zero
    simp [small] at set

/-- A store of the mask of an interrupt changes its bit alone. -/
theorem poke_bit (found : register offset = some (bank, sets, n / 32)) (b : Bank) (i : Nat) :
    f.writel offset (irqMask n) b i = if b = bank ∧ i = n then sets else f b i := by
  rw [Frame.writel, found, irqMask_nat]
  simp only
  by_cases here : b = bank
  · rw [here, Function.update_self, hits_mask]
    simp only [decide_eq_true_eq, true_and, show i / 32 = n / 32 ∧ i % 32 = n % 32 ↔ i = n by omega]
  · rw [Function.update_of_ne here, if_neg (fun both => here both.1)]

/-- The blocks of registers, 32 words each. -/
theorem register_word {block : Nat} (blocks : block < 6) (small : word < 32) :
    register (gicdIsenabler + block * 128 + word * 4 : Nat) =
      some (if block / 2 = 0 then .enable else if block / 2 = 1 then .pending else .active, decide (block % 2 = 0),
        word) := by
  unfold register gicdIpriorityr gicdIsenabler
  rw [if_neg (by omega)]
  have place : ((0x100 + block * 128 + word * 4 : Nat) - (0x100 : Nat) : Int).toNat = block * 128 + word * 4 := by omega
  simp only [place, show (block * 128 + word * 4) / 256 = block / 2 by omega,
    show (block * 128 + word * 4) / 128 = block by omega, show (block * 128 + word * 4) % 128 / 4 = word by omega]

private theorem register_found (bank : Bank) (sets : Bool) (small : n < 1024) :
    register (bank.register sets + (n : Int).tdiv 32 * 4) = some (bank, sets, n / 32) := by
  have words : (n : Int).tdiv 32 = (n / 32 : Nat) := rfl
  have word : n / 32 < 32 := by omega
  have blocks : bank.block + (if sets then 0 else 1) < 6 := by cases bank <;> cases sets <;> decide
  have found := register_word blocks word
  rw [words, Bank.register]
  push_cast at found ⊢
  rw [found]
  cases bank <;> cases sets <;> rfl

end Registers

/-! ## The calls -/

section Calls
variable {c : Chip} {which : IrqchipIrqState} {n : Nat}

private theorem set_eq (kind : which ≠ .lineLevel) (val : Bool) (inside : ¬ (c.gicIrqs : Int) ≤ irq) :
    gicIrqSetIrqchipState irq which val c = (0, gicPokeIrq irq (which.bank.register (val ^^ which.inverted)) c) := by
  unfold gicIrqSetIrqchipState
  rw [if_neg inside]
  cases which with
  | pending | active | masked => cases val <;> rfl
  | lineLevel => exact absurd rfl kind

private theorem get_eq (kind : which ≠ .lineLevel) (inside : ¬ (c.gicIrqs : Int) ≤ irq) :
    gicIrqGetIrqchipState irq which c =
      (0, some ((gicPeekIrq irq (which.bank.register true) c).1 ^^ which.inverted),
        (gicPeekIrq irq (which.bank.register true) c).2) := by
  unfold gicIrqGetIrqchipState
  rw [if_neg inside]
  cases which with
  | pending | active =>
    simp only [IrqchipIrqState.inverted, reduceCtorEq, decide_false, Bool.xor_false]
    rfl
  | masked =>
    simp only [IrqchipIrqState.inverted, decide_true, Bool.xor_true]
    rfl
  | lineLevel => exact absurd rfl kind

/-- A store changes the bit of `n` in its bank. -/
theorem poke_state (small : n < 1024) (bank : Bank) (sets : Bool) (i : Nat) (kind : IrqchipIrqState) :
    (gicPokeIrq n (bank.register sets) c).state i kind =
      if i = n ∧ kind.bank = bank then sets ^^ kind.inverted else c.state i kind := by
  have bits := fun f => poke_bit (f := f) (register_found bank sets small) kind.bank i
  unfold Chip.state gicPokeIrq
  by_cases low : n < 32
  · have inRdist : gicIrqInRdist n = true := decide_eq_true (by omega)
    simp only [inRdist, ↓reduceIte, bits]
    by_cases here : i = n ∧ kind.bank = bank
    · rw [if_pos here, if_pos here.symm, if_pos (by omega)]
    · have away : ¬ (kind.bank = bank ∧ i = n) := fun both => here both.symm
      simp only [away, here, ↓reduceIte]
  · have inDist : gicIrqInRdist n = false := decide_eq_false (by omega)
    simp only [inDist, Bool.false_eq_true, ↓reduceIte, bits]
    by_cases here : i = n ∧ kind.bank = bank
    · rw [if_pos here, if_pos here.symm, if_neg (by omega)]
    · have away : ¬ (kind.bank = bank ∧ i = n) := fun both => here both.symm
      simp only [away, here, ↓reduceIte]

/-- A load shows the bit of `n`. -/
theorem peek_state (small : n < 1024) :
    ((gicPeekIrq n (which.bank.register true) c).1 ^^ which.inverted) = c.state n which := by
  have bit := fun f => peek_bit (f := f) (register_found which.bank true small)
  unfold Chip.state gicPeekIrq
  simp only [bit]
  by_cases low : n < 32
  · have inRdist : gicIrqInRdist n = true := decide_eq_true (by omega)
    rw [inRdist, if_pos rfl, if_pos low]
  · have inDist : gicIrqInRdist n = false := decide_eq_false (by omega)
    rw [inDist, if_neg Bool.false_ne_true, if_neg low]

private theorem bank_inj {kind : IrqchipIrqState} (known : which ≠ .lineLevel) (line : kind ≠ .lineLevel) :
    kind.bank = which.bank ↔ kind = which := by
  cases kind <;> cases which <;> first | decide | exact absurd rfl line | exact absurd rfl known

/-- Set and get work, and refuse, as they should exactly for the numbers that are
not negative. -/
theorem irqchip_state_iff (c : Chip) (small : c.gicIrqs ≤ 1020) (irq : Int) (which : IrqchipIrqState)
    (known : which ≠ .lineLevel) (val : Bool) : StateRight c irq which val ↔ 0 ≤ irq := by
  unfold StateRight
  by_cases negative : 0 ≤ irq
  · refine iff_of_true ?_ negative
    obtain ⟨n, rfl⟩ := Int.eq_ofNat_of_zero_le negative
    by_cases inside : (n : Int) < c.gicIrqs
    · rw [if_pos ⟨negative, inside⟩]
      have below : n < 1024 := by omega
      have kept : ∀ register, (gicPokeIrq n register c).gicIrqs = c.gicIrqs := by
        intro register
        unfold gicPokeIrq
        split <;> rfl
      simp only
      rw [set_eq known val (by omega), get_eq known (by rw [kept]; omega)]
      refine ⟨rfl, rfl, ?_, fun i kind line other => ?_⟩
      · rw [peek_state below, poke_state below, if_pos ⟨rfl, rfl⟩, Bool.xor_assoc, Bool.xor_self, Bool.xor_false]
      · have frame : ∀ c : Chip, (gicPeekIrq n (which.bank.register true) c).2.state i kind = c.state i kind :=
          fun c => rfl
        rw [frame, poke_state below, if_neg]
        rintro ⟨rfl, banks⟩
        exact other (by rw [(bank_inj known line).mp banks]; rfl)
    · rw [if_neg (fun both => inside both.2)]
      unfold gicIrqSetIrqchipState gicIrqGetIrqchipState
      rw [if_pos (by omega), if_pos (by omega)]
      exact ⟨rfl, rfl⟩
  · refine iff_of_false (fun right => ?_) negative
    rw [if_neg (fun both => negative both.1)] at right
    obtain ⟨refused, _⟩ := right
    rw [set_eq known val (by omega)] at refused
    cases congrArg Prod.fst refused

end Calls

/-- A chip with 64 interrupts, all idle. -/
def idleChip : Chip := { gicIrqs := 64, dist := fun _ _ => false, sgi := fun _ _ => false, log := [] }

/-- The call for interrupt -32 reports success after a store below the bank. -/
theorem set_state_negative : (gicIrqSetIrqchipState (-32) .pending true idleChip).1 = 0 ∧
    (gicIrqSetIrqchipState (-32) .pending true idleChip).2.log = [⟨true, 0x1fc, true⟩] ∧
    ¬ StateRight idleChip (-32) .pending true := by
  refine ⟨by decide, by decide, fun right => ?_⟩
  rw [StateRight, if_neg (by decide)] at right
  have returned := congrArg Prod.fst right.1
  revert returned
  decide

theorem set_state_masked : StateRight idleChip 40 .masked true :=
  (irqchip_state_iff idleChip (by decide) 40 .masked (by decide) true).mpr (by decide)

end RockOs.IrqchipState
