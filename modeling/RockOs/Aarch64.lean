import Mathlib.Data.Nat.Size
import Mathlib.Logic.Function.Basic
import RockOs.ByteMemory

/-! The part of the A64 instruction set that start-up and exception code is
written in: general registers, the stack pointers and system registers of the
exception levels, condition flags, loads and stores of words and pairs, and
cache and TLB maintenance, which is recorded in the order it is issued. Memory
is data only; code lives elsewhere. -/
namespace RockOs.Aarch64
open ByteMemory

abbrev Word := BitVec 64

/-- An exception level. -/
abbrev El := Fin 4

-- Named, so that the numerals of levels and registers are the same terms in every module.
scoped instance levels_ne_zero : NeZero 4 := ⟨by decide⟩

scoped instance registers_ne_zero : NeZero 31 := ⟨by decide⟩

/-- `x0` to `x30`, the stack pointer in use, and the zero register. -/
inductive Reg where
  | x (n : Fin 31)
  | sp
  | xzr
  deriving DecidableEq, Repr

abbrev lr : Reg := .x 30

inductive SysReg where
  | currentEl
  | ctr
  | clidr
  | csselr
  | ccsidr
  | midr
  | mpidr
  | cntfrq
  | cnthctl
  | cntvoff
  | vpidr
  | vmpidr
  | hstr
  | hcr
  | scr
  | cpacr
  | cptr (el : El)
  | elr (el : El)
  | esr (el : El)
  | sctlr (el : El)
  | sp (el : El)
  | spsr (el : El)
  | ttbr0 (el : El)
  | vbar (el : El)
  deriving DecidableEq, Repr

/-- Data cache maintenance, by set and way or by address. -/
inductive DcOp where
  | isw
  | cisw
  | ivac
  | civac
  deriving DecidableEq, Repr

inductive TlbiOp where
  | alle3
  | alle2
  | vmalle1
  deriving DecidableEq, Repr

inductive IcOp where
  | iallu
  | ialluis
  deriving DecidableEq, Repr

/-- What the rest of the machine can observe of an instruction. -/
inductive Event where
  | dc (op : DcOp) (operand : Word)
  | ic (op : IcOp)
  | tlbi (op : TlbiOp)
  | msr (r : SysReg) (value : Word)
  | isb
  | dsb
  deriving DecidableEq, Repr

structure Flags where
  n : Bool
  z : Bool
  c : Bool
  v : Bool
  deriving DecidableEq, Repr

/-- The exception level, whether its own stack pointer is in use or that of
level 0, and the interrupt masks. -/
structure Mode where
  el : El
  spsel : Bool
  daif : BitVec 4
  deriving DecidableEq, Repr

/-- Everything but the program counter. -/
structure Core where
  x : Fin 31 → Word
  flags : Flags
  mode : Mode
  sys : SysReg → Word
  mem : Mem
  /-- `CCSIDR_EL1` for each value of `CSSELR_EL1`. -/
  geometry : Word → Word
  log : List Event

/-- The stack pointer in use. -/
def Mode.stack (mode : Mode) : SysReg := .sp (if mode.spsel then mode.el else 0)

namespace Core

def get (c : Core) : Reg → Word
  | .x n => c.x n
  | .sp => c.sys c.mode.stack
  | .xzr => 0

def set (c : Core) : Reg → Word → Core
  | .x n, value => { c with x := Function.update c.x n value }
  | .sp, value => { c with sys := Function.update c.sys c.mode.stack value }
  | .xzr, _ => c

def setFlags (c : Core) (flags : Flags) : Core := { c with flags := flags }

def setMem (c : Core) (mem : Mem) : Core := { c with mem := mem }

def setSys (c : Core) (r : SysReg) (value : Word) : Core := { c with sys := Function.update c.sys r value }

def emit (c : Core) (event : Event) : Core := { c with log := c.log ++ [event] }

/-- A read of a system register. Two of them are not stored. -/
def readSys (c : Core) : SysReg → Word
  | .currentEl => BitVec.ofNat 64 (c.mode.el.val <<< 2)
  | .ccsidr => c.geometry (c.sys .csselr)
  | r => c.sys r

end Core

/-! ## Operations -/

/-- The last operand of an arithmetic instruction. -/
inductive Operand where
  | reg (r : Reg)
  | imm (value : Word)
  | lsr (r : Reg) (amount : Nat)
  deriving DecidableEq, Repr

inductive Alu where
  | add
  | sub
  | and
  | orr
  | bic
  | lsl
  | lsr
  deriving DecidableEq, Repr

/-- How an access uses its base register. -/
inductive Index where
  | offset
  | pre
  | post
  deriving DecidableEq, Repr

/-- An instruction that goes on to the next one. -/
inductive Op where
  | mov (d : Reg) (m : Operand)
  | alu (f : Alu) (d n : Reg) (m : Operand)
  | subs (d n : Reg) (m : Operand)
  | movk (d : Reg) (value shift : Nat)
  /-- The field of `width` bits from `lsb` on. -/
  | ubfx (d n : Reg) (lsb width : Nat)
  /-- Leading zeros of the lower half. -/
  | clz32 (d n : Reg)
  | ldr (t base : Reg) (offset : Word) (index : Index)
  | str (t base : Reg) (offset : Word) (index : Index)
  | ldp (t u base : Reg) (offset : Word) (index : Index)
  | stp (t u base : Reg) (offset : Word) (index : Index)
  | mrs (d : Reg) (r : SysReg)
  | msr (r : SysReg) (n : Reg)
  | dc (op : DcOp) (n : Reg)
  | ic (op : IcOp)
  | tlbi (op : TlbiOp)
  | isb
  | dsb
  | nop
  deriving DecidableEq, Repr

def Operand.eval (c : Core) : Operand → Word
  | .reg r => c.get r
  | .imm value => value
  | .lsr r amount => c.get r >>> amount

def Alu.eval : Alu → Word → Word → Word
  | .add, a, b => a + b
  | .sub, a, b => a - b
  | .and, a, b => a &&& b
  | .orr, a, b => a ||| b
  | .bic, a, b => a &&& ~~~b
  | .lsl, a, b => a <<< (b.toNat % 64)
  | .lsr, a, b => a >>> (b.toNat % 64)

/-- The flags of a subtraction. -/
def subFlags (a b : Word) : Flags where
  n := (a - b).msb
  z := decide (a - b = 0)
  c := decide (b.toNat ≤ a.toNat)
  v := BitVec.ssubOverflow a b

/-- Leading zeros of the lower 32 bits. -/
def leadingZeros (w : Word) : Nat := 32 - (w.toNat % 2 ^ 32).size

def Index.address (base offset : Word) : Index → Word
  | .post => base
  | _ => base + offset

/-- The base register after an access. -/
def Index.writeBack (c : Core) (base : Reg) (address offset : Word) : Index → Core
  | .offset => c
  | _ => c.set base (address + offset)

def Core.loadWord (c : Core) (address : Word) : Word := BitVec.ofNat 64 (loadPtr c.mem address.toNat)

def Core.storeWord (c : Core) (address value : Word) : Core := c.setMem (storePtr c.mem address.toNat value.toNat)

def Op.effect (c : Core) : Op → Core
  | .mov d m => c.set d (m.eval c)
  | .alu f d n m => c.set d (f.eval (c.get n) (m.eval c))
  | .subs d n m => (c.setFlags (subFlags (c.get n) (m.eval c))).set d (c.get n - m.eval c)
  | .movk d value shift =>
    c.set d ((c.get d &&& ~~~(BitVec.ofNat 64 0xffff <<< shift)) ||| (BitVec.ofNat 64 value <<< shift))
  | .ubfx d n lsb width => c.set d ((c.get n >>> lsb) &&& BitVec.ofNat 64 (2 ^ width - 1))
  | .clz32 d n => c.set d (BitVec.ofNat 64 (leadingZeros (c.get n)))
  | .ldr t base offset index =>
    let value := c.loadWord (index.address (c.get base) offset)
    (index.writeBack c base (c.get base) offset).set t value
  | .str t base offset index =>
    let c' := c.storeWord (index.address (c.get base) offset) (c.get t)
    index.writeBack c' base (c.get base) offset
  | .ldp t u base offset index =>
    let address := index.address (c.get base) offset
    ((index.writeBack c base (c.get base) offset).set t (c.loadWord address)).set u (c.loadWord (address + 8))
  | .stp t u base offset index =>
    let address := index.address (c.get base) offset
    let c' := (c.storeWord address (c.get t)).storeWord (address + 8) (c.get u)
    index.writeBack c' base (c.get base) offset
  | .mrs d r => c.set d (c.readSys r)
  | .msr r n => (c.setSys r (c.get n)).emit (.msr r (c.get n))
  | .dc op n => c.emit (.dc op (c.get n))
  | .ic op => c.emit (.ic op)
  | .tlbi op => c.emit (.tlbi op)
  | .isb => c.emit .isb
  | .dsb => c.emit .dsb
  | .nop => c

/-- Operations one after another. -/
def run (ops : List Op) (c : Core) : Core := ops.foldl Op.effect c

/-! ## Conditions -/

inductive Cond where
  | eq
  | ne
  | lo
  | lt
  | ge
  | gt
  deriving DecidableEq, Repr

def Cond.holds (flags : Flags) : Cond → Bool
  | .eq => flags.z
  | .ne => !flags.z
  | .lo => !flags.c
  | .lt => flags.n != flags.v
  | .ge => flags.n == flags.v
  | .gt => !flags.z && flags.n == flags.v

/-- The signed comparison that the flags of a subtraction hold. -/
theorem sub_sign (a b : Word) : ((a - b).msb = BitVec.ssubOverflow a b) ↔ b.toInt ≤ a.toInt := by
  have lowA : -2 ^ 64 ≤ 2 * a.toInt := BitVec.le_two_mul_toInt
  have lowB : -2 ^ 64 ≤ 2 * b.toInt := BitVec.le_two_mul_toInt
  have highA : 2 * a.toInt < 2 ^ 64 := BitVec.two_mul_toInt_lt
  have highB : 2 * b.toInt < 2 ^ 64 := BitVec.two_mul_toInt_lt
  rw [BitVec.msb_eq_toInt, BitVec.toInt_sub, BitVec.ssubOverflow, Bool.eq_iff_iff]
  simp only [decide_eq_true_eq, Bool.or_eq_true, ge_iff_le, Int.bmod]
  norm_num at lowA lowB highA highB ⊢
  omega

section Conditions
variable (a b : Word)

@[simp] theorem holds_eq : Cond.eq.holds (subFlags a b) = true ↔ a = b := by
  show decide (a - b = 0) = true ↔ _
  rw [decide_eq_true_eq]
  constructor
  · intro zero
    exact BitVec.eq_of_toNat_eq (by bv_omega)
  · rintro rfl
    exact BitVec.sub_self a

@[simp] theorem holds_ne : Cond.ne.holds (subFlags a b) = true ↔ a ≠ b := by
  rw [← not_iff_not, not_not, ← holds_eq a b]
  simp [Cond.holds]

@[simp] theorem holds_lo : Cond.lo.holds (subFlags a b) = true ↔ a.toNat < b.toNat := by
  simp [Cond.holds, subFlags]

@[simp] theorem holds_ge : Cond.ge.holds (subFlags a b) = true ↔ b.toInt ≤ a.toInt := by
  rw [← sub_sign]
  simp [Cond.holds, subFlags]

@[simp] theorem holds_lt : Cond.lt.holds (subFlags a b) = true ↔ a.toInt < b.toInt := by
  rw [← not_iff_not, not_lt, ← holds_ge]
  simp [Cond.holds]

@[simp] theorem holds_gt : Cond.gt.holds (subFlags a b) = true ↔ b.toInt < a.toInt := by
  have differ : Cond.gt.holds (subFlags a b) = true ↔ ¬ a = b ∧ b.toInt ≤ a.toInt := by
    rw [← holds_ge, ← holds_eq]
    simp [Cond.holds]
  rw [differ, lt_iff_le_and_ne, and_comm, ne_eq, BitVec.toInt_inj, eq_comm]

end Conditions

theorem toInt_small (small : n < 2 ^ 63) : (BitVec.ofNat 64 n).toInt = n := by
  rw [BitVec.toInt_eq_toNat_of_lt]
  all_goals
    rw [BitVec.toNat_ofNat]
    omega

theorem ofNat_succ_sub (n : Nat) : BitVec.ofNat 64 (n + 1) - 1 = BitVec.ofNat 64 n := by
  rw [BitVec.ofNat_add]
  exact BitVec.add_sub_cancel ..

/-! ## Reading back -/

namespace Core
variable (c : Core) (value : Word)

@[simp] theorem get_x (n : Fin 31) : c.get (.x n) = c.x n := rfl

@[simp] theorem get_xzr : c.get .xzr = 0 := rfl

@[simp] theorem set_xzr : c.set .xzr value = c := rfl

@[simp] theorem x_set_x (n m : Fin 31) : (c.set (.x n) value).x m = if m = n then value else c.x m :=
  Function.update_apply ..

@[simp] theorem x_set_sp (n : Fin 31) : (c.set .sp value).x n = c.x n := rfl

@[simp] theorem sp_set_x (n : Fin 31) : (c.set (.x n) value).get .sp = c.get .sp := rfl

@[simp] theorem sp_set_sp : (c.set .sp value).get .sp = value := Function.update_self ..

@[simp] theorem sys_set_x (n : Fin 31) : (c.set (.x n) value).sys = c.sys := rfl

theorem sys_set_sp : (c.set .sp value).sys = Function.update c.sys c.mode.stack value := rfl

@[simp] theorem mem_set (r : Reg) : (c.set r value).mem = c.mem := by cases r <;> rfl

@[simp] theorem mode_set (r : Reg) : (c.set r value).mode = c.mode := by cases r <;> rfl

@[simp] theorem flags_set (r : Reg) : (c.set r value).flags = c.flags := by cases r <;> rfl

@[simp] theorem geometry_set (r : Reg) : (c.set r value).geometry = c.geometry := by cases r <;> rfl

@[simp] theorem log_set (r : Reg) : (c.set r value).log = c.log := by cases r <;> rfl

variable (flags : Flags) (memory : Mem) (event : Event) (r : SysReg)

@[simp] theorem x_setFlags : (c.setFlags flags).x = c.x := rfl

@[simp] theorem sp_setFlags : (c.setFlags flags).get .sp = c.get .sp := rfl

@[simp] theorem sys_setFlags : (c.setFlags flags).sys = c.sys := rfl

@[simp] theorem mem_setFlags : (c.setFlags flags).mem = c.mem := rfl

@[simp] theorem mode_setFlags : (c.setFlags flags).mode = c.mode := rfl

@[simp] theorem flags_setFlags : (c.setFlags flags).flags = flags := rfl

@[simp] theorem geometry_setFlags : (c.setFlags flags).geometry = c.geometry := rfl

@[simp] theorem log_setFlags : (c.setFlags flags).log = c.log := rfl

@[simp] theorem x_setMem : (c.setMem memory).x = c.x := rfl

@[simp] theorem sp_setMem : (c.setMem memory).get .sp = c.get .sp := rfl

@[simp] theorem sys_setMem : (c.setMem memory).sys = c.sys := rfl

@[simp] theorem mem_setMem : (c.setMem memory).mem = memory := rfl

@[simp] theorem mode_setMem : (c.setMem memory).mode = c.mode := rfl

@[simp] theorem geometry_setMem : (c.setMem memory).geometry = c.geometry := rfl

@[simp] theorem log_setMem : (c.setMem memory).log = c.log := rfl

variable (address : Word)

@[simp] theorem x_storeWord : (c.storeWord address value).x = c.x := rfl

@[simp] theorem sp_storeWord : (c.storeWord address value).get .sp = c.get .sp := rfl

@[simp] theorem sys_storeWord : (c.storeWord address value).sys = c.sys := rfl

@[simp] theorem mem_storeWord : (c.storeWord address value).mem = storePtr c.mem address.toNat value.toNat := rfl

@[simp] theorem mode_storeWord : (c.storeWord address value).mode = c.mode := rfl

@[simp] theorem geometry_storeWord : (c.storeWord address value).geometry = c.geometry := rfl

@[simp] theorem log_storeWord : (c.storeWord address value).log = c.log := rfl

@[simp] theorem x_setSys : (c.setSys r value).x = c.x := rfl

@[simp] theorem sys_setSys : (c.setSys r value).sys = Function.update c.sys r value := rfl

theorem sp_setSys (other : ∀ el, r ≠ .sp el) : (c.setSys r value).get .sp = c.get .sp :=
  Function.update_of_ne (other _).symm ..

@[simp] theorem mem_setSys : (c.setSys r value).mem = c.mem := rfl

@[simp] theorem mode_setSys : (c.setSys r value).mode = c.mode := rfl

@[simp] theorem geometry_setSys : (c.setSys r value).geometry = c.geometry := rfl

@[simp] theorem log_setSys : (c.setSys r value).log = c.log := rfl

@[simp] theorem x_emit : (c.emit event).x = c.x := rfl

@[simp] theorem sp_emit : (c.emit event).get .sp = c.get .sp := rfl

@[simp] theorem sys_emit : (c.emit event).sys = c.sys := rfl

@[simp] theorem mem_emit : (c.emit event).mem = c.mem := rfl

@[simp] theorem mode_emit : (c.emit event).mode = c.mode := rfl

@[simp] theorem flags_emit : (c.emit event).flags = c.flags := rfl

@[simp] theorem geometry_emit : (c.emit event).geometry = c.geometry := rfl

@[simp] theorem log_emit : (c.emit event).log = c.log ++ [event] := rfl

@[simp] theorem readSys_set_x (n : Fin 31) (r : SysReg) : (c.set (.x n) value).readSys r = c.readSys r := by
  cases r <;> rfl

end Core

/-- A stack pointer is none of the other system registers. -/
theorem Mode.stack_ne {mode : Mode} {r : SysReg} (other : ∀ el, r ≠ .sp el) : r ≠ mode.stack := other _

@[simp] theorem run_nil (c : Core) : run [] c = c := rfl

@[simp] theorem run_cons (op : Op) (ops : List Op) (c : Core) : run (op :: ops) c = run ops (op.effect c) := rfl

theorem run_append (ops more : List Op) (c : Core) : run (ops ++ more) c = run more (run ops c) := List.foldl_append

/-- Of the general and system registers only those named can be different,
and memory is not. -/
structure Keeps (written : List (Fin 31)) (sysWritten : List SysReg) (c d : Core) : Prop where
  x : ∀ n, n ∉ written → d.x n = c.x n
  sys : ∀ r, r ∉ sysWritten → d.sys r = c.sys r
  mem : d.mem = c.mem
  mode : d.mode = c.mode
  geometry : d.geometry = c.geometry

theorem Keeps.trans {written more : List (Fin 31)} {sysWritten sysMore : List SysReg} {c d e : Core}
    (first : Keeps written sysWritten c d) (second : Keeps more sysMore d e) (within : more ⊆ written)
    (sysWithin : sysMore ⊆ sysWritten) : Keeps written sysWritten c e where
  x n other := (second.x n (fun member => other (within member))).trans (first.x n other)
  sys r other := (second.sys r (fun member => other (sysWithin member))).trans (first.sys r other)
  mem := second.mem.trans first.mem
  mode := second.mode.trans first.mode
  geometry := second.geometry.trans first.geometry

theorem Keeps.refl (written : List (Fin 31)) (sysWritten : List SysReg) (c : Core) : Keeps written sysWritten c c :=
  ⟨fun _ _ => rfl, fun _ _ => rfl, rfl, rfl, rfl⟩

theorem Keeps.mono {written more : List (Fin 31)} {sysWritten sysMore : List SysReg} {c d : Core}
    (keeps : Keeps written sysWritten c d) (within : written ⊆ more) (sysWithin : sysWritten ⊆ sysMore) :
    Keeps more sysMore c d :=
  { keeps with
    x := fun n other => keeps.x n (fun member => other (within member))
    sys := fun r other => keeps.sys r (fun member => other (sysWithin member)) }

theorem Keeps.sp {written : List (Fin 31)} {c d : Core} (keeps : Keeps written [] c d) : d.get .sp = c.get .sp := by
  show d.sys d.mode.stack = _
  rw [keeps.mode, keeps.sys _ List.not_mem_nil]
  rfl

/-- What is kept apart from memory. -/
theorem Keeps.setMem {written : List (Fin 31)} {sysWritten : List SysReg} {c d : Core}
    (keeps : Keeps written sysWritten c d) (memory : Mem) :
    Keeps written sysWritten (c.setMem memory) (d.setMem memory) :=
  ⟨keeps.x, keeps.sys, rfl, keeps.mode, keeps.geometry⟩

theorem Keeps.to_setMem {written : List (Fin 31)} {sysWritten : List SysReg} {c d : Core}
    (keeps : Keeps written sysWritten c d) (same : d.mem = memory) : Keeps written sysWritten (c.setMem memory) d :=
  ⟨keeps.x, keeps.sys, same, keeps.mode, keeps.geometry⟩

theorem Keeps.through {written : List (Fin 31)} {sysWritten : List SysReg} {c d e : Core} {before after : Mem}
    (first : Keeps written sysWritten (c.setMem before) d) (second : Keeps written sysWritten (d.setMem after) e) :
    Keeps written sysWritten (c.setMem after) e :=
  (first.setMem after).trans second (List.Subset.refl _) (List.Subset.refl _)

def Reg.general : Reg → List (Fin 31)
  | .x n => [n]
  | _ => []

/-- The general registers an operation can write. -/
def Op.writes : Op → List (Fin 31)
  | .mov d _ | .alu _ d _ _ | .subs d _ _ | .movk d _ _ | .ubfx d _ _ _ | .clz32 d _ | .mrs d _ => d.general
  | .ldr t base _ _ => base.general ++ t.general
  | .ldp t u base _ _ => base.general ++ t.general ++ u.general
  | .str _ base _ _ | .stp _ _ base _ _ => base.general
  | _ => []

/-- The system registers an operation can write. -/
def Op.sysWrites : Op → List SysReg
  | .msr r _ => [r]
  | _ => []

/-- No memory and no stack pointer is written. -/
def Op.plain : Op → Bool
  | .mov d _ | .alu _ d _ _ | .subs d _ _ | .movk d _ _ | .ubfx d _ _ _ | .clz32 d _ | .mrs d _ => d ≠ .sp
  | .ldr t base _ _ => t ≠ .sp && base ≠ .sp
  | .ldp t u base _ _ => t ≠ .sp && u ≠ .sp && base ≠ .sp
  | .str .. | .stp .. => false
  | _ => true

theorem set_keeps (c : Core) (value : Word) (plain : d ≠ .sp) : Keeps d.general [] c (c.set d value) := by
  cases d with
  | x n =>
    refine ⟨fun m other => ?_, fun _ _ => rfl, rfl, rfl, rfl⟩
    rw [Core.x_set_x, if_neg (fun same => other (by rw [same]; exact List.mem_singleton_self n))]
  | sp => exact absurd rfl plain
  | xzr => exact .refl ..

theorem emit_keeps (c : Core) (event : Event) : Keeps [] [] c (c.emit event) :=
  ⟨fun _ _ => rfl, fun _ _ => rfl, rfl, rfl, rfl⟩

private theorem writeBack_keeps (c : Core) (base : Reg) (address offset : Word) (index : Index) (plain : base ≠ .sp) :
    Keeps base.general [] c (index.writeBack c base address offset) := by
  cases index with
  | offset => exact .refl ..
  | pre | post => exact set_keeps c _ plain

theorem Op.keeps (c : Core) (op : Op) (plain : op.plain = true) : Keeps op.writes op.sysWrites c (op.effect c) := by
  cases op with
  | mov | alu | movk | ubfx | clz32 | mrs => exact set_keeps c _ (of_decide_eq_true plain)
  | subs d n m =>
    have set := set_keeps (c.setFlags (subFlags (c.get n) (m.eval c))) (c.get n - m.eval c) (of_decide_eq_true plain)
    exact ⟨set.x, set.sys, set.mem, set.mode, set.geometry⟩
  | ldr t base offset index =>
    simp only [Op.plain, ne_eq, decide_not, Bool.and_eq_true, Bool.not_eq_true', decide_eq_false_iff_not] at plain
    exact ((writeBack_keeps c base _ _ index plain.2).mono (List.subset_append_left ..) (List.Subset.refl _)).trans
      (set_keeps _ _ plain.1) (List.subset_append_right ..) (List.Subset.refl _)
  | ldp t u base offset index =>
    simp only [Op.plain, ne_eq, decide_not, Bool.and_eq_true, Bool.not_eq_true', decide_eq_false_iff_not] at plain
    have first := (writeBack_keeps c base (c.get base) offset index plain.2).mono
      (List.subset_append_left _ (t.general ++ u.general)) (List.Subset.refl _)
    rw [← List.append_assoc] at first
    exact (first.trans (set_keeps _ _ plain.1.1) (fun n member => by simp [member]) (List.Subset.refl _)).trans
      (set_keeps _ _ plain.1.2) (fun n member => by simp [member]) (List.Subset.refl _)
  | str | stp => cases plain
  | msr r n =>
    refine ⟨fun _ _ => rfl, fun q other => ?_, rfl, rfl, rfl⟩
    exact Function.update_of_ne (fun same => other (by rw [same]; exact List.mem_singleton_self r)) ..
  | dc | ic | tlbi | isb | dsb | nop => exact ⟨fun _ _ => rfl, fun _ _ => rfl, rfl, rfl, rfl⟩

theorem run_keeps (ops : List Op) (plain : ops.all Op.plain = true) (c : Core) :
    Keeps (ops.flatMap Op.writes) (ops.flatMap Op.sysWrites) c (run ops c) := by
  induction ops generalizing c with
  | nil => exact .refl ..
  | cons op ops ih =>
    rw [List.all_cons, Bool.and_eq_true] at plain
    exact ((op.keeps c plain.1).mono (List.subset_append_left ..) (List.subset_append_left ..)).trans
      (ih plain.2 (op.effect c)) (List.subset_append_right ..) (List.subset_append_right ..)

/-! ## The stack -/

/-- `stp t, u, [sp, #-16]!`. -/
@[irreducible] def push (pair : Fin 31 × Fin 31) : Op := .stp (.x pair.1) (.x pair.2) .sp (-16) .pre

/-- `ldp t, u, [sp], #16`. -/
@[irreducible] def pop (pair : Fin 31 × Fin 31) : Op := .ldp (.x pair.1) (.x pair.2) .sp 16 .post

/-- The words from the stack pointer on. -/
structure Stacked (c : Core) (words : List Word) : Prop where
  held : ∀ i w, words[i]? = some w → loadPtr c.mem ((c.get .sp).toNat + 8 * i) = w.toNat
  fits : (c.get .sp).toNat + 8 * words.length ≤ 2 ^ 64

/-- The registers of a list of pairs. -/
def pairRegs (pairs : List (Fin 31 × Fin 31)) : List (Fin 31) := pairs.flatMap (fun pair => [pair.1, pair.2])

section Stack
variable {c : Core} {words : List Word} {pair : Fin 31 × Fin 31} {pairs : List (Fin 31 × Fin 31)}

theorem Stacked.of_agree {d : Core} (stacked : Stacked c words) (same : d.get .sp = c.get .sp)
    (agree : Agree d.mem c.mem (c.get .sp).toNat (8 * words.length)) : Stacked d words := by
  refine ⟨fun i w found => ?_, by rw [same]; exact stacked.fits⟩
  have inside := (List.getElem?_eq_some_iff.mp found).1
  rw [same, loadPtr_agree (agree.mono (by omega) (by omega))]
  exact stacked.held i w found

theorem Stacked.set_x (stacked : Stacked c words) (n : Fin 31) (value : Word) : Stacked (c.set (.x n) value) words :=
  ⟨stacked.held, stacked.fits⟩

theorem Stacked.congr {d : Core} (stacked : Stacked c words) (sp : d.get .sp = c.get .sp) (mem : d.mem = c.mem) :
    Stacked d words := stacked.of_agree sp (fun cell _ _ => congrFun mem cell)

theorem Stacked.load (stacked : Stacked c words) (found : words[i]? = some w) :
    c.loadWord (c.get .sp + BitVec.ofNat 64 (8 * i)) = w := by
  have inside := (List.getElem?_eq_some_iff.mp found).1
  have fits := stacked.fits
  have address : (c.get .sp + BitVec.ofNat 64 (8 * i)).toNat = (c.get .sp).toNat + 8 * i := by
    rw [BitVec.toNat_add, BitVec.toNat_ofNat]
    omega
  rw [Core.loadWord, address, stacked.held i w found, BitVec.ofNat_toNat, BitVec.setWidth_eq]

theorem stp_pre (pair : Fin 31 × Fin 31) (offset : Word) : (Op.stp (.x pair.1) (.x pair.2) .sp offset .pre).effect c =
    ((c.storeWord (c.get .sp + offset) (c.x pair.1)).storeWord (c.get .sp + offset + 8) (c.x pair.2)).set .sp
      (c.get .sp + offset) := rfl

private theorem ldp_post (offset : Word) : (Op.ldp (.x pair.1) (.x pair.2) .sp offset .post).effect c =
    ((c.set .sp (c.get .sp + offset)).set (.x pair.1) (c.loadWord (c.get .sp))).set (.x pair.2)
      (c.loadWord (c.get .sp + 8)) := rfl

theorem push_sp (pair : Fin 31 × Fin 31) (room : 16 ≤ (c.get .sp).toNat) :
    (((push pair).effect c).get .sp).toNat = (c.get .sp).toNat - 16 := by
  rw [push, stp_pre, Core.sp_set_sp]
  bv_omega

private theorem push_mem (pair : Fin 31 × Fin 31) (room : 16 ≤ (c.get .sp).toNat) : ((push pair).effect c).mem =
    storePtr (storePtr c.mem ((c.get .sp).toNat - 16) (c.x pair.1).toNat) ((c.get .sp).toNat - 8)
    (c.x pair.2).toNat := by
  have low : (c.get .sp + -16).toNat = (c.get .sp).toNat - 16 := by bv_omega
  have high : (c.get .sp + -16 + 8).toNat = (c.get .sp).toNat - 8 := by bv_omega
  rw [push, stp_pre, Core.mem_set, Core.storeWord, Core.storeWord, low, high]
  rfl

/-- A push writes nothing but its two words. -/
theorem push_outside (pair : Fin 31 × Fin 31) (room : 16 ≤ (c.get .sp).toNat)
    (out : cell < (c.get .sp).toNat - 16 ∨ (c.get .sp).toNat ≤ cell) : ((push pair).effect c).mem cell = c.mem cell := by
  rw [push_mem pair room]
  have apart : Agree (storePtr (storePtr c.mem ((c.get .sp).toNat - 16) (c.x pair.1).toNat) ((c.get .sp).toNat - 8)
      (c.x pair.2).toNat) c.mem cell 1 := (storePtr_agree (by omega)).trans (storePtr_agree (by omega))
  exact apart cell le_rfl (by omega)

/-- A push puts two words in front and writes nothing above. -/
theorem Stacked.push (stacked : Stacked c words) (pair : Fin 31 × Fin 31) (room : 16 ≤ (c.get .sp).toNat) :
    Stacked ((push pair).effect c) (c.x pair.1 :: c.x pair.2 :: words) := by
  have fits := stacked.fits
  refine ⟨fun i w found => ?_, by rw [push_sp pair room]; simp only [List.length_cons]; omega⟩
  rw [push_sp pair room, push_mem pair room]
  match i with
  | 0 =>
    cases Option.some.inj found
    rw [loadPtr_storePtr_apart (by omega), Nat.mul_zero, Nat.add_zero, loadPtr_storePtr_same (c.x pair.1).isLt]
  | 1 =>
    cases Option.some.inj found
    rw [show (c.get .sp).toNat - 16 + 8 * 1 = (c.get .sp).toNat - 8 by omega, loadPtr_storePtr_same (c.x pair.2).isLt]
  | i + 2 =>
    rw [loadPtr_storePtr_apart (by omega), loadPtr_storePtr_apart (by omega),
      show (c.get .sp).toNat - 16 + 8 * (i + 2) = (c.get .sp).toNat + 8 * i by omega]
    exact stacked.held i w found

/-- Apart from the general registers, the stack pointer and memory, nothing
is different. -/
structure Alike (c d : Core) : Prop where
  flags : d.flags = c.flags
  mode : d.mode = c.mode
  geometry : d.geometry = c.geometry
  log : d.log = c.log
  sys : ∀ r, r ≠ c.mode.stack → d.sys r = c.sys r

theorem Alike.refl (c : Core) : Alike c c := ⟨rfl, rfl, rfl, rfl, fun _ _ => rfl⟩

theorem Alike.trans {c d e : Core} (first : Alike c d) (second : Alike d e) : Alike c e where
  flags := second.flags.trans first.flags
  mode := second.mode.trans first.mode
  geometry := second.geometry.trans first.geometry
  log := second.log.trans first.log
  sys r other := (second.sys r (by rwa [first.mode])).trans (first.sys r other)

theorem set_x_alike (c : Core) (n : Fin 31) (value : Word) : Alike c (c.set (.x n) value) :=
  ⟨rfl, rfl, rfl, rfl, fun _ _ => rfl⟩

private theorem stp_alike (offset : Word) : Alike c ((Op.stp (.x pair.1) (.x pair.2) .sp offset .pre).effect c) ∧
    ((Op.stp (.x pair.1) (.x pair.2) .sp offset .pre).effect c).x = c.x :=
  ⟨⟨rfl, rfl, rfl, rfl, fun _ other => Function.update_of_ne other ..⟩, rfl⟩

theorem push_alike (c : Core) (pair : Fin 31 × Fin 31) : Alike c ((push pair).effect c) := by
  rw [push]
  exact (stp_alike _).1

theorem push_x (c : Core) (pair : Fin 31 × Fin 31) : ((push pair).effect c).x = c.x := by
  rw [push]
  exact (stp_alike _).2

theorem pop_alike (c : Core) (pair : Fin 31 × Fin 31) : Alike c ((pop pair).effect c) := by
  rw [pop]
  exact ⟨rfl, rfl, rfl, rfl, fun _ other => Function.update_of_ne other ..⟩

private theorem pairRegs_cons : pairRegs (pair :: pairs) = pair.1 :: pair.2 :: pairRegs pairs := rfl

private theorem pairRegs_reverse_cons :
    pairRegs (pair :: pairs).reverse = pairRegs pairs.reverse ++ [pair.1, pair.2] := by
  unfold pairRegs
  rw [List.reverse_cons, List.flatMap_append]
  rfl

/-- What pushes do: the registers are on the stack, the last pair first. -/
structure Pushed (pairs : List (Fin 31 × Fin 31)) (words : List Word) (c d : Core) : Prop extends Alike c d where
  stacked : Stacked d ((pairRegs pairs.reverse).map c.x ++ words)
  x : d.x = c.x
  sp : (d.get .sp).toNat = (c.get .sp).toNat - 16 * pairs.length
  outside : ∀ cell, cell < (c.get .sp).toNat - 16 * pairs.length ∨ (c.get .sp).toNat ≤ cell → d.mem cell = c.mem cell

theorem pushes (stacked : Stacked c words) (room : 16 * pairs.length ≤ (c.get .sp).toNat) :
    Pushed pairs words c (run (pairs.map push) c) := by
  induction pairs generalizing c words with
  | nil => exact ⟨.refl c, stacked, rfl, by simp [run], fun _ _ => rfl⟩
  | cons pair pairs ih =>
    rw [List.length_cons] at room
    have first := push_sp pair (show 16 ≤ (c.get .sp).toNat by omega)
    have rest := ih (stacked.push pair (by omega)) (by omega)
    rw [List.map_cons, run_cons]
    refine ⟨(push_alike c pair).trans rest.toAlike, ?_, rest.x.trans (push_x c pair), ?_, fun cell out => ?_⟩
    · rw [pairRegs_reverse_cons, List.map_append, List.append_assoc]
      have below := rest.stacked
      rwa [push_x] at below
    · rw [rest.sp, first, List.length_cons]
      omega
    · rw [List.length_cons] at out
      rw [rest.outside cell (by omega), push_outside pair (by omega) (by omega)]

theorem pop_sp (pair : Fin 31 × Fin 31) : ((pop pair).effect c).get .sp = c.get .sp + 16 := by
  rw [pop, ldp_post, Core.sp_set_x, Core.sp_set_x, Core.sp_set_sp]

theorem pop_mem (c : Core) (pair : Fin 31 × Fin 31) : ((pop pair).effect c).mem = c.mem := by
  rw [pop]
  rfl

/-- A pop takes two words into the registers. -/
theorem pop_x (stacked : Stacked c (w :: v :: words)) (pair : Fin 31 × Fin 31) (n : Fin 31) :
    ((pop pair).effect c).x n = if n = pair.2 then v else if n = pair.1 then w else c.x n := by
  have first : c.loadWord (c.get .sp) = w := by
    rw [← stacked.load (i := 0) rfl]
    exact congrArg c.loadWord (BitVec.add_zero _).symm
  have second : c.loadWord (c.get .sp + 8) = v := stacked.load (i := 1) rfl
  rw [pop, ldp_post, first, second]
  simp only [Core.x_set_x, Core.x_set_sp]

theorem Stacked.pop (stacked : Stacked c (w :: v :: words)) (pair : Fin 31 × Fin 31) :
    Stacked ((pop pair).effect c) words := by
  have fits := stacked.fits
  simp only [List.length_cons] at fits
  cases words with
  | nil =>
    refine ⟨fun i w found => by simp at found, ?_⟩
    rw [List.length_nil, Nat.mul_zero, Nat.add_zero]
    exact (((Aarch64.pop pair).effect c).get .sp).isLt.le
  | cons head tail =>
    rw [List.length_cons] at fits
    have above : (((Aarch64.pop pair).effect c).get .sp).toNat = (c.get .sp).toNat + 16 := by
      rw [pop_sp]
      bv_omega
    refine ⟨fun i w found => ?_, by rw [above, List.length_cons]; omega⟩
    rw [above, pop_mem, show (c.get .sp).toNat + 16 + 8 * i = (c.get .sp).toNat + 8 * (i + 2) by omega]
    exact stacked.held (i + 2) w found

/-- What pops do: the registers have the values that were on the stack. -/
structure Popped (pairs : List (Fin 31 × Fin 31)) (values : Fin 31 → Word) (c d : Core) : Prop extends Alike c d where
  popped : ∀ n, n ∈ pairRegs pairs → d.x n = values n
  others : ∀ n, n ∉ pairRegs pairs → d.x n = c.x n
  sp : d.get .sp = c.get .sp + BitVec.ofNat 64 (16 * pairs.length)
  mem : d.mem = c.mem

theorem pops {values : Fin 31 → Word} (stacked : Stacked c ((pairRegs pairs).map values ++ words)) :
    Popped pairs values c (run (pairs.map pop) c) := by
  induction pairs generalizing c with
  | nil => exact ⟨.refl c, fun _ member => absurd member List.not_mem_nil, fun _ _ => rfl, (BitVec.add_zero _).symm, rfl⟩
  | cons pair pairs ih =>
    rw [pairRegs_cons] at stacked
    have rest := ih (stacked.pop pair)
    rw [List.map_cons, run_cons]
    refine ⟨(pop_alike c pair).trans rest.toAlike, fun n member => ?_, fun n out => ?_, ?_,
      rest.mem.trans (pop_mem c pair)⟩
    · by_cases later : n ∈ pairRegs pairs
      · exact rest.popped n later
      · rw [rest.others n later, pop_x stacked]
        rw [pairRegs_cons, List.mem_cons, List.mem_cons] at member
        split_ifs <;> simp_all
    · rw [pairRegs_cons, List.mem_cons, List.mem_cons] at out
      rw [rest.others n (by tauto), pop_x stacked, if_neg (by tauto), if_neg (by tauto)]
    · rw [rest.sp, pop_sp, List.length_cons, Nat.mul_succ, Nat.add_comm, BitVec.ofNat_add, BitVec.add_assoc]
      rfl

end Stack

end RockOs.Aarch64
