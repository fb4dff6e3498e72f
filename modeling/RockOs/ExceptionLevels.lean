import RockOs.Assembly

/-! `switch_el` of `arch/arm64/include/asm/macro.h`: code that can run at any
of three exception levels branches on the one it runs at. -/
namespace RockOs.ExceptionLevels
open Aarch64 Assembly

variable {L : Type}

def switchEl (xreg : Reg) (el3 el2 el1 : L) : List (Instr L) :=
  [.op (.mrs xreg .currentEl),
    .op (.subs .xzr xreg (.imm 0xc)),
    .bCond .eq el3,
    .op (.subs .xzr xreg (.imm 0x8)),
    .bCond .eq el2,
    .op (.subs .xzr xreg (.imm 0x4)),
    .bCond .eq el1]

/-- The label of a level. -/
def target (el3 el2 el1 : L) (el : El) : L := if el = 3 then el3 else if el = 2 then el2 else el1

/-- The core after the branch: the register and the flags have been used. -/
def switched (n : Fin 31) (c : Core) : Core :=
  (c.set (.x n) (c.readSys .currentEl)).setFlags (subFlags (c.readSys .currentEl) (c.readSys .currentEl))

variable {im : Image L} {base : Word} {lines : List (Line L)} {c : Core} {n : Fin 31} {el3 el2 el1 : L}

theorem switched_x (n m : Fin 31) : (switched n c).x m = if m = n then c.readSys .currentEl else c.x m := by
  rw [switched, Core.x_setFlags, Core.x_set_x]

theorem switched_sp (n : Fin 31) : (switched n c).get .sp = c.get .sp := by
  rw [switched, Core.sp_setFlags, Core.sp_set_x]

theorem switched_sys (n : Fin 31) : (switched n c).sys = c.sys := by
  rw [switched, Core.sys_setFlags, Core.sys_set_x]

theorem switched_mode (n : Fin 31) : (switched n c).mode = c.mode := by
  rw [switched, Core.mode_setFlags, Core.mode_set]

theorem switched_mem (n : Fin 31) : (switched n c).mem = c.mem := by
  rw [switched, Core.mem_setFlags, Core.mem_set]

theorem switched_log (n : Fin 31) : (switched n c).log = c.log := by
  rw [switched, Core.log_setFlags, Core.log_set]

theorem levels : ∀ el : El, el ≠ 0 → el = 1 ∨ el = 2 ∨ el = 3 := by decide

/-- Where a branch on the compared level goes. -/
private theorem compare (linked : Linked im base lines)
    (first : (instrs 0 lines)[k]? = some (.op (.subs .xzr (.x n) (.imm v))))
    (second : (instrs 0 lines)[k + 1]? = some (.bCond .eq label)) (flags : Flags) :
    (c.x n = v → (label, j) ∈ labels 0 lines →
      Reaches im ⟨place base k, c.setFlags flags⟩ ⟨place base j, c.setFlags (subFlags (c.x n) (c.x n))⟩) ∧
    (c.x n ≠ v → Reaches im ⟨place base k, c.setFlags flags⟩ ⟨place base (k + 2), c.setFlags (subFlags (c.x n) v)⟩) := by
  have compared : Reaches im ⟨place base k, c.setFlags flags⟩ ⟨place base (k + 1), c.setFlags (subFlags (c.x n) v)⟩ :=
    linked.op first
  constructor
  · rintro rfl there
    exact compared.trans (linked.bTaken second there ((holds_eq _ _).mpr rfl))
  · exact fun other => compared.trans (linked.bPassed second (mt (holds_eq _ _).mp other))

/-- Above level 0 the branch for the level is taken. -/
theorem switchEl_reaches (linked : Linked im base lines) (k : Nat) (held : Holds lines k (switchEl (.x n) el3 el2 el1))
    (above : c.mode.el ≠ 0) (there : (target el3 el2 el1 c.mode.el, j) ∈ labels 0 lines) :
    Reaches im ⟨place base k, c⟩ ⟨place base j, switched n c⟩ := by
  have read : Reaches im ⟨place base k, c⟩ ⟨place base (k + 1), c.set (.x n) (c.readSys .currentEl)⟩ :=
    linked.op (held.at (i := 0) rfl)
  have level : (c.set (.x n) (c.readSys .currentEl)).x n = c.readSys .currentEl := by
    rw [Core.x_set_x, if_pos rfl]
  have value : c.readSys .currentEl = BitVec.ofNat 64 (c.mode.el.val <<< 2) := rfl
  have three := compare (c := c.set (.x n) (c.readSys .currentEl)) (v := 0xc) (j := j) linked
    (held.at (i := 1) rfl) (held.at (i := 2) rfl) c.flags
  have two := compare (c := c.set (.x n) (c.readSys .currentEl)) (v := 0x8) (j := j) linked
    (held.at (i := 3) rfl) (held.at (i := 4) rfl) (subFlags (c.readSys .currentEl) 0xc)
  have one := compare (c := c.set (.x n) (c.readSys .currentEl)) (v := 0x4) (j := j) linked
    (held.at (i := 5) rfl) (held.at (i := 6) rfl) (subFlags (c.readSys .currentEl) 0x8)
  rw [level] at three two one
  rcases levels c.mode.el above with at1 | at2 | at3
  · rw [at1] at there value
    have differs : c.readSys .currentEl ≠ 0xc ∧ c.readSys .currentEl ≠ 0x8 := by
      rw [value]
      decide
    exact read.trans ((three.2 differs.1).trans ((two.2 differs.2).trans (one.1 value there)))
  · rw [at2] at there value
    have differs : c.readSys .currentEl ≠ 0xc := by
      rw [value]
      decide
    exact read.trans ((three.2 differs).trans (two.1 value there))
  · rw [at3] at there value
    exact read.trans (three.1 value there)

theorem switched_keeps (n : Fin 31) (c : Core) : Keeps [n] [] c (switched n c) where
  x m other := by rw [switched_x, if_neg (List.mem_singleton.not.mp other)]
  sys r _ := congrFun (switched_sys n) r
  mem := switched_mem n
  mode := switched_mode n
  geometry := by rw [switched, Core.geometry_setFlags, Core.geometry_set]

/-! ## One way for each level -/

/-- The code behind `switch_el`, in the order of its labels. -/
def ways (done : L) (ops : El → List Op) : List (Instr L) :=
  (ops 3).map .op ++ ([.b done] ++ ((ops 2).map .op ++ ([.b done] ++ (ops 1).map .op)))

/-- `switch_el` with its three ways, which meet again behind the last. -/
def byLevel (xreg : Reg) (el3 el2 el1 done : L) (ops : El → List Op) : List (Line L) := List.flatten [
  (switchEl xreg el3 el2 el1).map .ins,
  [.label el3], straight (ops 3), [.ins (.b done)],
  [.label el2], straight (ops 2), [.ins (.b done)],
  [.label el1], straight (ops 1),
  [.label done]]

/-- The way of the level is taken. -/
theorem byLevel_reaches {done : L} {ops : El → List Op} (linked : Linked im base lines) (k size : Nat)
    (held : Holds lines k (switchEl (.x n) el3 el2 el1 ++ ways done ops))
    (sizes : ∀ el, el ≠ 0 → (ops el).length = size) (three : (el3, k + 7) ∈ labels 0 lines)
    (two : (el2, k + 7 + (size + 1)) ∈ labels 0 lines) (one : (el1, k + 7 + 2 * (size + 1)) ∈ labels 0 lines)
    (meet : (done, k + 7 + 2 * (size + 1) + size) ∈ labels 0 lines) (above : c.mode.el ≠ 0) :
    Reaches im ⟨place base k, c⟩ ⟨place base (k + 7 + 2 * (size + 1) + size), run (ops c.mode.el) (switched n c)⟩ := by
  have held3 : Holds lines (k + 7) (ways done ops) := held.right
  have held2 := held3.right.right
  have held1 := held2.right.right
  have exit3 := held3.right.left.at (i := 0) rfl
  have exit2 := held2.right.left.at (i := 0) rfl
  simp only [List.length_map, List.length_singleton, sizes 3 (by decide), sizes 2 (by decide)] at held2 held1 exit3 exit2
  have jump : ∀ j, (target el3 el2 el1 c.mode.el, j) ∈ labels 0 lines →
      Reaches im ⟨place base k, c⟩ ⟨place base j, switched n c⟩ :=
    fun j there => switchEl_reaches linked k held.left above there
  rcases levels c.mode.el above with at1 | at2 | at3
  · have there := jump (k + 7 + 2 * (size + 1)) (by rw [at1]; exact one)
    have way := linked.ops (k + 7 + 2 * (size + 1)) (ops 1) (switched n c) (by
      rw [show k + 7 + 2 * (size + 1) = k + 7 + size + 1 + size + 1 by omega]; exact held1)
    rw [sizes 1 (by decide)] at way
    rw [at1]
    exact there.trans way
  · have there := jump (k + 7 + (size + 1)) (by rw [at2]; exact two)
    have way := linked.ops (k + 7 + (size + 1)) (ops 2) (switched n c) held2.left
    rw [sizes 2 (by decide)] at way
    rw [at2]
    exact (there.trans way).trans (linked.b exit2 meet)
  · have there := jump (k + 7) (by rw [at3]; exact three)
    have way := linked.ops (k + 7) (ops 3) (switched n c) held3.left
    rw [sizes 3 (by decide)] at way
    rw [at3]
    exact (there.trans way).trans (linked.b exit3 meet)

end RockOs.ExceptionLevels
