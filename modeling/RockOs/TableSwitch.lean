import RockOs.ExceptionLevels
import RockOs.TranslationUnit

/-! `__asm_switch_ttbr` of `arch/arm64/kernel/cache.S` and
`__asm_invalidate_tlb_all` of `tlb.S`: the change of the translation tables that
the code itself runs on. -/
namespace RockOs.TableSwitch
open Aarch64 Assembly ExceptionLevels TranslationUnit

/-! ## The code -/

/-- The two functions, and the labels `3`, `2`, `1` and `0` of each `switch_el`. -/
inductive Label where
  | invalidateTlbAll
  | switchTtbr
  | numbered (block : Fin 5) (label : Fin 4)
  deriving DecidableEq, Repr

def tlbiOf (el : El) : TlbiOp := if el = 3 then .alle3 else if el = 2 then .alle2 else .vmalle1

/-- A `switch_el` with the labels of its block. -/
def switchBlock (xreg : Reg) (block : Fin 5) (ops : El → List Op) : List (Line Label) :=
  byLevel xreg (.numbered block 3) (.numbered block 2) (.numbered block 1) (.numbered block 0) ops

/-- `__asm_invalidate_tlb_all`. -/
def invalidateTlbAll : List (Line Label) := List.flatten [
  [.label .invalidateTlbAll], switchBlock (.x 9) 0 (fun el => [.tlbi (tlbiOf el), .dsb, .isb]),
  [.ins (.ret lr)]]

/-- `CR_M | CR_C | CR_I`. -/
def caches : Word := 0x1005

/-- `__asm_switch_ttbr`. Its `movn` moves the complement of a constant. -/
def switchTtbr : List (Line Label) := List.flatten [
  [.label .switchTtbr], switchBlock (.x 4) 1 (fun el => [.mrs (.x 2) (.sctlr el)]),
  straight [.mov (.x 1) (.imm (~~~caches)), .alu .and (.x 1) (.x 2) (.reg (.x 1))],
  switchBlock (.x 4) 2 (fun el => [.msr (.sctlr el) (.x 1)]),
  straight [.isb, .mov (.x 3) (.reg lr)], [.ins (.bl .invalidateTlbAll)],
  switchBlock (.x 4) 3 (fun el => [.msr (.ttbr0 el) (.x 0)]),
  straight [.isb],
  switchBlock (.x 4) 4 (fun el => [.msr (.sctlr el) (.x 2)]),
  straight [.isb], [.ins (.ret (.x 3))]]

/-! ## What it issues -/

variable {im : Image Label} {base baseTlb : Word} {c : Core}

private theorem run_after_switched (ops : List Op) (n : Fin 31) (plain : ops.all Op.plain = true) (c : Core) :
    Keeps (n :: ops.flatMap Op.writes) (ops.flatMap Op.sysWrites) c (run ops (switched n c)) :=
  ((switched_keeps n c).mono (by simp) (by simp)).trans (run_keeps ops plain _) (by simp) (by simp)

/-- A block at place `k`, with its labels. -/
structure HasBlock (lines : List (Line Label)) (n : Fin 31) (block : Fin 5) (ops : El → List Op) (k size : Nat) :
    Prop where
  held : Holds lines k (switchEl (.x n) (.numbered block 3) (.numbered block 2) (.numbered block 1) ++
    ways (.numbered block 0) ops)
  sizes : ∀ el, el ≠ 0 → (ops el).length = size
  three : (.numbered block 3, k + 7) ∈ labels 0 lines
  two : (.numbered block 2, k + 7 + (size + 1)) ∈ labels 0 lines
  one : (.numbered block 1, k + 7 + 2 * (size + 1)) ∈ labels 0 lines
  meet : (.numbered block 0, k + 7 + 2 * (size + 1) + size) ∈ labels 0 lines

theorem HasBlock.reaches {lines : List (Line Label)} {n : Fin 31} {block : Fin 5} {ops : El → List Op}
    (has : HasBlock lines n block ops k size) (linked : Linked im base lines) (above : c.mode.el ≠ 0) :
    Reaches im ⟨place base k, c⟩ ⟨place base (k + 7 + 2 * (size + 1) + size), run (ops c.mode.el) (switched n c)⟩ :=
  byLevel_reaches linked k size has.held has.sizes has.three has.two has.one has.meet above

private theorem invalidateTlbAll_block :
    HasBlock invalidateTlbAll 9 0 (fun el => [.tlbi (tlbiOf el), .dsb, .isb]) 0 3 :=
  ⟨rfl, fun _ _ => rfl, by decide, by decide, by decide, by decide⟩

private theorem invalidateTlbAll_reaches (linked : Linked im baseTlb invalidateTlbAll) (above : c.mode.el ≠ 0) :
    ∃ d, Reaches im ⟨im.addr .invalidateTlbAll, c⟩ ⟨c.x 30, d⟩ ∧ Keeps [9] [] c d ∧
      d.log = c.log ++ [.tlbi (tlbiOf c.mode.el), .dsb, .isb] := by
  have way := invalidateTlbAll_block.reaches linked above
  have keeps := run_after_switched [.tlbi (tlbiOf c.mode.el), .dsb, .isb] 9 rfl c
  have log : (run [.tlbi (tlbiOf c.mode.el), .dsb, .isb] (switched 9 c)).log =
      c.log ++ [.tlbi (tlbiOf c.mode.el), .dsb, .isb] := by
    simp only [run_cons, run_nil, Op.effect, Core.log_emit, switched_log, List.append_assoc]
    rfl
  generalize run [.tlbi (tlbiOf c.mode.el), .dsb, .isb] (switched 9 c) = d at way keeps log
  have link : d.get lr = c.x 30 := keeps.x 30 (by simp [Op.writes])
  refine ⟨d, ?_, keeps.mono (by simp [Op.writes]) (by simp [Op.sysWrites]), log⟩
  rw [linked.addr .invalidateTlbAll 0 (by decide), ← link]
  exact way.trans (linked.ret rfl)

/-- Everything a switch of the tables issues. -/
def switchEvents (el : El) (old new : Word) : List Event :=
  [.msr (.sctlr el) (old &&& ~~~caches), .isb, .tlbi (tlbiOf el), .dsb, .isb, .msr (.ttbr0 el) new, .isb,
    .msr (.sctlr el) old, .isb]

/-- A block that writes the register of the level. -/
theorem msr_block {lines : List (Line Label)} {r : El → SysReg} (n : Fin 31)
    (has : HasBlock lines 4 block (fun el => [.msr (r el) (.x n)]) k 1) (linked : Linked im base lines)
    (above : c.mode.el ≠ 0) (other : n ≠ 4) :
    ∃ d, Reaches im ⟨place base k, c⟩ ⟨place base (k + 12), d⟩ ∧ Keeps [4] [r c.mode.el] c d ∧
      d.sys (r c.mode.el) = c.x n ∧ d.log = c.log ++ [.msr (r c.mode.el) (c.x n)] := by
  have same : (switched 4 c).x n = c.x n := by rw [switched_x, if_neg other]
  refine ⟨_, has.reaches linked above, run_after_switched [.msr (r c.mode.el) (.x n)] 4 rfl c, ?_, ?_⟩
  · rw [run_cons, run_nil, Op.effect, Core.sys_emit, Core.sys_setSys, Function.update_self]
    exact same
  · show (switched 4 c).log ++ [.msr _ ((switched 4 c).x n)] = _
    rw [switched_log, same]

/-- The control register is read, and written without the caches. -/
theorem caches_off (linked : Linked im base switchTtbr) (above : c.mode.el ≠ 0) :
    ∃ d, Reaches im ⟨place base 0, c⟩ ⟨place base 28, d⟩ ∧ Keeps [1, 2, 3, 4] [.sctlr c.mode.el] c d ∧
      d.x 2 = c.sys (.sctlr c.mode.el) ∧ d.x 3 = c.x 30 ∧
      d.log = c.log ++ [.msr (.sctlr c.mode.el) (c.sys (.sctlr c.mode.el) &&& ~~~caches), .isb] := by
  have read : HasBlock switchTtbr 4 1 (fun el => [.mrs (.x 2) (.sctlr el)]) 0 1 :=
    ⟨rfl, fun _ _ => rfl, by decide, by decide, by decide, by decide⟩
  have write : HasBlock switchTtbr 4 2 (fun el => [.msr (.sctlr el) (.x 1)]) 14 1 :=
    ⟨rfl, fun _ _ => rfl, by decide, by decide, by decide, by decide⟩
  have reading := read.reaches linked above
  have readKeeps : Keeps [2, 4] [] c (run [.mrs (.x 2) (.sctlr c.mode.el)] (switched 4 c)) :=
    (run_after_switched _ 4 rfl c).mono (by simp [Op.writes, Reg.general]) (by simp [Op.sysWrites])
  have two : (run [.mrs (.x 2) (.sctlr c.mode.el)] (switched 4 c)).x 2 = c.sys (.sctlr c.mode.el) := by
    rw [← switched_sys (c := c) 4]
    simp [Op.effect, Core.readSys]
  have readLog : (run [.mrs (.x 2) (.sctlr c.mode.el)] (switched 4 c)).log = c.log := by
    simp [Op.effect, switched_log]
  generalize run [.mrs (.x 2) (.sctlr c.mode.el)] (switched 4 c) = m1 at reading readKeeps two readLog
  have clearing := linked.ops 12 [.mov (.x 1) (.imm (~~~caches)), .alu .and (.x 1) (.x 2) (.reg (.x 1))] m1 rfl
  have clearKeeps := run_keeps [.mov (.x 1) (.imm (~~~caches)), .alu .and (.x 1) (.x 2) (.reg (.x 1))] rfl m1
  have one : (run [.mov (.x 1) (.imm (~~~caches)), .alu .and (.x 1) (.x 2) (.reg (.x 1))] m1).x 1 = m1.x 2 &&&
      ~~~caches := by
    simp [Op.effect, Operand.eval, Alu.eval]
  have clearLog : (run [.mov (.x 1) (.imm (~~~caches)), .alu .and (.x 1) (.x 2) (.reg (.x 1))] m1).log = m1.log := by
    simp [Op.effect]
  generalize run [.mov (.x 1) (.imm (~~~caches)), .alu .and (.x 1) (.x 2) (.reg (.x 1))] m1 =
    m2 at clearing clearKeeps one clearLog
  have level : m2.mode.el = c.mode.el := by rw [clearKeeps.mode, readKeeps.mode]
  obtain ⟨m3, writing, writeKeeps, _, writeLog⟩ := msr_block 1 write linked (c := m2) (by rwa [level]) (by decide)
  rw [level] at writeKeeps writeLog
  have last := linked.ops 26 [.isb, .mov (.x 3) (.reg lr)] m3 rfl
  have lastKeeps := run_keeps [.isb, .mov (.x 3) (.reg lr)] rfl m3
  have three : (run [.isb, .mov (.x 3) (.reg lr)] m3).x 3 = m3.x 30 := by
    simp [Op.effect, Operand.eval]
  have lastLog : (run [.isb, .mov (.x 3) (.reg lr)] m3).log = m3.log ++ [.isb] := by
    simp [Op.effect]
  have keeps3 : Keeps [1, 2, 3, 4] [.sctlr c.mode.el] c m3 :=
    ((readKeeps.mono (by decide) (by simp)).trans clearKeeps (by decide) (by simp [Op.sysWrites])).trans writeKeeps
      (by decide) (by simp)
  refine ⟨_, ((reading.trans clearing).trans writing).trans last, keeps3.trans lastKeeps (by decide)
    (by simp [Op.sysWrites]), ?_, ?_, ?_⟩
  · rw [lastKeeps.x 2 (by decide), writeKeeps.x 2 (by decide), clearKeeps.x 2 (by decide), two]
  · rw [three, keeps3.x 30 (by decide)]
  · rw [lastLog, writeLog, clearLog, readLog, one, two, List.append_assoc]
    rfl

/-- The tables are written, and the control register as it was. -/
theorem caches_back (linked : Linked im base switchTtbr) (above : c.mode.el ≠ 0) :
    ∃ d, Reaches im ⟨place base 29, c⟩ ⟨c.x 3, d⟩ ∧ Keeps [4] [.sctlr c.mode.el, .ttbr0 c.mode.el] c d ∧
      d.sys (.sctlr c.mode.el) = c.x 2 ∧ d.sys (.ttbr0 c.mode.el) = c.x 0 ∧
      d.log = c.log ++ [.msr (.ttbr0 c.mode.el) (c.x 0), .isb, .msr (.sctlr c.mode.el) (c.x 2), .isb] := by
  have tables : HasBlock switchTtbr 4 3 (fun el => [.msr (.ttbr0 el) (.x 0)]) 29 1 :=
    ⟨rfl, fun _ _ => rfl, by decide, by decide, by decide, by decide⟩
  have control : HasBlock switchTtbr 4 4 (fun el => [.msr (.sctlr el) (.x 2)]) 42 1 :=
    ⟨rfl, fun _ _ => rfl, by decide, by decide, by decide, by decide⟩
  obtain ⟨m1, first, firstKeeps, table, firstLog⟩ := msr_block 0 tables linked above (by decide)
  have barrier := linked.op (k := 41) (c := m1) rfl
  have level : (m1.emit .isb).mode.el = c.mode.el := congrArg Mode.el firstKeeps.mode
  obtain ⟨m2, second, secondKeeps, written, secondLog⟩ :=
      msr_block 2 control linked (c := m1.emit .isb) (by rwa [level]) (by decide)
  rw [level] at secondKeeps written secondLog
  have last := linked.op (k := 54) (c := m2) rfl
  have back := linked.ret (k := 55) (c := m2.emit .isb) rfl
  have keeps : Keeps [4] [.sctlr c.mode.el, .ttbr0 c.mode.el] c m2 :=
    ((firstKeeps.mono (by simp) (by simp)).trans (emit_keeps ..) (by simp) (by simp)).trans secondKeeps (by simp)
      (by simp)
  have link : (m2.emit .isb).get (.x 3) = c.x 3 := keeps.x 3 (by decide)
  have two : (m1.emit .isb).x 2 = c.x 2 := firstKeeps.x 2 (by decide)
  rw [link] at back
  refine ⟨m2.emit .isb, (((first.trans barrier).trans second).trans last).trans back,
    keeps.trans (emit_keeps ..) (by simp) (by simp), written.trans two, ?_, ?_⟩
  · show m2.sys _ = _
    rw [secondKeeps.sys _ (by simp), ← table]
    rfl
  · show m2.log ++ _ = _
    rw [secondLog, two]
    show m1.log ++ _ ++ _ ++ _ = _
    rw [firstLog]
    simp only [List.append_assoc]
    rfl

private theorem switchTtbr_reaches (linkedTlb : Linked im baseTlb invalidateTlbAll) (linked : Linked im base switchTtbr)
    (above : c.mode.el ≠ 0) :
    ∃ d, Reaches im ⟨im.addr .switchTtbr, c⟩ ⟨c.x 30, d⟩ ∧ Keeps [1, 2, 3, 4, 9, 30] [.ttbr0 c.mode.el] c d ∧
      d.sys (.ttbr0 c.mode.el) = c.x 0 ∧ d.log = c.log ++ switchEvents c.mode.el (c.sys (.sctlr c.mode.el)) (c.x 0) := by
  obtain ⟨m1, first, firstKeeps, two, three, firstLog⟩ := caches_off linked above
  have called := linked.bl (k := 28) (c := m1) rfl
  have callKeeps : Keeps [30] [] m1 (m1.set lr (place base 29)) := set_keeps (d := lr) m1 _ (by decide)
  have level : (m1.set lr (place base 29)).mode.el = c.mode.el := by rw [callKeeps.mode, firstKeeps.mode]
  obtain ⟨m2, second, secondKeeps, secondLog⟩ :=
      invalidateTlbAll_reaches (c := m1.set lr (place base 29)) linkedTlb (by rwa [level])
  have returned : (m1.set lr (place base 29)).x 30 = place base 29 := by rw [Core.x_set_x, if_pos rfl]
  rw [returned] at second
  rw [level] at secondLog
  have keeps2 : Keeps [1, 2, 3, 4, 9, 30] [.sctlr c.mode.el] c m2 :=
    ((firstKeeps.mono (by decide) (by simp)).trans callKeeps (by decide) (by simp)).trans secondKeeps (by decide)
      (by simp)
  have level2 : m2.mode.el = c.mode.el := by rw [keeps2.mode]
  obtain ⟨d, last, lastKeeps, control, table, lastLog⟩ := caches_back (c := m2) linked (by rwa [level2])
  rw [level2] at lastKeeps control table lastLog
  have kept : ∀ n, n ∉ [30, 9] → m2.x n = m1.x n := fun n out => by
    rw [secondKeeps.x n (fun member => out (by simp_all)), callKeeps.x n (fun member => out (by simp_all))]
  rw [kept 3 (by decide), three] at last
  rw [kept 2 (by decide), two] at control lastLog
  have zero : m2.x 0 = c.x 0 := keeps2.x 0 (by decide)
  rw [zero] at table lastLog
  refine ⟨d, ?_, ⟨fun n out => ?_, fun r out => ?_, ?_, ?_, ?_⟩, table, ?_⟩
  · rw [linked.addr .switchTtbr 0 (by decide)]
    exact (((first.trans called).trans second).trans last)
  · rw [lastKeeps.x n (fun member => out (by simp_all)), keeps2.x n out]
  · by_cases same : r = .sctlr c.mode.el
    · rw [same, control]
    · rw [lastKeeps.sys r (by simp_all), keeps2.sys r (by simp_all)]
  · rw [lastKeeps.mem, keeps2.mem]
  · rw [lastKeeps.mode, keeps2.mode]
  · rw [lastKeeps.geometry, keeps2.geometry]
  · rw [lastLog, secondLog, Core.log_set, firstLog]
    simp only [List.append_assoc]
    rfl

/-! ## What the hardware makes of it -/

/-- The hardware is where the registers are, and neither a write nor a store is on
its way. -/
structure Follows {M E : Type} (hw : Hardware M E) (c : Core) (w : Walker M E) : Prop where
  late : w.late = []
  on : w.on = (c.sys (.sctlr hw.el)).getLsbD 0
  table : w.table = c.sys (.ttbr0 hw.el)
  seen : w.memory.unseen = []
  coherent : w.Coherent hw

section Switch
variable {M E : Type} {hw : Hardware M E} {w : Walker M E} {table : Word} {found : Set E} {last : M}

theorem tlbiLevel_tlbiOf (el : El) (above : el ≠ 0) : tlbiLevel (tlbiOf el) = el := by
  revert above
  revert el
  decide

private theorem caches_clear (old : Word) : (old &&& ~~~caches).getLsbD 0 = false := by
  rw [BitVec.getLsbD_and, show (~~~caches).getLsbD 0 = false by decide, Bool.and_false]

/-- Whatever the hardware does meanwhile, it walks one set of tables or the other,
and never uses entries of the other one. Stores that are on their way are seen
before the new tables are used. -/
theorem switch_guarded (old new : Word) (above : hw.el ≠ 0) (resting : Resting hw table found last [] w) :
    Guarded hw (Apart hw found (hw.find last new)) (Steady hw (old.getLsbD 0) new last)
      ((switchEvents hw.el old new).map .event) w := by
  have clear := caches_clear old
  refine .cons (resting_stable []) resting (fun v holds => holds.apart) (fun w resting => ?_)
  refine .cons (leaving_stable clear) (resting.msr_sctlr _) (fun v holds => holds.apart) (fun w leaving => ?_)
  refine .cons off_stable (leaving.isb clear) (fun v holds => apart_off holds.off) (fun w off => ?_)
  refine .cons emptying_stable (off.tlbi _ (tlbiLevel_tlbiOf hw.el above)) (fun v holds => apart_off holds.off)
    (fun w emptying => ?_)
  refine .cons clean_stable (emptying.dsb hw.el) (fun v holds => apart_off holds.off) (fun w clean => ?_)
  refine .cons clean_stable (clean.isb hw.el) (fun v holds => apart_off holds.off) (fun w clean => ?_)
  refine .cons empty_stable (clean.msr_ttbr0 new) (fun v holds => apart_off holds.off) (fun w empty => ?_)
  refine .cons ready_stable empty.isb (fun v holds => apart_off holds.off) (fun w ready => ?_)
  refine .cons using_stable (ready.msr_sctlr old) (fun v holds => holds.apart) (fun w used => ?_)
  exact .nil steady_stable used.isb (fun v holds => holds.apart) (fun v holds => holds)

end Switch

/-- A switch returns with the new tables in use and every other register but
those of its own as it was. Meanwhile the hardware never translates with cached
entries of other tables than those in use, and at the end it holds none. -/
theorem switch_ttbr_safe (linkedTlb : Linked im baseTlb invalidateTlbAll) (linked : Linked im base switchTtbr)
    (above : c.mode.el ≠ 0) :
    ∃ (d : Core) (events : List Event), Reaches im ⟨im.addr .switchTtbr, c⟩ ⟨c.x 30, d⟩ ∧
      Keeps [1, 2, 3, 4, 9, 30] [.ttbr0 c.mode.el] c d ∧ d.sys (.ttbr0 c.mode.el) = c.x 0 ∧ d.log = c.log ++ events ∧
      ∀ (M E : Type) (hw : Hardware M E) (w : Walker M E), hw.el = c.mode.el → Follows hw c w →
        Guarded hw (Walker.Coherent hw) (fun u => Follows hw d u ∧ u.memory = w.memory ∧
          u.tlb ⊆ hw.find u.memory.seen (c.x 0)) (events.map .event) w := by
  obtain ⟨d, reached, keeps, table, log⟩ := switchTtbr_reaches linkedTlb linked above
  refine ⟨d, _, reached, keeps, table, log, fun M E hw w level follows => ?_⟩
  rw [← level] at above keeps table ⊢
  have memory : w.memory = ⟨w.memory.seen, []⟩ := by rw [← follows.seen]
  have quiet : Quiet hw w.table w.memory.seen w := ⟨follows.late, rfl, memory, follows.coherent⟩
  refine (switch_guarded _ _ above (quiet.resting (pending_nil rfl))).mono (fun _ holds => holds.coherent)
    (fun u steady => ⟨⟨steady.late, ?_, ?_, ?_, steady.coherent⟩, ?_, ?_⟩)
  · rw [steady.on, keeps.sys _ (by simp)]
  · rw [steady.based, table]
  · rw [steady.memory]
  · rw [steady.memory, ← memory]
  · rw [steady.memory]
    exact steady.cached

/-- Both functions, one behind the other. -/
def sample : List (Line Label) := invalidateTlbAll ++ switchTtbr

/-- Level 2, with translation on and tables at 0x10000. -/
def sampleCore : Core where
  x n := if n = 0 then 0x20000 else if n = 30 then 0x800 else 0
  flags := ⟨false, false, false, false⟩
  mode := ⟨2, true, 0xf⟩
  sys r := if r = .sctlr 2 then 0x1005 else if r = .ttbr0 2 then 0x10000 else 0
  mem _ := 0
  geometry _ := 0
  log := []

/-- Hardware that finds in tables where they are. -/
def sampleHardware : Hardware Unit Word := ⟨2, fun _ table => {table}, false⟩

/-- It has cached the tables in use. -/
def sampleWalker : Walker Unit Word where
  on := true
  table := 0x10000
  late := []
  memory := ⟨(), []⟩
  tlb := {0x10000}
  doomed := ∅

theorem switch_ttbr_safe_el2 : Follows sampleHardware sampleCore sampleWalker ∧
    ∃ (d : Core) (events : List Event),
      Reaches (link 0x4000 sample) ⟨(link 0x4000 sample).addr .switchTtbr, sampleCore⟩ ⟨0x800, d⟩ ∧
      Guarded sampleHardware (Walker.Coherent sampleHardware) (fun u => u.tlb ⊆ {0x20000})
        (events.map .event) sampleWalker := by
  have linked : Linked (link 0x4000 sample) 0x4000 sample := link_linked _ _ (by decide) (by decide)
  have follows : Follows sampleHardware sampleCore sampleWalker := ⟨rfl, rfl, rfl, rfl, fun _ => subset_rfl⟩
  obtain ⟨d, events, reached, _, _, _, guarded⟩ := switch_ttbr_safe linked.left (linked.right
    (by simp [switchTtbr, switchBlock, byLevel, straight])) (c := sampleCore) (by decide)
  exact ⟨follows, d, events, reached,
    (guarded Unit Word sampleHardware sampleWalker rfl follows).mono (fun _ holds => holds) (fun u holds => holds.2.2)⟩

end RockOs.TableSwitch
