import RockOs.CacheRanges
import RockOs.ExceptionLevels
import RockOs.Relocation

/-! The instructions of `relocate_code` in `arch/arm64/kernel/relocate_64.S`:
with its stack frame, at any exception level, they do to memory what the loops
of `Relocation` do, and write back the caches of the new image. -/
namespace RockOs.RelocationCode
open Aarch64 Assembly ExceptionLevels ByteMemory

/-! ## The code -/

/-- The labels of the function, of what it calls, and of the linker. -/
inductive Label where
  | relocateCode
  | copyLoop
  | fixloop
  | fixnext
  | relocateDone
  /-- `3`, `2`, `1` and `0` behind `switch_el`, and `4` and `5`. -/
  | numbered (label : Fin 6)
  | hang
  | flushDcacheRange
  | flushLine
  | flushL3Dcache
  | imageCopyStart
  | imageCopyEnd
  | relDynStart
  | relDynEnd
  | textBase
  deriving DecidableEq, Repr

def frameOps : List Op :=
  [.stp (.x 29) (.x 30) .sp (-32) .pre, .mov (.x 29) (.reg .sp), .str (.x 0) .sp 16 .offset]

def copyOps : List Op :=
  [.ldp (.x 10) (.x 11) (.x 1) 16 .post, .stp (.x 10) (.x 11) (.x 0) 16 .post, .subs .xzr (.x 1) (.reg (.x 2))]

def entryOps : List Op :=
  [.ldp (.x 0) (.x 1) (.x 2) 16 .post, .ldr (.x 4) (.x 2) 8 .post, .alu .and (.x 1) (.x 1) (.imm 0xffffffff),
    .subs .xzr (.x 1) (.imm (BitVec.ofNat 64 Relocation.rAarch64Relative))]

def fixOps : List Op :=
  [.alu .add (.x 0) (.x 0) (.reg (.x 9)), .alu .add (.x 4) (.x 4) (.reg (.x 9)), .str (.x 4) (.x 0) 0 .offset]

/-- `relocate_code`. An `adrp` and the `add` of the low bits behind it are one
`adr` here. -/
def relocateCode : List (Line Label) := List.flatten [
  [.label .relocateCode], straight frameOps,
  [.ins (.adr (.x 1) .imageCopyStart)], straight [.subs (.x 9) (.x 0) (.reg (.x 1))],
  [.ins (.bCond .eq .relocateDone), .ins (.ldrLiteral (.x 1) .textBase)], straight [.subs (.x 9) (.x 0) (.reg (.x 1))],
  [.ins (.adr (.x 1) .imageCopyStart), .ins (.adr (.x 2) .imageCopyEnd)],
  [.label .copyLoop], straight copyOps, [.ins (.bCond .lo .copyLoop)],
  straight [.str (.x 0) .sp 24 .offset],
  [.ins (.adr (.x 2) .relDynStart), .ins (.adr (.x 3) .relDynEnd)],
  [.label .fixloop], straight entryOps, [.ins (.bCond .ne .fixnext)],
  straight fixOps,
  [.label .fixnext], straight [.subs .xzr (.x 2) (.reg (.x 3))], [.ins (.bCond .lo .fixloop)],
  [.label .relocateDone],
  (switchEl (.x 1) (.numbered 3) (.numbered 2) (.numbered 1)).map .ins, [.ins (.bl .hang)],
  [.label (.numbered 3)], straight [.mrs (.x 0) (.sctlr 3)], [.ins (.b (.numbered 0))],
  [.label (.numbered 2)], straight [.mrs (.x 0) (.sctlr 2)], [.ins (.b (.numbered 0))],
  [.label (.numbered 1)], straight [.mrs (.x 0) (.sctlr 1)],
  [.label (.numbered 0), .ins (.tbz (.x 0) 2 (.numbered 5)), .ins (.tbz (.x 0) 12 (.numbered 4))],
  straight [.ic .iallu, .isb],
  [.label (.numbered 4)], straight [.ldp (.x 0) (.x 1) .sp 16 .offset],
  [.ins (.bl .flushDcacheRange), .ins (.bl .flushL3Dcache)],
  [.label (.numbered 5)], straight [.ldp (.x 29) (.x 30) .sp 32 .post], [.ins (.ret lr)]]

/-- `__asm_flush_l3_dcache`. -/
def flushL3Dcache : List (Line Label) :=
  [.label .flushL3Dcache, .ins (.op (.mov (.x 0) (.imm 0))), .ins (.ret lr)]

variable {im : Image Label} {base : Word} {c : Core}

/-! ## The copy -/

private theorem load_toNat (c : Core) (address : Word) : (c.loadWord address).toNat = loadPtr c.mem address.toNat := by
  rw [Core.loadWord, BitVec.toNat_ofNat, Nat.mod_eq_of_lt (loadPtr_lt ..)]

/-- One pair of words. -/
theorem copyOps_run (c : Core) :
    (run copyOps c).mem = storePtr (storePtr c.mem (c.x 0).toNat (loadPtr c.mem (c.x 1).toNat)) (c.x 0 + 8).toNat
      (loadPtr c.mem (c.x 1 + 8).toNat) ∧
    (run copyOps c).x 0 = c.x 0 + 16 ∧ (run copyOps c).x 1 = c.x 1 + 16 ∧
    (run copyOps c).flags = subFlags (c.x 1 + 16) (c.x 2) ∧ (run copyOps c).log = c.log ∧
    Keeps [0, 1, 10, 11] [] (c.setMem (run copyOps c).mem) (run copyOps c) := by
  refine ⟨?_, ?_, ?_, ?_, ?_, ?_⟩
  · simp [copyOps, Op.effect, Index.address, Index.writeBack, Operand.eval, Core.storeWord, load_toNat]
  · simp [copyOps, Op.effect, Index.address, Index.writeBack, Operand.eval, Core.storeWord]
  · simp [copyOps, Op.effect, Index.address, Index.writeBack, Operand.eval, Core.storeWord]
  · simp [copyOps, Op.effect, Index.address, Index.writeBack, Operand.eval, Core.storeWord]
  · simp [copyOps, Op.effect, Index.address, Index.writeBack, Operand.eval, Core.storeWord]
  · refine ⟨fun n out => ?_, fun r out => ?_, rfl, ?_, ?_⟩
    all_goals simp_all [copyOps, Op.effect, Index.address, Index.writeBack, Operand.eval, Core.storeWord]

private theorem span_step (more : b + 16 < e) : Relocation.span (e - b) = 16 + Relocation.span (e - (b + 16)) := by
  unfold Relocation.span
  omega

private theorem span_least (size : Nat) : 16 ≤ Relocation.span size := by
  unfold Relocation.span
  omega

private theorem toNat_small (small : n < 2 ^ 64) : (BitVec.ofNat 64 n).toNat = n := by
  rw [BitVec.toNat_ofNat, Nat.mod_eq_of_lt small]

private theorem ofNat_plus (n m : Nat) : BitVec.ofNat 64 n + BitVec.ofNat 64 m = BitVec.ofNat 64 (n + m) :=
  (BitVec.ofNat_add ..).symm

/-- One pair of words, up to the branch behind it. -/
theorem copy_step (linked : Linked im base relocateCode) (zero : c.x 0 = BitVec.ofNat 64 a)
    (one : c.x 1 = BitVec.ofNat 64 b) (two : c.x 2 = BitVec.ofNat 64 e) (room : a + 16 ≤ 2 ^ 64)
    (source : b + 16 < 2 ^ 64) (last : e < 2 ^ 64) :
    ∃ d, Reaches im ⟨place base 10, c⟩ ⟨place base 13, d⟩ ∧
      Keeps [0, 1, 10, 11] []
        (c.setMem (storePtr (storePtr c.mem a (loadPtr c.mem b)) (a + 8) (loadPtr c.mem (b + 8)))) d ∧
      d.x 0 = BitVec.ofNat 64 (a + 16) ∧ d.x 1 = BitVec.ofNat 64 (b + 16) ∧
      (Cond.lo.holds d.flags = true ↔ b + 16 < e) ∧ d.log = c.log := by
  obtain ⟨stored, next, following, flags, log, keeps⟩ := copyOps_run c
  have eight : ∀ n, BitVec.ofNat 64 n + 8 = BitVec.ofNat 64 (n + 8) := fun n => ofNat_plus n 8
  have sixteen : ∀ n, BitVec.ofNat 64 n + 16 = BitVec.ofNat 64 (n + 16) := fun n => ofNat_plus n 16
  rw [zero, one, eight, eight, toNat_small (show a < 2 ^ 64 by omega), toNat_small (show b < 2 ^ 64 by omega),
    toNat_small (show a + 8 < 2 ^ 64 by omega), toNat_small (show b + 8 < 2 ^ 64 by omega)] at stored
  rw [stored] at keeps
  refine ⟨_, linked.ops 10 copyOps c rfl, keeps, ?_, ?_, ?_, log⟩
  · rw [next, zero, sixteen]
  · rw [following, one, sixteen]
  · rw [flags, holds_lo, one, two, sixteen, toNat_small source, toNat_small last]

/-- What `copy_loop` does to memory is `Relocation.copyLoop`. -/
theorem copy_loop (linked : Linked im base relocateCode) (memory : c.mem = mem) (zero : c.x 0 = BitVec.ofNat 64 a)
    (one : c.x 1 = BitVec.ofNat 64 b) (two : c.x 2 = BitVec.ofNat 64 e) (room : a + Relocation.span (e - b) ≤ 2 ^ 64)
    (source : b + Relocation.span (e - b) < 2 ^ 64) (last : e < 2 ^ 64) :
    ∃ d, Reaches im ⟨place base 10, c⟩ ⟨place base 14, d⟩ ∧
      Keeps [0, 1, 10, 11] [] (c.setMem (Relocation.copyLoop mem a b e)) d ∧
      d.x 0 = BitVec.ofNat 64 (a + Relocation.span (e - b)) ∧ d.log = c.log := by
  induction rounds : (e - b - 1) / 16 generalizing c mem a b with
  | zero =>
    have least := span_least (e - b)
    obtain ⟨d, step, keeps, next, _, flags, log⟩ := copy_step linked zero one two (by omega) (by omega) last
    have ended : ¬ b + 16 < e := by omega
    have once : Relocation.span (e - b) = 16 := by
      unfold Relocation.span
      omega
    rw [memory] at keeps
    rw [Relocation.copyLoop, if_neg ended, once]
    exact ⟨d, step.trans (linked.bPassed (k := 13) rfl (flags.not.mpr ended)), keeps, next, log⟩
  | succ rounds ih =>
    have more : b + 16 < e := by omega
    have longer := span_step more
    obtain ⟨mid, step, keeps, next, following, flags, log⟩ := copy_step linked zero one two (by omega) (by omega) last
    rw [memory] at keeps
    obtain ⟨d, rest, restKeeps, restNext, restLog⟩ := ih keeps.mem next following ((keeps.x 2 (by decide)).trans two)
      (by omega) (by omega) (by omega)
    rw [Relocation.copyLoop, if_pos more, longer, ← Nat.add_assoc]
    exact ⟨d, (step.trans (linked.bTaken (k := 13) rfl (by decide) (flags.mpr more))).trans rest,
      keeps.through restKeeps, restNext, restLog.trans log⟩

/-! ## The table -/

/-- The entry at `x2`, compared with the type that is applied. -/
theorem entryOps_run (c : Core) :
    (run entryOps c).x 0 = c.loadWord (c.x 2) ∧ (run entryOps c).x 4 = c.loadWord (c.x 2 + 16) ∧
    (run entryOps c).x 2 = c.x 2 + 24 ∧
    (run entryOps c).flags = subFlags (c.loadWord (c.x 2 + 8) &&& 0xffffffff)
    (BitVec.ofNat 64 Relocation.rAarch64Relative) ∧
    (run entryOps c).log = c.log ∧ Keeps [0, 1, 2, 4] [] c (run entryOps c) := by
  refine ⟨?_, ?_, ?_, ?_, ?_, (run_keeps entryOps rfl c).mono (by decide) (by decide)⟩
  · simp [entryOps, Op.effect, Index.address, Index.writeBack, Operand.eval, Alu.eval]
  · simp [entryOps, Op.effect, Index.address, Index.writeBack, Operand.eval, Alu.eval, Core.loadWord]
  · simp [entryOps, Op.effect, Index.address, Index.writeBack, Operand.eval, Alu.eval, BitVec.add_assoc]
  · simp [entryOps, Op.effect, Index.address, Index.writeBack, Operand.eval, Alu.eval]
  · simp [entryOps, Op.effect, Index.address, Index.writeBack, Operand.eval, Alu.eval]

private theorem fixOps_run (c : Core) :
    (run fixOps c).mem = storePtr c.mem (c.x 0 + c.x 9).toNat (c.x 4 + c.x 9).toNat ∧ (run fixOps c).log = c.log ∧
    Keeps [0, 4] [] (c.setMem (run fixOps c).mem) (run fixOps c) := by
  refine ⟨?_, ?_, ⟨fun n out => ?_, fun r out => ?_, rfl, ?_, ?_⟩⟩
  all_goals simp_all [fixOps, Op.effect, Index.address, Index.writeBack, Operand.eval, Alu.eval, Core.storeWord]

theorem low_half (w : Word) : w &&& 0xffffffff = BitVec.ofNat 64 Relocation.rAarch64Relative ↔
    w.toNat % 2 ^ 32 = Relocation.rAarch64Relative := by
  have mask : (w &&& 0xffffffff).toNat = w.toNat % 2 ^ 32 := by
    rw [BitVec.toNat_and]
    exact Nat.and_two_pow_sub_one_eq_mod w.toNat 32
  rw [← BitVec.toNat_inj, mask]
  rfl

/-- One entry of the table, up to the branch behind it. -/
theorem fix_step (linked : Linked im base relocateCode) (two : c.x 2 = BitVec.ofNat 64 t)
    (three : c.x 3 = BitVec.ofNat 64 e) (small : t + 24 < 2 ^ 64) (last : e < 2 ^ 64) :
    ∃ d, Reaches im ⟨place base 17, c⟩ ⟨place base 26, d⟩ ∧
      Keeps [0, 1, 2, 4] [] (c.setMem (Relocation.fixEntry c.mem t (c.x 9).toNat)) d ∧
      d.x 2 = BitVec.ofNat 64 (t + 24) ∧ (Cond.lo.holds d.flags = true ↔ t + 24 < e) ∧ d.log = c.log := by
  have plus : ∀ n, BitVec.ofNat 64 t + BitVec.ofNat 64 n = BitVec.ofNat 64 (t + n) := fun n => ofNat_plus t n
  have entry := linked.ops 17 entryOps c rfl
  obtain ⟨zero, four, next, flags, log, keeps⟩ := entryOps_run c
  rw [two] at zero four next flags
  rw [show (24 : Word) = BitVec.ofNat 64 24 from rfl, plus] at next
  rw [show (16 : Word) = BitVec.ofNat 64 16 from rfl, plus] at four
  rw [show (8 : Word) = BitVec.ofNat 64 8 from rfl, plus] at flags
  generalize run entryOps c = mid at entry zero four next flags log keeps
  have chosen : ∃ m, Reaches im ⟨place base 21, mid⟩ ⟨place base 25, m⟩ ∧
      Keeps [0, 1, 2, 4] [] (mid.setMem (Relocation.fixEntry c.mem t (c.x 9).toNat)) m ∧ m.x 2 = mid.x 2 ∧
        m.log = mid.log := by
    have type : (c.loadWord (BitVec.ofNat 64 (t + 8))).toNat = loadPtr c.mem (t + 8) := by
      rw [load_toNat, toNat_small (by omega)]
    by_cases relative : loadPtr c.mem (t + 8) % 2 ^ 32 = Relocation.rAarch64Relative
    · have passed : ¬ Cond.ne.holds mid.flags = true := by
        rw [flags, holds_ne, not_not, low_half, type]
        exact relative
      obtain ⟨stored, fixLog, fixKeeps⟩ := fixOps_run mid
      have done : (run fixOps mid).mem = Relocation.fixEntry c.mem t (c.x 9).toNat := by
        rw [stored, Relocation.fixEntry, if_pos relative, zero, four, keeps.x 9 (by decide), keeps.mem, BitVec.toNat_add,
          BitVec.toNat_add, load_toNat, load_toNat, toNat_small (by omega), toNat_small (by omega)]
      rw [done] at fixKeeps
      exact ⟨_, (linked.bPassed (k := 21) rfl passed).trans (linked.ops 22 fixOps mid rfl),
        fixKeeps.mono (by decide) (by decide), fixKeeps.x 2 (by decide), fixLog⟩
    · have taken : Cond.ne.holds mid.flags = true := by
        rw [flags, holds_ne, ne_eq, low_half, type]
        exact relative
      refine ⟨mid, linked.bTaken (k := 21) rfl (by decide) taken, (Keeps.refl _ _ mid).to_setMem ?_, rfl, rfl⟩
      rw [Relocation.fixEntry, if_neg relative, keeps.mem]
  obtain ⟨m, fixed, fixKeeps, kept, fixLog⟩ := chosen
  have compared := linked.op (k := 25) (c := m) rfl
  have all : Keeps [0, 1, 2, 4] [] (c.setMem (Relocation.fixEntry c.mem t (c.x 9).toNat)) m :=
    (keeps.setMem _).trans fixKeeps (List.Subset.refl _) (List.Subset.refl _)
  refine ⟨_, (entry.trans fixed).trans compared, all.trans (Op.keeps m _ rfl) (by decide) (by decide), ?_, ?_, ?_⟩
  · show m.x 2 = _
    rw [kept, next]
  · show Cond.lo.holds (subFlags (m.x 2) (m.x 3)) = true ↔ _
    rw [holds_lo, kept, next, all.x 3 (by decide), Core.x_setMem, three, toNat_small small, toNat_small last]
  · show m.log = _
    rw [fixLog, log]

/-- What `fixloop` does to memory is `Relocation.fixLoop`. -/
theorem fix_loop (linked : Linked im base relocateCode) (two : c.x 2 = BitVec.ofNat 64 t)
    (three : c.x 3 = BitVec.ofNat 64 (t + 24 * (n + 1))) (last : t + 24 * (n + 1) < 2 ^ 64) :
    ∃ d, Reaches im ⟨place base 17, c⟩ ⟨place base 27, d⟩ ∧
      Keeps [0, 1, 2, 4] [] (c.setMem (Relocation.fixLoop c.mem t (t + 24 * (n + 1)) (c.x 9).toNat)) d ∧
        d.log = c.log := by
  induction n generalizing c t with
  | zero =>
    obtain ⟨d, step, keeps, _, flags, log⟩ := fix_step linked two three (by omega) last
    have ended : ¬ t + 24 < t + 24 * (0 + 1) := by omega
    rw [Relocation.fixLoop, if_neg ended]
    exact ⟨d, step.trans (linked.bPassed (k := 26) rfl (flags.not.mpr ended)), keeps, log⟩
  | succ n ih =>
    obtain ⟨mid, step, keeps, next, flags, log⟩ := fix_step linked two three (by omega) last
    have more : t + 24 < t + 24 * (n + 1 + 1) := by omega
    have same : t + 24 * (n + 1 + 1) = t + 24 + 24 * (n + 1) := by omega
    rw [same] at three last
    obtain ⟨d, rest, restKeeps, restLog⟩ := ih next ((keeps.x 3 (by decide)).trans three) last
    rw [keeps.mem, Core.mem_setMem, keeps.x 9 (by decide), Core.x_setMem] at restKeeps
    rw [Relocation.fixLoop, if_pos more, same]
    exact ⟨d, (step.trans (linked.bTaken (k := 26) rfl (by decide) (flags.mpr more))).trans rest,
      keeps.through restKeeps, restLog.trans log⟩

/-! ## The end -/

/-- Whether the data cache and the instruction cache are on. -/
def dataCache (sctlr : Word) : Bool := sctlr.getLsbD 2

def instructionCache (sctlr : Word) : Bool := sctlr.getLsbD 12

/-- The maintenance of the caches for a new image. -/
def imageEvents (sctlr ctr : Word) (dest stop : Nat) : List Event :=
  if dataCache sctlr then
    (if instructionCache sctlr then [.ic .iallu, .isb] else []) ++
      (CacheRanges.rangeLines (CacheRanges.lineBits ctr) dest stop).map
        (fun line => .dc .civac (BitVec.ofNat 64 line)) ++ [.dsb]
  else []

variable {baseFlush baseL3 : Word}

/-- The control register of the level is in `x0`. -/
theorem control_read (linked : Linked im base relocateCode) (above : c.mode.el ≠ 0) :
    ∃ d, Reaches im ⟨place base 27, c⟩ ⟨place base 40, d⟩ ∧ Keeps [0, 1] [] c d ∧ d.x 0 = c.sys (.sctlr c.mode.el) ∧
      d.log = c.log := by
  have read : ∀ el : El, Keeps [0, 1] [] c (Op.effect (switched 1 c) (.mrs (.x 0) (.sctlr el))) ∧
      (Op.effect (switched 1 c) (.mrs (.x 0) (.sctlr el))).x 0 = c.sys (.sctlr el) ∧
      (Op.effect (switched 1 c) (.mrs (.x 0) (.sctlr el))).log = c.log := by
    intro el
    refine ⟨((switched_keeps 1 c).mono (by decide) (by decide)).trans (Op.keeps _ (.mrs (.x 0) (.sctlr el)) rfl)
      (by simp [Op.writes, Reg.general]) (by simp [Op.sysWrites]), ?_, ?_⟩
    · rw [Op.effect, Core.x_set_x, if_pos rfl, ← switched_sys (c := c) 1]
      rfl
    · rw [Op.effect, Core.log_set, switched_log]
  have held : Holds relocateCode 27 (switchEl (.x 1) (.numbered 3) (.numbered 2) (.numbered 1)) := rfl
  rcases levels c.mode.el above with at1 | at2 | at3
  · have jump := switchEl_reaches (j := 39) linked 27 held above (by rw [at1]; decide)
    rw [at1]
    exact ⟨_, jump.trans (linked.op (k := 39) rfl), read 1⟩
  · have jump := switchEl_reaches (j := 37) linked 27 held above (by rw [at2]; decide)
    rw [at2]
    exact ⟨_, (jump.trans (linked.op (k := 37) rfl)).trans (linked.b (k := 38) rfl (by decide)), read 2⟩
  · have jump := switchEl_reaches (j := 35) linked 27 held above (by rw [at3]; decide)
    rw [at3]
    exact ⟨_, (jump.trans (linked.op (k := 35) rfl)).trans (linked.b (k := 36) rfl (by decide)), read 3⟩

private theorem l3_reaches (linked : Linked im baseL3 flushL3Dcache) :
    ∃ d, Reaches im ⟨im.addr .flushL3Dcache, c⟩ ⟨c.x 30, d⟩ ∧ Keeps [0] [] c d ∧ d.log = c.log := by
  rw [linked.addr .flushL3Dcache 0 (by decide)]
  exact ⟨_, (linked.op (k := 0) rfl).trans (linked.ret (k := 1) rfl), Op.keeps c (.mov (.x 0) (.imm 0)) rfl, rfl⟩

section Flush
variable (linked : Linked im base relocateCode)
  (linkedFlush : Linked im baseFlush (CacheRanges.flushDcacheRange .flushDcacheRange .flushLine))
  (linkedL3 : Linked im baseL3 flushL3Dcache)
include linked linkedFlush linkedL3

/-- The range on the stack is flushed. -/
theorem range_flushed (dest : c.loadWord (c.get .sp + 16) = BitVec.ofNat 64 a)
    (stop : c.loadWord (c.get .sp + 24) = BitVec.ofNat 64 b) (smallDest : a < 2 ^ 64) (smallStop : b < 2 ^ 64)
    (fits : CacheRanges.RangeFits (CacheRanges.lineBits (c.sys .ctr)) a b) :
    ∃ d, Reaches im ⟨place base 44, c⟩ ⟨place base 47, d⟩ ∧ Keeps [0, 1, 2, 3, 30] [] c d ∧
      d.log = c.log ++ (CacheRanges.rangeLines (CacheRanges.lineBits (c.sys .ctr)) a b).map
        (fun line => .dc .civac (BitVec.ofNat 64 line)) ++ [.dsb] := by
  have load := linked.op (k := 44) (c := c) rfl
  have loadKeeps : Keeps [0, 1] [] c (Op.effect c (.ldp (.x 0) (.x 1) .sp 16 .offset)) := by
    refine ⟨fun n out => ?_, fun _ _ => rfl, rfl, rfl, rfl⟩
    simp only [List.mem_cons, List.not_mem_nil, or_false, not_or] at out
    simp [Op.effect, Index.writeBack, out]
  have zero : (Op.effect c (.ldp (.x 0) (.x 1) .sp 16 .offset)).x 0 = BitVec.ofNat 64 a := by
    rw [← dest]
    simp [Op.effect, Index.address, Index.writeBack]
  have one : (Op.effect c (.ldp (.x 0) (.x 1) .sp 16 .offset)).x 1 = BitVec.ofNat 64 b := by
    rw [← stop]
    simp [Op.effect, Index.address, Index.writeBack, BitVec.add_assoc]
  have loadLog : (Op.effect c (.ldp (.x 0) (.x 1) .sp 16 .offset)).log = c.log := rfl
  generalize Op.effect c (.ldp (.x 0) (.x 1) .sp 16 .offset) = m1 at load loadKeeps zero one loadLog
  have called := linked.bl (k := 45) (c := m1) rfl
  have callKeeps : Keeps [30] [] m1 (m1.set lr (place base 46)) := set_keeps (d := lr) m1 _ (by decide)
  have link : (m1.set lr (place base 46)).x 30 = place base 46 := by rw [Core.x_set_x, if_pos rfl]
  have callLog : (m1.set lr (place base 46)).log = m1.log := Core.log_set ..
  generalize m1.set lr (place base 46) = m2 at called callKeeps link callLog
  have zero2 : m2.x 0 = BitVec.ofNat 64 a := (callKeeps.x 0 (by decide)).trans zero
  have one2 : m2.x 1 = BitVec.ofNat 64 b := (callKeeps.x 1 (by decide)).trans one
  have ctr : m2.sys .ctr = c.sys .ctr := (callKeeps.sys _ (by decide)).trans (loadKeeps.sys _ (by decide))
  have fits2 : CacheRanges.Fits m2 := by
    rw [CacheRanges.Fits, zero2, one2, ctr, toNat_small smallDest, toNat_small smallStop]
    exact fits
  obtain ⟨m3, flushed, flushKeeps, flushLog⟩ := CacheRanges.flush_reaches linkedFlush fits2
  rw [CacheRanges.rangeEvents, CacheRanges.lineEvents, zero2, one2, ctr, toNat_small smallDest, toNat_small smallStop,
    ← List.append_assoc] at flushLog
  rw [link] at flushed
  rw [linkedFlush.addr .flushDcacheRange 0 (List.mem_cons_self ..)] at called
  have called3 := linked.bl (k := 46) (c := m3) rfl
  have call3Keeps : Keeps [30] [] m3 (m3.set lr (place base 47)) := set_keeps (d := lr) m3 _ (by decide)
  obtain ⟨d, l3, l3Keeps, l3Log⟩ := l3_reaches (c := m3.set lr (place base 47)) linkedL3
  rw [Core.x_set_x, if_pos rfl] at l3
  refine ⟨d, (((load.trans called).trans flushed).trans called3).trans l3, ?_, ?_⟩
  · have first : Keeps [0, 1, 2, 3, 30] [] c m2 :=
      (loadKeeps.mono (by decide) (by decide)).trans callKeeps (by decide) (by decide)
    have second : Keeps [0, 1, 2, 3, 30] [] c (m3.set lr (place base 47)) :=
      (first.trans flushKeeps (by decide) (by decide)).trans call3Keeps (by decide) (by decide)
    exact second.trans l3Keeps (by decide) (by decide)
  · rw [l3Log, Core.log_set, flushLog, callLog, loadLog]

/-- From the control register in `x0` on: the caches are maintained if they are on. -/
theorem caches_reach (dest : c.loadWord (c.get .sp + 16) = BitVec.ofNat 64 a)
    (stop : c.loadWord (c.get .sp + 24) = BitVec.ofNat 64 b) (smallDest : a < 2 ^ 64) (smallStop : b < 2 ^ 64)
    (fits : dataCache (c.x 0) = true → CacheRanges.RangeFits (CacheRanges.lineBits (c.sys .ctr)) a b) :
    ∃ d, Reaches im ⟨place base 40, c⟩ ⟨place base 47, d⟩ ∧ Keeps [0, 1, 2, 3, 30] [] c d ∧
      d.log = c.log ++ imageEvents (c.x 0) (c.sys .ctr) a b := by
  cases data : dataCache (c.x 0) with
  | false =>
    refine ⟨c, linked.tbzTaken (k := 40) rfl (by decide) data, .refl .., ?_⟩
    rw [imageEvents, data, if_neg Bool.false_ne_true, List.append_nil]
  | true =>
    have passed := linked.tbzPassed (k := 40) (c := c) rfl data
    cases code : instructionCache (c.x 0) with
    | false =>
      have skipped := linked.tbzTaken (k := 41) (j := 44) (c := c) rfl (by decide) code
      obtain ⟨d, flushed, keeps, log⟩ := range_flushed linked linkedFlush linkedL3 dest stop smallDest smallStop
        (fits data)
      refine ⟨d, (passed.trans skipped).trans flushed, keeps, ?_⟩
      rw [log, imageEvents, data, code, if_pos rfl, if_neg Bool.false_ne_true, List.nil_append, List.append_assoc]
    | true =>
      have further := linked.tbzPassed (k := 41) (c := c) rfl code
      have invalidated := linked.ops 42 [.ic .iallu, .isb] c rfl
      obtain ⟨d, flushed, keeps, log⟩ := range_flushed (c := (c.emit (.ic .iallu)).emit .isb) linked linkedFlush linkedL3
        dest stop smallDest smallStop (fits data)
      refine ⟨d, ((passed.trans further).trans invalidated).trans flushed, ?_, ?_⟩
      · exact ((((emit_keeps c _).trans (emit_keeps _ _) (by decide) (by decide)).mono (List.nil_subset _)
          (by decide)).trans keeps (by decide) (by decide))
      · rw [log, Core.log_emit, Core.log_emit, imageEvents, data, code, if_pos rfl, if_pos rfl]
        simp only [List.append_assoc]
        rfl

/-- The end of the function, with its frame on the stack. -/
theorem finish (above : c.mode.el ≠ 0) (smallDest : a < 2 ^ 64) (smallStop : b < 2 ^ 64)
    (stacked : Stacked c [fp, ra, BitVec.ofNat 64 a, BitVec.ofNat 64 b])
    (fits : dataCache (c.sys (.sctlr c.mode.el)) = true →
      CacheRanges.RangeFits (CacheRanges.lineBits (c.sys .ctr)) a b) :
    ∃ d, Reaches im ⟨place base 27, c⟩ ⟨ra, d⟩ ∧ (∀ n, n ∉ [0, 1, 2, 3, 29, 30] → d.x n = c.x n) ∧ d.x 29 = fp ∧
      d.x 30 = ra ∧ d.get .sp = c.get .sp + 32 ∧ (∀ r, r ≠ c.mode.stack → d.sys r = c.sys r) ∧ d.mem = c.mem ∧
      d.mode = c.mode ∧ d.log = c.log ++ imageEvents (c.sys (.sctlr c.mode.el)) (c.sys .ctr) a b := by
  obtain ⟨m1, read, readKeeps, zero, readLog⟩ := control_read linked above
  have stacked1 := stacked.congr readKeeps.sp readKeeps.mem
  rw [← zero, ← readKeeps.sys .ctr (by decide)] at fits
  obtain ⟨m2, caches, cachesKeeps, cachesLog⟩ := caches_reach linked linkedFlush linkedL3 (stacked1.load (i := 2) rfl)
    (stacked1.load (i := 3) rfl) smallDest smallStop fits
  have keeps : Keeps [0, 1, 2, 3, 30] [] c m2 :=
    (readKeeps.mono (by decide) (by decide)).trans cachesKeeps (by decide) (by decide)
  have stacked2 := stacked.congr keeps.sp keeps.mem
  have first : m2.loadWord (m2.get .sp) = fp := by
    rw [← stacked2.load (i := 0) rfl]
    exact congrArg m2.loadWord (BitVec.add_zero _).symm
  have second : m2.loadWord (m2.get .sp + 8) = ra := stacked2.load (i := 1) rfl
  have restored := linked.op (k := 47) (c := m2) rfl
  have effect : (Op.ldp (.x 29) (.x 30) .sp 32 .post).effect m2 =
      ((m2.set .sp (c.get .sp + 32)).set (.x 29) fp).set (.x 30) ra := by
    rw [← first, ← second, ← keeps.sp]
    rfl
  rw [effect] at restored
  have value : (((m2.set .sp (c.get .sp + 32)).set (.x 29) fp).set (.x 30) ra).x 30 = ra := by
    rw [Core.x_set_x, if_pos rfl]
  have back : Reaches im ⟨place base 48, ((m2.set .sp (c.get .sp + 32)).set (.x 29) fp).set (.x 30) ra⟩
      ⟨ra, ((m2.set .sp (c.get .sp + 32)).set (.x 29) fp).set (.x 30) ra⟩ := by
    nth_rewrite 2 [← value]
    exact linked.ret (k := 48) rfl
  refine ⟨_, ((read.trans caches).trans restored).trans back, ?_, ?_, ?_, ?_, ?_, ?_, ?_, ?_⟩
  · intro n out
    have within : [0, 1, 2, 3, 30] ⊆ ([0, 1, 2, 3, 29, 30] : List (Fin 31)) := by decide
    have other : n ∉ [0, 1, 2, 3, 30] := fun member => out (within member)
    simp only [List.mem_cons, List.not_mem_nil, or_false, not_or] at out
    rw [Core.x_set_x, if_neg out.2.2.2.2.2, Core.x_set_x, if_neg out.2.2.2.2.1, Core.x_set_sp, keeps.x n other]
  · rw [Core.x_set_x, if_neg (by decide), Core.x_set_x, if_pos rfl]
  · rw [Core.x_set_x, if_pos rfl]
  · rw [Core.sp_set_x, Core.sp_set_x, Core.sp_set_sp]
  · intro r other
    rw [Core.sys_set_x, Core.sys_set_x, Core.sys_set_sp, keeps.mode, Function.update_of_ne other, keeps.sys r (by simp)]
  · rw [Core.mem_set, Core.mem_set, Core.mem_set, keeps.mem]
  · rw [Core.mode_set, Core.mode_set, Core.mode_set, keeps.mode]
  · rw [Core.log_set, Core.log_set, Core.log_set, cachesLog, readLog, zero, readKeeps.sys .ctr (by decide)]

end Flush

/-! ## The beginning -/

/-- Memory with the first three words of the frame below `top`. -/
def framed (mem : Mem) (top : Nat) (fp ra dest : Word) : Mem :=
  storePtr (storePtr (storePtr mem (top - 32) fp.toNat) (top - 24) ra.toNat) (top - 16) dest.toNat

private theorem framed_outside (high : 32 ≤ top) (out : cell < top - 32 ∨ top ≤ cell) :
    framed mem top fp ra dest cell = mem cell := by
  have same : Agree (framed mem top fp ra dest) mem cell 1 :=
    ((storePtr_agree (by omega)).trans (storePtr_agree (by omega))).trans (storePtr_agree (by omega))
  exact same cell le_rfl (by omega)

private theorem frameOps_eq (c : Core) : run frameOps c =
    ((((c.storeWord (c.get .sp + -32) (c.x 29)).storeWord (c.get .sp + -32 + 8) (c.x 30)).set .sp (c.get .sp + -32)).set
      (.x 29) (c.get .sp + -32)).storeWord (c.get .sp + -32 + 16) (c.x 0) := by
  rw [frameOps, run_cons, run_cons, run_cons, run_nil, stp_pre (29, 30)]
  generalize pushed : (c.storeWord (c.get .sp + -32) (c.x 29)).storeWord (c.get .sp + -32 + 8) (c.x 30) = mid
  have zero : mid.x 0 = c.x 0 := by rw [← pushed, Core.x_storeWord, Core.x_storeWord]
  rw [← zero]
  rw [Op.effect, Operand.eval, Core.sp_set_sp, Op.effect, Index.address, Index.writeBack, Core.sp_set_x, Core.sp_set_sp,
    Core.get_x, Core.x_set_x, if_neg (by decide), Core.x_set_sp]
  all_goals simp

/-- The frame is on the stack. -/
theorem frameOps_run (c : Core) (room : 32 ≤ (c.get .sp).toNat) :
    (run frameOps c).mem = framed c.mem (c.get .sp).toNat (c.x 29) (c.x 30) (c.x 0) ∧
    (run frameOps c).get .sp = c.get .sp + -32 ∧ (∀ n, n ≠ 29 → (run frameOps c).x n = c.x n) ∧
    (∀ r, r ≠ c.mode.stack → (run frameOps c).sys r = c.sys r) ∧ (run frameOps c).mode = c.mode ∧
    (run frameOps c).log = c.log := by
  have low : (c.get .sp + -32).toNat = (c.get .sp).toNat - 32 := by bv_omega
  have second : (c.get .sp + -32 + 8).toNat = (c.get .sp).toNat - 24 := by bv_omega
  have third : (c.get .sp + -32 + 16).toNat = (c.get .sp).toNat - 16 := by bv_omega
  rw [frameOps_eq]
  refine ⟨?_, ?_, fun n other => ?_, fun r other => ?_, ?_, ?_⟩
  · rw [Core.mem_storeWord, Core.mem_set, Core.mem_set, Core.mem_storeWord, Core.mem_storeWord, low, second, third,
      framed]
  · rw [Core.sp_storeWord, Core.sp_set_x, Core.sp_set_sp]
  · rw [Core.x_storeWord, Core.x_set_x, if_neg other, Core.x_set_sp, Core.x_storeWord, Core.x_storeWord]
  · rw [Core.sys_storeWord, Core.sys_set_x, Core.sys_set_sp, Core.mode_storeWord, Core.mode_storeWord,
      Function.update_of_ne other, Core.sys_storeWord, Core.sys_storeWord]
  · rw [Core.mode_storeWord, Core.mode_set, Core.mode_set, Core.mode_storeWord, Core.mode_storeWord]
  · rw [Core.log_storeWord, Core.log_set, Core.log_set, Core.log_storeWord, Core.log_storeWord]

/-- Memory that the copy does not touch may be written before it. -/
theorem copyLoop_storePtr (forward : a ≤ b ∨ b + Relocation.span (e - b) ≤ a)
    (source : address + 8 ≤ b ∨ b + Relocation.span (e - b) ≤ address)
    (target : address + 8 ≤ a ∨ a + Relocation.span (e - b) ≤ address) :
    Relocation.copyLoop (storePtr mem address value) a b e = storePtr (Relocation.copyLoop mem a b e) address value := by
  rw [Relocation.copyLoop_eq forward, Relocation.copyLoop_eq forward]
  funext cell
  by_cases moved : a ≤ cell ∧ cell < a + Relocation.span (e - b)
  · have kept : storePtr (copied mem a b (Relocation.span (e - b))) address value cell =
        copied mem a b (Relocation.span (e - b)) cell := if_neg (by omega)
    rw [kept, copied, copied, if_pos moved, if_pos moved]
    exact if_neg (by omega)
  · rw [copied, if_neg moved]
    unfold storePtr store
    rw [copied, if_neg moved]

private theorem storePtr_self (mem : Mem) (address : Nat) : storePtr mem address (loadPtr mem address) = mem := by
  rw [copied_word]
  funext cell
  unfold copied
  split_ifs with inside
  · rw [Nat.add_sub_cancel' inside.1]
  · rfl

/-! ## The whole function -/

/-- Where the image is, and a frame that is apart from it and from its destination. -/
structure Setting (im : Image Label) (image : Relocation.Image) (c : Core) : Prop where
  start : im.addr .imageCopyStart = BitVec.ofNat 64 image.start
  copyEnd : im.addr .imageCopyEnd = BitVec.ofNat 64 image.copyEnd
  relDynStart : im.addr .relDynStart = BitVec.ofNat 64 image.relDynStart
  relDynEnd : im.addr .relDynEnd = BitVec.ofNat 64 image.relDynEnd
  textBase : loadPtr c.mem (im.addr .textBase).toNat = image.textBase
  inside : image.start ≤ (im.addr .textBase).toNat ∧ (im.addr .textBase).toNat + 8 ≤ image.copyEnd
  linked : Relocation.Linked image c.mem
  placed : Relocation.Placed image (c.x 0).toNat
  tableEnd : image.relDynEnd < 2 ^ 64
  destEnd : (c.x 0).toNat + Relocation.span image.size < 2 ^ 64
  room : 32 ≤ (c.get .sp).toNat
  besideImage : (c.get .sp).toNat ≤ image.start ∨ image.relDynEnd + 32 ≤ (c.get .sp).toNat
  besideDest : (c.get .sp).toNat ≤ (c.x 0).toNat ∨ (c.x 0).toNat + Relocation.span image.size + 32 ≤ (c.get .sp).toNat

/-- Memory with the whole frame. -/
def frameMem (c : Core) (stop : Nat) : Mem :=
  storePtr (framed c.mem (c.get .sp).toNat (c.x 29) (c.x 30) (c.x 0)) ((c.get .sp).toNat - 8) stop

private theorem frameMem_outside (high : 32 ≤ (c.get .sp).toNat)
    (out : cell < (c.get .sp).toNat - 32 ∨ (c.get .sp).toNat ≤ cell) :
    frameMem c stop cell = c.mem cell := by
  have same : Agree (frameMem c stop) (framed c.mem (c.get .sp).toNat (c.x 29) (c.x 30) (c.x 0)) cell 1 :=
    storePtr_agree (by omega)
  rw [same cell le_rfl (by omega), framed_outside high out]

private theorem subs_run (m : Core) : Keeps [1, 9] [] m (Op.effect m (.subs (.x 9) (.x 0) (.reg (.x 1)))) ∧
    (Op.effect m (.subs (.x 9) (.x 0) (.reg (.x 1)))).x 9 = m.x 0 - m.x 1 ∧
    (Op.effect m (.subs (.x 9) (.x 0) (.reg (.x 1)))).flags = subFlags (m.x 0) (m.x 1) ∧
    (Op.effect m (.subs (.x 9) (.x 0) (.reg (.x 1)))).log = m.log := by
  refine ⟨(Op.keeps m _ rfl).mono (by decide) (by decide), ?_, ?_, ?_⟩
  all_goals simp [Op.effect, Operand.eval]

/-- The destination is compared with the start of the image. -/
theorem dest_compared (linked : Linked im base relocateCode) :
    ∃ d, Reaches im ⟨place base 3, c⟩ ⟨place base 5, d⟩ ∧ Keeps [1, 9] [] c d ∧
      (Cond.eq.holds d.flags = true ↔ c.x 0 = im.addr .imageCopyStart) ∧ d.log = c.log := by
  have first : Keeps [1] [] c (c.set (.x 1) (im.addr .imageCopyStart)) := set_keeps (d := .x 1) c _ (by decide)
  obtain ⟨second, _, flags, log⟩ := subs_run (c.set (.x 1) (im.addr .imageCopyStart))
  refine ⟨_, (linked.adr (k := 3) (c := c) rfl).trans (linked.op (k := 4) rfl),
    (first.mono (by decide) (by decide)).trans second (by decide) (by decide), ?_, log.trans (Core.log_set ..)⟩
  rw [flags, holds_eq, first.x 0 (by decide), Core.x_set_x, if_pos rfl]

/-- Somewhere else than at its place, the image is copied: the offset and the ends of the copy. -/
theorem ends_set (linked : Linked im base relocateCode) (moved : c.x 0 ≠ im.addr .imageCopyStart) :
    ∃ d, Reaches im ⟨place base 3, c⟩ ⟨place base 10, d⟩ ∧ Keeps [1, 2, 9] [] c d ∧ d.x 1 = im.addr .imageCopyStart ∧
      d.x 2 = im.addr .imageCopyEnd ∧ d.x 9 = c.x 0 - c.loadWord (im.addr .textBase) ∧ d.log = c.log := by
  obtain ⟨m2, second, secondKeeps, flags, secondLog⟩ := dest_compared (c := c) linked
  have differs : ¬ Cond.eq.holds m2.flags = true := flags.not.mpr moved
  have third := (linked.bPassed (k := 5) rfl differs).trans (linked.ldrLiteral (k := 6) rfl)
  have thirdKeeps : Keeps [1] [] m2 (m2.set (.x 1) (m2.loadWord (im.addr .textBase))) :=
      set_keeps (d := .x 1) m2 _ (by decide)
  have value : (m2.set (.x 1) (m2.loadWord (im.addr .textBase))).x 1 = c.loadWord (im.addr .textBase) := by
    rw [Core.x_set_x, if_pos rfl, Core.loadWord, secondKeeps.mem]
    rfl
  have thirdLog : (m2.set (.x 1) (m2.loadWord (im.addr .textBase))).log = m2.log := Core.log_set ..
  generalize m2.set (.x 1) (m2.loadWord (im.addr .textBase)) = m3 at third thirdKeeps value thirdLog
  have fourth := linked.op (k := 7) (c := m3) rfl
  obtain ⟨fourthKeeps, nine, _, fourthLog⟩ := subs_run m3
  generalize Op.effect m3 (.subs (.x 9) (.x 0) (.reg (.x 1))) = m4 at fourth fourthKeeps nine fourthLog
  have keeps4 : Keeps [1, 2, 9] [] c m4 := ((secondKeeps.mono (by decide) (by decide)).trans thirdKeeps (by decide)
    (by decide)).trans fourthKeeps (by decide) (by decide)
  have zero : m3.x 0 = c.x 0 := by
    rw [thirdKeeps.x 0 (by decide), secondKeeps.x 0 (by decide)]
  have last := (linked.adr (k := 8) (c := m4) rfl).trans (linked.adr (k := 9) rfl)
  refine ⟨_, ((second.trans third).trans fourth).trans last, ?_, ?_, ?_, ?_, ?_⟩
  · exact (keeps4.trans (set_keeps (d := .x 1) m4 _ (by decide)) (by decide) (by decide)).trans
      (set_keeps (d := .x 2) _ _ (by decide)) (by decide) (by decide)
  · rw [Core.x_set_x, if_neg (by decide), Core.x_set_x, if_pos rfl]
  · rw [Core.x_set_x, if_pos rfl]
  · rw [Core.x_set_x, if_neg (by decide), Core.x_set_x, if_neg (by decide), nine, zero, value]
  · rw [Core.log_set, Core.log_set, fourthLog, thirdLog, secondLog]

/-- The end of the copy goes to the frame, and the table is found. -/
theorem table_set (linked : Linked im base relocateCode) :
    ∃ d, Reaches im ⟨place base 14, c⟩ ⟨place base 17, d⟩ ∧
      Keeps [2, 3] [] (c.setMem (storePtr c.mem (c.get .sp + 24).toNat (c.x 0).toNat)) d ∧ d.x 2 = im.addr .relDynStart ∧
      d.x 3 = im.addr .relDynEnd ∧ d.log = c.log := by
  have first := linked.op (k := 14) (c := c) rfl
  have effect : (Op.str (.x 0) .sp 24 .offset).effect c = c.setMem
      (storePtr c.mem (c.get .sp + 24).toNat (c.x 0).toNat) := rfl
  rw [effect] at first
  generalize storePtr c.mem (c.get .sp + 24).toNat (c.x 0).toNat = mem at first ⊢
  have last := (linked.adr (k := 15) (c := c.setMem mem) rfl).trans (linked.adr (k := 16) rfl)
  refine ⟨_, first.trans last, ?_, ?_, ?_, ?_⟩
  · exact ((set_keeps (d := .x 2) (c.setMem mem) _ (by decide)).mono (by decide) (by decide)).trans
      (set_keeps (d := .x 3) _ _ (by decide)) (by decide) (by decide)
  · rw [Core.x_set_x, if_neg (by decide), Core.x_set_x, if_pos rfl]
  · rw [Core.x_set_x, if_pos rfl]
  · rw [Core.log_set, Core.log_set, Core.log_setMem]

variable {image : Relocation.Image}

theorem Setting.bounds (setting : Setting im image c) : image.start + image.size ≤ image.relDynStart ∧
    image.relDynStart + 24 * image.count < 2 ^ 64 ∧ 0 < image.count ∧ 16 ≤ Relocation.span image.size ∧
    Relocation.span image.size ≤ image.size + 8 := by
  have ordered := setting.linked.ordered
  have entries := setting.linked.entries
  have tableEnd := setting.tableEnd
  have spans := setting.linked.span_eq
  have least := span_least image.size
  unfold Relocation.Image.copyEnd at ordered
  unfold Relocation.Image.relDynEnd at tableEnd
  omega

/-- The frame is not in the way of the copy. -/
theorem Setting.copy_frame (setting : Setting im image c) (mem : Mem) (value : Nat) :
    Relocation.copyLoop (storePtr mem ((c.get .sp).toNat - 8) value) (c.x 0).toNat image.start image.copyEnd =
      storePtr (Relocation.copyLoop mem (c.x 0).toNat image.start image.copyEnd) ((c.get .sp).toNat - 8) value := by
  have bounds := setting.bounds
  have room := setting.room
  have besideImage := setting.besideImage
  have besideDest := setting.besideDest
  have apart := setting.placed.apart
  have length : image.copyEnd - image.start = image.size := Nat.add_sub_cancel_left _ _
  unfold Relocation.Image.relDynEnd at besideImage apart
  refine copyLoop_storePtr ?_ ?_ ?_
  all_goals
    rw [length]
    omega

/-- The function up to its last branch, with the frame on the stack. -/
structure Started (c d : Core) : Prop where
  sp : d.get .sp = c.get .sp + -32
  x : ∀ n, n ∉ [0, 1, 2, 3, 4, 9, 10, 11, 29] → d.x n = c.x n
  sys : ∀ r, r ≠ c.mode.stack → d.sys r = c.sys r
  mode : d.mode = c.mode
  log : d.log = c.log

/-- An image that moves. -/
theorem moved_start (setting : Setting im image c) (linked : Linked im base relocateCode) :
    ∃ d, Reaches im ⟨place base 0, c⟩ ⟨place base 27, d⟩ ∧ Started c d ∧
      d.mem = Relocation.relocateCode image (c.x 0).toNat (frameMem c ((c.x 0).toNat + Relocation.span image.size)) := by
  have bounds := setting.bounds
  have room := setting.room
  have destEnd := setting.destEnd
  have length : image.copyEnd - image.start = image.size := Nat.add_sub_cancel_left _ _
  have elsewhere : (c.x 0).toNat ≠ image.start := by
    have nonempty := setting.linked.nonempty
    have apart := setting.placed.apart
    unfold Relocation.Image.relDynEnd at apart
    omega
  have frame := linked.ops 0 frameOps c rfl
  obtain ⟨memory, sp, x, sys, mode, log⟩ := frameOps_run c room
  generalize run frameOps c = m0 at frame memory sp x sys mode log
  have dest : m0.x 0 = BitVec.ofNat 64 (c.x 0).toNat := by
    rw [x 0 (by decide), BitVec.ofNat_toNat, BitVec.setWidth_eq]
  have moved : m0.x 0 ≠ im.addr .imageCopyStart := by
    rw [dest, setting.start, Ne, ← BitVec.toNat_inj, toNat_small (c.x 0).isLt, toNat_small (by omega)]
    exact elsewhere
  obtain ⟨m1, ends, endsKeeps, one, two, nine, endsLog⟩ := ends_set linked moved
  rw [setting.start] at one
  rw [setting.copyEnd] at two
  obtain ⟨m2, copy, copyKeeps, zero, copyLog⟩ :=
      copy_loop linked endsKeeps.mem ((endsKeeps.x 0 (by decide)).trans dest) one two
    (by rw [length]; omega) (by rw [length]; omega) (by unfold Relocation.Image.copyEnd; omega)
  rw [length] at zero
  obtain ⟨m3, table, tableKeeps, tableTwo, tableThree, tableLog⟩ := table_set (c := m2) linked
  rw [setting.relDynStart] at tableTwo
  have count : image.relDynEnd = image.relDynStart + 24 * (image.count - 1 + 1) := by
    unfold Relocation.Image.relDynEnd
    omega
  rw [setting.relDynEnd, count] at tableThree
  obtain ⟨d, fix, fixKeeps, fixLog⟩ := fix_loop linked tableTwo tableThree (by omega)
  have keeps2 : Keeps [0, 1, 2, 3, 4, 9, 10, 11] [] (m0.setMem _) m2 :=
    ((endsKeeps.mono (by decide) (by decide)).to_setMem rfl).through (copyKeeps.mono (by decide) (by decide))
  have keeps := (keeps2.through (tableKeeps.mono (by decide) (by decide))).through
    (fixKeeps.mono (by decide) (by decide))
  have base : loadPtr m0.mem (im.addr .textBase).toNat = image.textBase := by
    have inside := setting.inside
    have besideImage := setting.besideImage
    unfold Relocation.Image.relDynEnd at besideImage
    unfold Relocation.Image.copyEnd at inside
    rw [memory, ← setting.textBase]
    exact loadPtr_agree (fun cell low high => framed_outside room (by omega))
  have offset : (m3.x 9).toNat = image.offset (c.x 0).toNat := by
    rw [tableKeeps.x 9 (by decide), Core.x_setMem, copyKeeps.x 9 (by decide), Core.x_setMem, nine, BitVec.toNat_sub,
      load_toNat, base, x 0 (by decide), Nat.add_comm]
    rfl
  have slot : (m2.get .sp + 24).toNat = (c.get .sp).toNat - 8 := by
    rw [keeps2.sp, Core.sp_setMem, sp]
    bv_omega
  have memory3 : m3.mem = Relocation.copyLoop (frameMem c ((c.x 0).toNat + Relocation.span image.size)) (c.x 0).toNat
      image.start image.copyEnd := by
    rw [frameMem, setting.copy_frame, ← memory, tableKeeps.mem, Core.mem_setMem, slot, zero, toNat_small destEnd,
      copyKeeps.mem, Core.mem_setMem]
  refine ⟨d, (((frame.trans ends).trans copy).trans table).trans fix,
    ⟨?_, fun n out => ?_, fun r other => ?_, ?_, by rw [fixLog, tableLog, copyLog, endsLog, log]⟩, ?_⟩
  · rw [keeps.sp, Core.sp_setMem, sp]
  · have within : ([0, 1, 2, 3, 4, 9, 10, 11] : List (Fin 31)) ⊆ [0, 1, 2, 3, 4, 9, 10, 11, 29] := by decide
    rw [keeps.x n (fun member => out (within member)), Core.x_setMem, x n (fun same => out (by rw [same]; decide))]
  · rw [keeps.sys r List.not_mem_nil, Core.sys_setMem, sys r other]
  · rw [keeps.mode, Core.mode_setMem, mode]
  · rw [keeps.mem, Core.mem_setMem, memory3, offset, ← count, Relocation.relocateCode, if_neg elsewhere]

/-- An image that is where it should be: only the frame is written. -/
theorem stayed_start (linked : Linked im base relocateCode) (same : c.x 0 = im.addr .imageCopyStart)
    (room : 32 ≤ (c.get .sp).toNat) :
    ∃ d, Reaches im ⟨place base 0, c⟩ ⟨place base 27, d⟩ ∧ Started c d ∧
      d.mem = framed c.mem (c.get .sp).toNat (c.x 29) (c.x 30) (c.x 0) := by
  have frame := linked.ops 0 frameOps c rfl
  obtain ⟨memory, sp, x, sys, mode, log⟩ := frameOps_run c room
  generalize run frameOps c = m at frame memory sp x sys mode log
  obtain ⟨d, first, keeps, flags, firstLog⟩ := dest_compared (c := m) linked
  have equal : Cond.eq.holds d.flags = true := flags.mpr ((x 0 (by decide)).trans same)
  refine ⟨d, (frame.trans first).trans (linked.bTaken (k := 5) rfl (by decide) equal),
    ⟨?_, fun n out => ?_, fun r other => ?_, ?_, by rw [firstLog, log]⟩, by rw [keeps.mem, memory]⟩
  · rw [keeps.sp, sp]
  · have within : ([1, 9] : List (Fin 31)) ⊆ [0, 1, 2, 3, 4, 9, 10, 11, 29] := by decide
    rw [keeps.x n (fun member => out (within member)), x n (fun same => out (by rw [same]; decide))]
  · rw [keeps.sys r List.not_mem_nil, sys r other]
  · rw [keeps.mode, mode]

/-! ## The frame and the image -/

private theorem target_agree (agree : Agree now mem image.start (image.relDynEnd - image.start))
    (bounds : image.start ≤ image.relDynStart) (entry : j < image.count) :
    image.target now j = image.target mem j ∧ image.relative now j = image.relative mem j ∧
      image.addend now j = image.addend mem j := by
  have whole : image.relDynEnd = image.relDynStart + 24 * image.count := rfl
  unfold Relocation.Image.target Relocation.Image.relative Relocation.Image.addend
  refine ⟨loadPtr_agree (agree.mono (by omega) (by omega)), ?_, loadPtr_agree (agree.mono (by omega) (by omega))⟩
  rw [loadPtr_agree (agree.mono (by omega) (by omega))]

/-- The linked image depends on nothing but the image and its table. -/
theorem linked_agree (agree : Agree now mem image.start (image.relDynEnd - image.start))
    (bounds : image.start + image.size ≤ image.relDynStart) (n : Nat) (entries : n ≤ image.count)
    (inside : k < image.size / 8) :
    image.linked now dest n k = image.linked mem dest n k := by
  have whole : image.relDynEnd = image.relDynStart + 24 * image.count := rfl
  induction n with
  | zero => exact loadPtr_agree (agree.mono (by omega) (by omega))
  | succ n ih =>
    obtain ⟨target, relative, addend⟩ := target_agree (j := n) agree (by omega) (by omega)
    rw [Relocation.linked_succ, Relocation.linked_succ, ih (by omega), Relocation.Image.sets, Relocation.Image.sets,
      target, relative, addend]

private theorem linked_of_agree (linked : Relocation.Linked image mem)
    (agree : Agree now mem image.start (image.relDynEnd - image.start)) : Relocation.Linked image now := by
  have ordered := linked.ordered
  unfold Relocation.Image.copyEnd at ordered
  refine { linked with slots := fun j entry => ?_ }
  obtain ⟨target, relative, _⟩ := target_agree (j := j) agree (by omega) entry
  rw [target, relative]
  exact linked.slots j entry

/-- Only registers that a call may use are different. -/
structure Returned (c d : Core) : Prop where
  x : ∀ n, n ∉ [0, 1, 2, 3, 4, 9, 10, 11] → d.x n = c.x n
  sys : ∀ r, d.sys r = c.sys r
  mode : d.mode = c.mode

/-- The memory after the loops: the linked image, behind it what the copy takes
along, and nothing else. -/
theorem Setting.after (setting : Setting im image c) (stop : Nat) :
    (∀ k < image.size / 8, loadPtr (Relocation.relocateCode image (c.x 0).toNat (frameMem c stop))
      ((c.x 0).toNat + 8 * k) = image.linked c.mem (c.x 0).toNat image.count k) ∧
    (∀ i, image.size ≤ i → i < Relocation.span image.size →
      Relocation.relocateCode image (c.x 0).toNat (frameMem c stop) ((c.x 0).toNat + i) = c.mem (image.start + i)) ∧
    ∀ cell, cell < (c.x 0).toNat ∨ (c.x 0).toNat + Relocation.span image.size ≤ cell →
      Relocation.relocateCode image (c.x 0).toNat (frameMem c stop) cell = frameMem c stop cell := by
  have bounds := setting.bounds
  have room := setting.room
  have besideImage := setting.besideImage
  have spans := setting.linked.span_eq
  have whole : image.relDynEnd = image.relDynStart + 24 * image.count := rfl
  have agree : Agree (frameMem c stop) c.mem image.start (image.relDynEnd - image.start) :=
    fun cell low high => frameMem_outside room (by omega)
  have applied := Relocation.relocateCode_applied (linked_of_agree setting.linked agree) setting.placed
  refine ⟨fun k inside => ?_, fun i behind inside => ?_, fun cell out => ?_⟩
  · rw [applied.words k inside]
    exact linked_agree agree bounds.1 _ le_rfl inside
  · rw [applied.outside _ (by omega), copied, if_pos (by omega), Nat.add_sub_cancel_left, agree _ (by omega) (by omega)]
  · rw [applied.outside cell (by omega), copied, if_neg (by omega)]

/-- The frame, wherever memory is as the function left it there. -/
theorem frame_stacked {d : Core} (room : 32 ≤ (c.get .sp).toNat) (small : stop < 2 ^ 64)
    (sp : d.get .sp = c.get .sp + -32) (kept : Agree d.mem (frameMem c stop) ((c.get .sp).toNat - 32) 32) :
    Stacked d [c.x 29, c.x 30, c.x 0, BitVec.ofNat 64 stop] := by
  have low : (d.get .sp).toNat = (c.get .sp).toNat - 32 := by
    rw [sp]
    bv_omega
  have top := (c.get .sp).isLt
  refine ⟨fun i w found => ?_, by rw [low]; simp only [List.length_cons, List.length_nil]; omega⟩
  have small_i := (List.getElem?_eq_some_iff.mp found).1
  simp only [List.length_cons, List.length_nil] at small_i
  rw [low, loadPtr_agree (kept.mono (by omega) (by omega)), frameMem]
  match i with
  | 0 =>
    cases Option.some.inj found
    rw [loadPtr_storePtr_apart (by omega), framed, loadPtr_storePtr_apart (by omega), loadPtr_storePtr_apart (by omega),
      Nat.mul_zero, Nat.add_zero, loadPtr_storePtr_same (c.x 29).isLt]
  | 1 =>
    cases Option.some.inj found
    rw [loadPtr_storePtr_apart (by omega), framed, loadPtr_storePtr_apart (by omega),
      show (c.get .sp).toNat - 32 + 8 * 1 = (c.get .sp).toNat - 24 by omega, loadPtr_storePtr_same (c.x 30).isLt]
  | 2 =>
    cases Option.some.inj found
    rw [loadPtr_storePtr_apart (by omega), framed,
      show (c.get .sp).toNat - 32 + 8 * 2 = (c.get .sp).toNat - 16 by omega, loadPtr_storePtr_same (c.x 0).isLt]
  | 3 =>
    cases Option.some.inj found
    rw [show (c.get .sp).toNat - 32 + 8 * 3 = (c.get .sp).toNat - 8 by omega, loadPtr_storePtr_same small,
      toNat_small small]

/-- The rest of the function. -/
theorem Started.finish {m : Core} (started : Started c m) (linked : Linked im base relocateCode)
    (linkedFlush : Linked im baseFlush (CacheRanges.flushDcacheRange .flushDcacheRange .flushLine))
    (linkedL3 : Linked im baseL3 flushL3Dcache) (above : c.mode.el ≠ 0) (room : 32 ≤ (c.get .sp).toNat)
    (small : stop < 2 ^ 64) (kept : Agree m.mem (frameMem c stop) ((c.get .sp).toNat - 32) 32)
    (fits : dataCache (c.sys (.sctlr c.mode.el)) = true → CacheRanges.RangeFits (CacheRanges.lineBits (c.sys .ctr))
      (c.x 0).toNat stop) :
    ∃ d, Reaches im ⟨place base 27, m⟩ ⟨c.x 30, d⟩ ∧ Returned c d ∧ d.mem = m.mem ∧
      d.log = c.log ++ imageEvents (c.sys (.sctlr c.mode.el)) (c.sys .ctr) (c.x 0).toNat stop := by
  obtain ⟨sp, x, sys, mode, log⟩ := started
  have stacked : Stacked m [c.x 29, c.x 30, BitVec.ofNat 64 (c.x 0).toNat, BitVec.ofNat 64 stop] := by
    rw [BitVec.ofNat_toNat, BitVec.setWidth_eq]
    exact frame_stacked room small sp kept
  have control : m.sys (.sctlr m.mode.el) = c.sys (.sctlr c.mode.el) := by
    rw [mode, sys _ (Mode.stack_ne (by simp))]
  have type : m.sys .ctr = c.sys .ctr := sys _ (Mode.stack_ne (by simp))
  obtain ⟨d, finished, xEnd, fp, ra, spEnd, sysEnd, memEnd, modeEnd, logEnd⟩ :=
      RelocationCode.finish linked linkedFlush linkedL3
    (by rwa [mode]) (c.x 0).isLt small stacked (by rw [control, type]; exact fits)
  rw [control, type, log] at logEnd
  refine ⟨d, finished, ⟨fun n out => ?_, fun r => ?_, modeEnd.trans mode⟩, memEnd, logEnd⟩
  · by_cases frame : n = 29 ∨ n = 30
    · rcases frame with rfl | rfl
      · exact fp
      · exact ra
    · have others : ∀ n : Fin 31, n ∉ [0, 1, 2, 3, 4, 9, 10, 11] → ¬ (n = 29 ∨ n = 30) →
          n ∉ [0, 1, 2, 3, 29, 30] ∧ n ∉ [0, 1, 2, 3, 4, 9, 10, 11, 29] := by decide
      rw [xEnd n (others n out frame).1, x n (others n out frame).2]
  · by_cases stack : r = c.mode.stack
    · have value : d.sys d.mode.stack = m.get .sp + 32 := spEnd
      rw [modeEnd, mode, sp] at value
      rw [stack, value, BitVec.add_assoc]
      exact BitVec.add_zero _
    · rw [sysEnd r (by rwa [mode]), sys r stack]

/-- Called with another address than that of the image, the function returns
with the image as linked for that address there. The copy is made in pairs of
words: up to eight bytes behind the image come along. No other memory changes but
the frame. When the data cache is on, the lines of all bytes of the copy are
written back, behind the instruction cache if that is on. -/
theorem relocate_code_moves (setting : Setting im image c) (linked : Linked im base relocateCode)
    (linkedFlush : Linked im baseFlush (CacheRanges.flushDcacheRange .flushDcacheRange .flushLine))
    (linkedL3 : Linked im baseL3 flushL3Dcache) (above : c.mode.el ≠ 0)
    (fits : dataCache (c.sys (.sctlr c.mode.el)) = true →
      CacheRanges.RangeFits (CacheRanges.lineBits (c.sys .ctr)) (c.x 0).toNat
        ((c.x 0).toNat + Relocation.span image.size)) :
    ∃ d events, Reaches im ⟨im.addr .relocateCode, c⟩ ⟨c.x 30, d⟩ ∧ Returned c d ∧
      (∀ k < image.size / 8, loadPtr d.mem ((c.x 0).toNat + 8 * k) = image.linked c.mem (c.x 0).toNat image.count k) ∧
      (∀ i, image.size ≤ i → i < Relocation.span image.size → d.mem ((c.x 0).toNat + i) = c.mem (image.start + i)) ∧
      (∀ cell, cell < (c.x 0).toNat ∨ (c.x 0).toNat + Relocation.span image.size ≤ cell →
        cell < (c.get .sp).toNat - 32 ∨ (c.get .sp).toNat ≤ cell → d.mem cell = c.mem cell) ∧
      d.log = c.log ++ events ∧ (dataCache (c.sys (.sctlr c.mode.el)) = false → events = []) ∧
      (dataCache (c.sys (.sctlr c.mode.el)) = true → ∀ b, (c.x 0).toNat ≤ b →
        b < (c.x 0).toNat + Relocation.span image.size →
        .dc .civac (BitVec.ofNat 64 (b / 2 ^ CacheRanges.lineBits (c.sys .ctr) * 2 ^ CacheRanges.lineBits
          (c.sys .ctr))) ∈ events) ∧
      (dataCache (c.sys (.sctlr c.mode.el)) = true → instructionCache (c.sys (.sctlr c.mode.el)) = true →
        .ic .iallu ∈ events) := by
  have room := setting.room
  have besideDest := setting.besideDest
  obtain ⟨m, reached, started, memory⟩ := moved_start setting linked
  obtain ⟨words, behind, outside⟩ := setting.after ((c.x 0).toNat + Relocation.span image.size)
  rw [← memory] at words behind outside
  obtain ⟨d, finished, returned, memEnd, log⟩ := started.finish linked linkedFlush linkedL3 above room setting.destEnd
    (fun cell low high => outside cell (by omega)) fits
  refine ⟨d, _, ?_, returned, ?_, ?_, fun cell outDest outFrame => ?_, log, fun off => ?_, fun on b low high => ?_,
    fun on code => ?_⟩
  · rw [linked.addr .relocateCode 0 (by decide)]
    exact reached.trans finished
  · rw [memEnd]
    exact words
  · rw [memEnd]
    exact behind
  · rw [memEnd, outside cell outDest, frameMem_outside room outFrame]
  · rw [imageEvents, off, if_neg Bool.false_ne_true]
  · rw [imageEvents, on, if_pos rfl]
    refine List.mem_append_left _ (List.mem_append_right _ (List.mem_map.mpr ⟨_, ?_, rfl⟩))
    exact (CacheRanges.mem_rangeLines _ _ _ _).mpr ⟨b, .inl ⟨low, high⟩, rfl⟩
  · rw [imageEvents, on, if_pos rfl, code, if_pos rfl]
    exact List.mem_append_left _ (List.mem_append_left _ (List.mem_cons_self ..))

/-! ### An image of two words -/

/-- The function and what it calls, one behind the other. -/
def sampleCode : List (Line Label) :=
  relocateCode ++ (CacheRanges.flushDcacheRange .flushDcacheRange .flushLine ++ flushL3Dcache)

/-- The image and the table of `Relocation.small`. -/
def sampleImage : Image Label :=
  { link 0x4000 sampleCode with addr := fun label => match label with
    | .imageCopyStart | .textBase => 64
    | .imageCopyEnd | .relDynStart => 80
    | .relDynEnd => 104
    | label => (link 0x4000 sampleCode).addr label }

/-- Both caches are on. -/
def sampleCore (dest : Word) : Core where
  x n := if n = 0 then dest else if n = 30 then 0x900 else 0
  flags := ⟨false, false, false, false⟩
  mode := ⟨2, true, 0xf⟩
  sys r := if r = .ctr then 0x40000 else if r = .sctlr 2 then 0x1004 else if r = .sp 2 then 0x800 else 0
  mem := Function.update (Relocation.smallMem 16) 65 1
  geometry _ := 0
  log := []

private theorem sample_linked : Linked sampleImage 0x4000 relocateCode ∧
    Linked sampleImage (place 0x4000 49) (CacheRanges.flushDcacheRange .flushDcacheRange .flushLine) ∧
    Linked sampleImage (place (place 0x4000 49) 13) flushL3Dcache := by
  have linked : Linked sampleImage 0x4000 sampleCode :=
    (link_linked 0x4000 sampleCode (by decide) (by decide)).withAddr _ (by decide)
  have rest := linked.right (by simp [CacheRanges.flushDcacheRange, CacheRanges.lineLoop, flushL3Dcache, straight])
  exact ⟨linked.left, rest.left, rest.right (by simp [flushL3Dcache])⟩

private theorem sample_setting : Setting sampleImage (Relocation.small 16) (sampleCore 128) where
  start := rfl
  copyEnd := rfl
  relDynStart := rfl
  relDynEnd := rfl
  textBase := by decide
  inside := by decide
  linked := by
    refine ⟨by decide, by decide, by decide, by decide, by decide, by decide, ?_⟩
    intro j entry _
    have first : j = 0 := Nat.lt_one_iff.mp entry
    exact ⟨0, by decide, by rw [first]; decide⟩
  placed := ⟨by decide, by decide⟩
  tableEnd := by decide
  destEnd := by decide
  room := by decide
  besideImage := by decide
  besideDest := by decide

theorem relocate_code_moves_small : Setting sampleImage (Relocation.small 16) (sampleCore 128) ∧
    CacheRanges.RangeFits 6 128 144 ∧ ∃ d, Reaches sampleImage ⟨sampleImage.addr .relocateCode, sampleCore 128⟩
      ⟨0x900, d⟩ ∧ loadPtr d.mem 128 = 128 ∧ .dc .civac 128 ∈ d.log ∧ .ic .iallu ∈ d.log := by
  obtain ⟨linked, linkedFlush, linkedL3⟩ := sample_linked
  have fits : CacheRanges.RangeFits 6 128 144 := by decide
  obtain ⟨d, events, reached, _, words, _, _, log, _, lines, code⟩ :=
    relocate_code_moves sample_setting linked linkedFlush linkedL3 (by decide) (fun _ => fits)
  refine ⟨sample_setting, fits, d, reached, (words 0 (by decide)).trans (by decide), ?_, ?_⟩
  · rw [log]
    exact List.mem_append_right _ (lines (by decide) 128 (by decide) (by decide))
  · rw [log]
    exact List.mem_append_right _ (code (by decide) (by decide))

/-- Called with the address of the image, the function changes nothing but its
frame. The end of the range that it writes back is then the word that the frame
happens to hold there: it is stored only behind the copy. -/
theorem relocate_code_stays (linked : Linked im base relocateCode)
    (linkedFlush : Linked im baseFlush (CacheRanges.flushDcacheRange .flushDcacheRange .flushLine))
    (linkedL3 : Linked im baseL3 flushL3Dcache) (above : c.mode.el ≠ 0) (same : c.x 0 = im.addr .imageCopyStart)
    (room : 32 ≤ (c.get .sp).toNat) (fits : dataCache (c.sys (.sctlr c.mode.el)) = true →
      CacheRanges.RangeFits (CacheRanges.lineBits (c.sys .ctr)) (c.x 0).toNat (loadPtr c.mem ((c.get .sp).toNat - 8))) :
    ∃ d, Reaches im ⟨im.addr .relocateCode, c⟩ ⟨c.x 30, d⟩ ∧ Returned c d ∧
      (∀ cell, cell < (c.get .sp).toNat - 32 ∨ (c.get .sp).toNat ≤ cell → d.mem cell = c.mem cell) ∧
      d.log = c.log ++ imageEvents (c.sys (.sctlr c.mode.el)) (c.sys .ctr) (c.x 0).toNat
        (loadPtr c.mem ((c.get .sp).toNat - 8)) := by
  obtain ⟨m, reached, started, memory⟩ := stayed_start linked same room
  -- the word that is never stored reads back as if it had been
  have whole : m.mem = frameMem c (loadPtr c.mem ((c.get .sp).toNat - 8)) := by
    have held : loadPtr (framed c.mem (c.get .sp).toNat (c.x 29) (c.x 30) (c.x 0)) ((c.get .sp).toNat - 8) =
        loadPtr c.mem ((c.get .sp).toNat - 8) := by
      rw [framed, loadPtr_storePtr_apart (by omega), loadPtr_storePtr_apart (by omega),
        loadPtr_storePtr_apart (by omega)]
    rw [memory, frameMem, ← held, storePtr_self]
  obtain ⟨d, finished, returned, memEnd, log⟩ := started.finish linked linkedFlush linkedL3 above room (loadPtr_lt ..)
    (fun cell _ _ => congrFun whole cell) fits
  refine ⟨d, ?_, returned, fun cell out => ?_, log⟩
  · rw [linked.addr .relocateCode 0 (by decide)]
    exact reached.trans finished
  · rw [memEnd, whole, frameMem_outside room out]

/-- Called with the address of the image, with 200 where the end of the copy
would be in the frame. -/
def stayingCore : Core :=
  { sampleCore 64 with mem := storePtr (sampleCore 64).mem 0x7f8 200 }

/-- Three lines are written back, for an image of sixteen bytes. -/
theorem relocate_code_stays_small :
    stayingCore.x 0 = sampleImage.addr .imageCopyStart ∧ CacheRanges.RangeFits 6 64 200 ∧
    ∃ d, Reaches sampleImage ⟨sampleImage.addr .relocateCode, stayingCore⟩ ⟨0x900, d⟩ ∧
      d.log = [.ic .iallu, .isb, .dc .civac 64, .dc .civac 128, .dc .civac 192, .dsb] := by
  obtain ⟨linked, linkedFlush, linkedL3⟩ := sample_linked
  have fits : CacheRanges.RangeFits 6 64 200 := by decide
  have held : loadPtr stayingCore.mem ((stayingCore.get .sp).toNat - 8) = 200 := loadPtr_storePtr_same (by decide)
  obtain ⟨d, reached, _, _, log⟩ := relocate_code_stays (c := stayingCore) linked linkedFlush linkedL3 (by decide) rfl
    (by decide) (fun _ => by rw [held]; exact fits)
  rw [held] at log
  exact ⟨rfl, fits, d, reached, log⟩

end RockOs.RelocationCode
