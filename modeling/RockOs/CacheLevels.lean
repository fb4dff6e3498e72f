import Mathlib.Data.List.Nodup
import RockOs.Assembly

/-! `__asm_dcache_level` and `__asm_dcache_all` of `arch/arm64/kernel/cache.S`:
maintenance of whole data caches by set and way. For each level below the
level of coherence that has a data cache, one operation is issued for each of
its lines. -/
namespace RockOs.CacheLevels
open Aarch64 Assembly

/-! ## The code -/

/-- The labels of these functions. -/
inductive Label where
  | dcacheLevel
  | loopSet
  | loopWay
  | clean
  | next
  | dcacheAll
  | loopLevel
  | skip
  | finished
  | flushDcacheAll
  | invalidateDcacheAll
  deriving DecidableEq, Repr

def geometryOps : List Op :=
  [.alu .lsl (.x 12) (.x 0) (.imm 1),
    .msr .csselr (.x 12),
    .isb,
    .mrs (.x 6) .ccsidr,
    .alu .and (.x 2) (.x 6) (.imm 7),
    .alu .add (.x 2) (.x 2) (.imm 4),
    .mov (.x 3) (.imm 0x3ff),
    .alu .and (.x 3) (.x 3) (.lsr (.x 6) 3),
    .clz32 (.x 5) (.x 3),
    .mov (.x 4) (.imm 0x7fff),
    .alu .and (.x 4) (.x 4) (.lsr (.x 6) 13)]

def operandOps : List Op :=
  [.alu .lsl (.x 7) (.x 6) (.reg (.x 5)),
    .alu .orr (.x 9) (.x 12) (.reg (.x 7)),
    .alu .lsl (.x 7) (.x 4) (.reg (.x 2)),
    .alu .orr (.x 9) (.x 9) (.reg (.x 7))]

/-- `__asm_dcache_level`. -/
def dcacheLevel : List (Line Label) := List.flatten [
  [.label .dcacheLevel], straight geometryOps,
  [.label .loopSet], straight [.mov (.x 6) (.reg (.x 3))],
  [.label .loopWay], straight operandOps,
  [.ins (.tbz (.x 1) 0 .clean)],
  straight [.dc .isw (.x 9)], [.ins (.b .next)],
  [.label .clean], straight [.dc .cisw (.x 9)],
  [.label .next], straight [.subs (.x 6) (.x 6) (.imm 1)], [.ins (.bCond .ge .loopWay)],
  straight [.subs (.x 4) (.x 4) (.imm 1)], [.ins (.bCond .ge .loopSet)],
  [.ins (.ret lr)]]

def typeOps : List Op :=
  [.alu .lsl (.x 12) (.x 0) (.imm 1),
    .alu .add (.x 12) (.x 12) (.reg (.x 0)),
    .alu .lsr (.x 12) (.x 10) (.reg (.x 12)),
    .alu .and (.x 12) (.x 12) (.imm 7),
    .subs .xzr (.x 12) (.imm 2)]

/-- `__asm_dcache_all`. -/
def dcacheAll : List (Line Label) := List.flatten [
  [.label .dcacheAll],
  straight [.mov (.x 1) (.reg (.x 0)), .isb, .mrs (.x 10) .clidr, .alu .lsr (.x 11) (.x 10) (.imm 24),
    .alu .and (.x 11) (.x 11) (.imm 7)],
  [.ins (.cbz (.x 11) .finished)],
  straight [.mov (.x 15) (.reg lr), .mov (.x 0) (.imm 0)],
  [.label .loopLevel], straight typeOps, [.ins (.bCond .lt .skip), .ins (.bl .dcacheLevel)],
  [.label .skip], straight [.alu .add (.x 0) (.x 0) (.imm 1), .subs .xzr (.x 11) (.reg (.x 0))],
  [.ins (.bCond .gt .loopLevel)],
  straight [.mov (.x 0) (.imm 0), .msr .csselr (.x 0), .dsb, .isb, .mov lr (.reg (.x 15))],
  [.label .finished, .ins (.ret lr)]]

/-- `__asm_flush_dcache_all`. -/
def flushDcacheAll : List (Line Label) :=
  [.label .flushDcacheAll, .ins (.op (.mov (.x 0) (.imm 0))), .ins (.b .dcacheAll)]

/-- `__asm_invalidate_dcache_all`. -/
def invalidateDcacheAll : List (Line Label) :=
  [.label .invalidateDcacheAll, .ins (.op (.mov (.x 0) (.imm 1))), .ins (.b .dcacheAll)]

/-! ## Sets and ways -/

/-- The operation that the lowest bit of `x1` asks for. -/
def maintenance (x1 : Word) : DcOp := if x1.getLsbD 0 then .isw else .cisw

/-- The operand made of `level` and `way` of the current set. -/
def operand (c : Core) (way : Word) : Word :=
  c.x 12 ||| way <<< ((c.x 5).toNat % 64) ||| c.x 4 <<< ((c.x 2).toNat % 64)

variable {im : Image Label} {base : Word} {c : Core}

private theorem operandOps_run (c : Core) : (run operandOps c).x 9 = operand c (c.x 6) ∧
    (run operandOps c).log = c.log := by
  simp [operandOps, Op.effect, Operand.eval, Alu.eval, operand]

/-- The operation that `x1` asks for is issued for the operand in `x9`. -/
theorem issue_reaches (linked : Linked im base dcacheLevel) :
    Reaches im ⟨place base 16, c⟩ ⟨place base 20, c.emit (.dc (maintenance (c.x 1)) (c.x 9))⟩ := by
  unfold maintenance
  cases bit : (c.x 1).getLsbD 0 with
  | true => exact (linked.tbzPassed (k := 16) rfl bit).trans ((linked.op (k := 17) rfl).trans
      (linked.b (k := 18) rfl (by decide)))
  | false => exact (linked.tbzTaken (k := 16) (j := 19) rfl (by decide) bit).trans (linked.op (k := 19) rfl)

/-- One operation, up to the branch behind it. -/
theorem way_step (linked : Linked im base dcacheLevel) : ∃ d, Reaches im ⟨place base 12, c⟩ ⟨place base 21, d⟩ ∧
    Keeps [6, 7, 9] [] c d ∧ d.x 6 = c.x 6 - 1 ∧ d.flags = subFlags (c.x 6) 1 ∧
    d.log = c.log ++ [.dc (maintenance (c.x 1)) (operand c (c.x 6))] := by
  have first := linked.ops 12 operandOps c rfl
  obtain ⟨value, log⟩ := operandOps_run c
  have keeps := run_keeps operandOps rfl c
  generalize run operandOps c = mid at first value log keeps
  have six : mid.x 6 = c.x 6 := keeps.x 6 (by decide)
  have one : mid.x 1 = c.x 1 := keeps.x 1 (by decide)
  have last := linked.op (k := 20) (c := mid.emit (.dc (maintenance (mid.x 1)) (mid.x 9))) rfl
  refine ⟨_, (first.trans (issue_reaches linked)).trans last, ?_, ?_, ?_, ?_⟩
  · exact ((keeps.mono (by decide) (by decide)).trans (emit_keeps ..) (by decide) (by decide)).trans
      (Op.keeps _ _ rfl) (by decide) (by decide)
  · show (Core.set _ (.x 6) _).x 6 = _
    rw [Core.x_set_x, if_pos rfl, ← six]
    rfl
  · show subFlags (mid.x 6) 1 = _
    rw [six]
  · show mid.log ++ _ = _
    rw [log, one, value]

private theorem operand_kept (keeps : Keeps [6, 7, 9] [] c d) (way : Word) : operand d way = operand c way := by
  unfold operand
  rw [keeps.x 12 (by decide), keeps.x 5 (by decide), keeps.x 4 (by decide), keeps.x 2 (by decide)]

/-- Whether a counter from `n` down has more to do. -/
theorem counts_on (small : n < 2 ^ 63) : Cond.ge.holds (subFlags (BitVec.ofNat 64 n) 1) = true ↔ 0 < n := by
  rw [holds_ge, toInt_small small]
  show (1 : Int) ≤ n ↔ _
  omega

private theorem range_succ_reverse (n : Nat) : (List.range (n + 1)).reverse = n :: (List.range n).reverse := by
  rw [List.range_succ, List.reverse_append]
  rfl

/-- The loop over the ways, from way `w` down. -/
theorem way_loop (linked : Linked im base dcacheLevel) (small : w < 2 ^ 63) (way : c.x 6 = BitVec.ofNat 64 w) :
    ∃ d, Reaches im ⟨place base 12, c⟩ ⟨place base 22, d⟩ ∧ Keeps [6, 7, 9] [] c d ∧
      d.log = c.log ++ (List.range (w + 1)).reverse.map
        (fun way => .dc (maintenance (c.x 1)) (operand c (BitVec.ofNat 64 way))) := by
  induction w generalizing c with
  | zero =>
    obtain ⟨d, reached, keeps, _, flags, log⟩ := way_step (c := c) linked
    rw [way] at flags log
    have ended : ¬ Cond.ge.holds d.flags = true := by
      rw [flags, counts_on small]
      omega
    exact ⟨d, reached.trans (linked.bPassed (k := 21) rfl ended), keeps, log⟩
  | succ w ih =>
    obtain ⟨d, reached, keeps, six, flags, log⟩ := way_step (c := c) linked
    rw [way] at flags log
    have more : Cond.ge.holds d.flags = true := by
      rw [flags, counts_on small]
      omega
    have next : d.x 6 = BitVec.ofNat 64 w := by
      rw [six, way, ofNat_succ_sub]
    obtain ⟨e, rest, keepsRest, logRest⟩ := ih (by omega) next
    refine ⟨e, (reached.trans (linked.bTaken (k := 21) rfl (by decide) more)).trans rest,
      keeps.trans keepsRest (by decide) (by decide), ?_⟩
    rw [logRest, log, keeps.x 1 (by decide), range_succ_reverse (w + 1), List.map_cons, List.append_assoc]
    simp only [operand_kept keeps]
    rfl

/-- The operations for all ways of a set. -/
def setOps (c : Core) (ways : Nat) (set : Word) : List Event :=
  (List.range ways).reverse.map (fun way => .dc (maintenance (c.x 1))
    (c.x 12 ||| BitVec.ofNat 64 way <<< ((c.x 5).toNat % 64) ||| set <<< ((c.x 2).toNat % 64)))

/-- One set, up to the branch behind it. -/
theorem set_step (linked : Linked im base dcacheLevel) (small : w < 2 ^ 63) (ways : c.x 3 = BitVec.ofNat 64 w) :
    ∃ d, Reaches im ⟨place base 11, c⟩ ⟨place base 23, d⟩ ∧ Keeps [4, 6, 7, 9] [] c d ∧ d.x 4 = c.x 4 - 1 ∧
      d.flags = subFlags (c.x 4) 1 ∧ d.log = c.log ++ setOps c (w + 1) (c.x 4) := by
  have first := linked.op (k := 11) (c := c) rfl
  have copied : (Op.effect c (.mov (.x 6) (.reg (.x 3)))).x 6 = BitVec.ofNat 64 w := ways
  obtain ⟨d, loop, keeps, log⟩ := way_loop linked small copied
  have start : Keeps [6, 7, 9] [] c (Op.effect c (.mov (.x 6) (.reg (.x 3)))) :=
    (Op.keeps _ _ rfl).mono (by decide) (by decide)
  have all := start.trans keeps (by decide) (by decide)
  refine ⟨_, (first.trans loop).trans (linked.op (k := 22) rfl), ?_, ?_, ?_, ?_⟩
  · exact (all.mono (by decide) (by decide)).trans (Op.keeps _ _ rfl) (by decide) (by decide)
  · show (Core.set _ (.x 4) _).x 4 = _
    rw [Core.x_set_x, if_pos rfl, ← all.x 4 (by decide)]
    rfl
  · show subFlags (d.x 4) 1 = _
    rw [all.x 4 (by decide)]
  · show d.log = _
    rw [log, start.x 1 (by decide)]
    simp only [operand_kept start]
    rfl

private theorem setOps_kept (keeps : Keeps [4, 6, 7, 9] [] c d) (ways : Nat) (set : Word) :
    setOps d ways set = setOps c ways set := by
  unfold setOps
  rw [keeps.x 1 (by decide), keeps.x 12 (by decide), keeps.x 5 (by decide), keeps.x 2 (by decide)]

/-- The loop over the sets, from set `s` down. -/
theorem set_loop (linked : Linked im base dcacheLevel) (smallWays : w < 2 ^ 63) (ways : c.x 3 = BitVec.ofNat 64 w)
    (small : s < 2 ^ 63) (set : c.x 4 = BitVec.ofNat 64 s) :
    ∃ d, Reaches im ⟨place base 11, c⟩ ⟨place base 24, d⟩ ∧ Keeps [4, 6, 7, 9] [] c d ∧
      d.log = c.log ++ (List.range (s + 1)).reverse.flatMap (fun set => setOps c (w + 1) (BitVec.ofNat 64 set)) := by
  induction s generalizing c with
  | zero =>
    obtain ⟨d, reached, keeps, _, flags, log⟩ := set_step linked smallWays ways
    rw [set] at flags log
    have ended : ¬ Cond.ge.holds d.flags = true := by
      rw [flags, counts_on small]
      omega
    refine ⟨d, reached.trans (linked.bPassed (k := 23) rfl ended), keeps, ?_⟩
    rw [log]
    exact congrArg _ (List.append_nil _).symm
  | succ s ih =>
    obtain ⟨d, reached, keeps, four, flags, log⟩ := set_step linked smallWays ways
    rw [set] at flags log
    have more : Cond.ge.holds d.flags = true := by
      rw [flags, counts_on small]
      omega
    have next : d.x 4 = BitVec.ofNat 64 s := by
      rw [four, set, ofNat_succ_sub]
    obtain ⟨e, rest, keepsRest, logRest⟩ := ih ((keeps.x 3 (by decide)).trans ways) (by omega) next
    refine ⟨e, (reached.trans (linked.bTaken (k := 23) rfl (by decide) more)).trans rest,
      keeps.trans keepsRest (by decide) (by decide), ?_⟩
    rw [logRest, log, range_succ_reverse (s + 1), List.flatMap_cons, List.append_assoc]
    simp only [setOps_kept keeps]

/-! ## One level -/

/-- What `CCSIDR_EL1` says of a cache: the size of its lines, as a power of
two, and the numbers of its ways and sets. -/
def lineBits (ccsidr : Word) : Nat := (ccsidr &&& 7).toNat + 4

def ways (ccsidr : Word) : Nat := (0x3ff &&& ccsidr >>> 3).toNat + 1

def sets (ccsidr : Word) : Nat := (0x7fff &&& ccsidr >>> 13).toNat + 1

/-- The bits that number the ways. -/
def wayBits (ccsidr : Word) : Nat := (ways ccsidr - 1).size

/-- The operand for a line of a level: level from bit 1 on, set above the bits of
a line, way in the highest of 32 bits. -/
def setWay (ccsidr : Word) (level set way : Nat) : Word :=
  BitVec.ofNat 64 level <<< 1 ||| BitVec.ofNat 64 way <<< (32 - wayBits ccsidr) |||
    BitVec.ofNat 64 set <<< lineBits ccsidr

/-- The lines of a level, in the order the code takes them. -/
def levelLines (ccsidr : Word) : List (Nat × Nat) :=
  (List.range (sets ccsidr)).reverse.flatMap (fun set => (List.range (ways ccsidr)).reverse.map (fun way => (set, way)))

/-- What the code finds out about the level in `x0`. -/
theorem geometryOps_run (c : Core) :
    (run geometryOps c).log = c.log ++ [.msr .csselr (c.x 0 <<< 1), .isb] ∧ (run geometryOps c).x 12 = c.x 0 <<< 1 ∧
    (run geometryOps c).x 2 = (c.geometry (c.x 0 <<< 1) &&& 7) + 4 ∧
    (run geometryOps c).x 3 = 0x3ff &&& c.geometry (c.x 0 <<< 1) >>> 3 ∧
    (run geometryOps c).x 4 = 0x7fff &&& c.geometry (c.x 0 <<< 1) >>> 13 ∧
    (run geometryOps c).x 5 = BitVec.ofNat 64 (leadingZeros (0x3ff &&& c.geometry (c.x 0 <<< 1) >>> 3)) := by
  simp [geometryOps, Op.effect, Operand.eval, Alu.eval, Core.readSys]

private theorem ways_bound (ccsidr : Word) : (0x3ff &&& ccsidr >>> 3).toNat < 2 ^ 10 := by
  rw [BitVec.toNat_and, Nat.and_comm]
  exact Nat.and_lt_two_pow _ (by decide)

private theorem sets_bound (ccsidr : Word) : (0x7fff &&& ccsidr >>> 13).toNat < 2 ^ 15 := by
  rw [BitVec.toNat_and, Nat.and_comm]
  exact Nat.and_lt_two_pow _ (by decide)

/-- The shifts of the operand. -/
theorem way_shift (ccsidr : Word) :
    (BitVec.ofNat 64 (leadingZeros (0x3ff &&& ccsidr >>> 3))).toNat % 64 = 32 - wayBits ccsidr := by
  have bound := ways_bound ccsidr
  have same : (0x3ff &&& ccsidr >>> 3).toNat % 2 ^ 32 = (0x3ff &&& ccsidr >>> 3).toNat := Nat.mod_eq_of_lt (by omega)
  unfold leadingZeros wayBits ways
  rw [same, Nat.add_sub_cancel, BitVec.toNat_ofNat]
  omega

private theorem set_shift (ccsidr : Word) : ((ccsidr &&& 7) + 4).toNat % 64 = lineBits ccsidr := by
  have bound : (ccsidr &&& 7).toNat < 2 ^ 3 := by
    rw [BitVec.toNat_and]
    exact Nat.and_lt_two_pow _ (by decide)
  unfold lineBits
  rw [BitVec.toNat_add]
  show ((ccsidr &&& 7).toNat + 4) % 2 ^ 64 % 64 = _
  omega

/-- `__asm_dcache_level` returns after one operation for each line of the level. -/
theorem level_reaches (linked : Linked im base dcacheLevel) (level : Nat) (zero : c.x 0 = BitVec.ofNat 64 level) :
    ∃ d, Reaches im ⟨place base 0, c⟩ ⟨c.x 30, d⟩ ∧ Keeps [2, 3, 4, 5, 6, 7, 9, 12] [.csselr] c d ∧
      d.log = c.log ++ [.msr .csselr (c.x 0 <<< 1), .isb] ++ (levelLines (c.geometry (c.x 0 <<< 1))).map
        (fun line => .dc (maintenance (c.x 1)) (setWay (c.geometry (c.x 0 <<< 1)) level line.1 line.2)) := by
  have first := linked.ops 0 geometryOps c rfl
  have keeps := run_keeps geometryOps rfl c
  obtain ⟨log, x12, x2, x3, x4, x5⟩ := geometryOps_run c
  generalize run geometryOps c = mid at first keeps log x12 x2 x3 x4 x5
  generalize c.geometry (c.x 0 <<< 1) = ccsidr at x2 x3 x4 x5 ⊢
  have waysBound := ways_bound ccsidr
  have setsBound := sets_bound ccsidr
  obtain ⟨d, loop, loopKeeps, loopLog⟩ := set_loop (c := mid) (w := (0x3ff &&& ccsidr >>> 3).toNat)
    (s := (0x7fff &&& ccsidr >>> 13).toNat) linked (by omega)
    (by rw [x3, BitVec.ofNat_toNat, BitVec.setWidth_eq]) (by omega)
    (by rw [x4, BitVec.ofNat_toNat, BitVec.setWidth_eq])
  have kept : Keeps [2, 3, 4, 5, 6, 7, 9, 12] [.csselr] c d :=
    (keeps.mono (by decide) (by decide)).trans loopKeeps (by decide) (by decide)
  have link : d.x 30 = c.x 30 := kept.x 30 (by decide)
  refine ⟨d, ?_, kept, ?_⟩
  · rw [← link]
    exact (first.trans loop).trans (linked.ret (k := 24) rfl)
  · have ops : (fun set => setOps mid ((0x3ff &&& ccsidr >>> 3).toNat + 1) (BitVec.ofNat 64 set)) = fun set =>
        ((List.range (ways ccsidr)).reverse.map (fun way => (set, way))).map
          (fun line => .dc (maintenance (c.x 1)) (setWay ccsidr level line.1 line.2)) := by
      funext set
      rw [setOps, List.map_map, keeps.x 1 (by decide), x12, x5, way_shift, x2, set_shift, zero]
      rfl
    rw [loopLog, log, ops, levelLines, List.map_flatMap]
    rfl

/-! ## All levels -/

/-- The level of coherence. -/
def loc (clidr : Word) : Nat := (clidr >>> 24 &&& 7).toNat

/-- Which caches a level has: from 2 on, a data cache. -/
def cacheType (clidr : Word) (level : Nat) : Nat := (clidr >>> (3 * level) &&& 7).toNat

/-- `CCSIDR_EL1` of a level. -/
def ccsidrOf (c : Core) (level : Nat) : Word := c.geometry (BitVec.ofNat 64 level <<< 1)

/-- What is issued for a level. -/
def levelEvents (c : Core) (op : DcOp) (level : Nat) : List Event :=
  if 2 ≤ cacheType (c.sys .clidr) level then
    [.msr .csselr (BitVec.ofNat 64 level <<< 1), .isb] ++ (levelLines (ccsidrOf c level)).map
      (fun line => .dc op (setWay (ccsidrOf c level) level line.1 line.2))
  else []

private theorem and_seven_bound (w : Word) : (w &&& 7).toNat < 8 := by
  rw [BitVec.toNat_and]
  exact Nat.and_lt_two_pow (n := 3) _ (by decide)

/-- The type of the level in `x0`, compared. -/
theorem typeOps_run (c : Core) (small : level < 8) (zero : c.x 0 = BitVec.ofNat 64 level) :
    (run typeOps c).flags = subFlags (BitVec.ofNat 64 (cacheType (c.x 10) level)) 2 ∧ (run typeOps c).log = c.log := by
  have triple : c.x 0 <<< 1 + c.x 0 = BitVec.ofNat 64 (3 * level) := by
    rw [zero]
    apply BitVec.eq_of_toNat_eq
    rw [BitVec.toNat_add, BitVec.toNat_shiftLeft, BitVec.toNat_ofNat, BitVec.toNat_ofNat]
    omega
  have shift : (BitVec.ofNat 64 (3 * level)).toNat % 64 = 3 * level := by
    rw [BitVec.toNat_ofNat]
    omega
  have flags : (run typeOps c).flags =
      subFlags (c.x 10 >>> ((c.x 0 <<< 1 + c.x 0).toNat % 64) &&& 7) 2 := by
    simp [typeOps, Op.effect, Operand.eval, Alu.eval]
  refine ⟨?_, by simp [typeOps, Op.effect]⟩
  rw [flags, triple, shift, cacheType, BitVec.ofNat_toNat, BitVec.setWidth_eq]

variable {baseAll : Word}

/-- The end of a pass: the next level, compared with the last. -/
theorem next_level (linked : Linked im baseAll dcacheAll) (zero : c.x 0 = BitVec.ofNat 64 level) :
    ∃ d, Reaches im ⟨place baseAll 15, c⟩ ⟨place baseAll 17, d⟩ ∧ Keeps [0] [] c d ∧
      d.x 0 = BitVec.ofNat 64 (level + 1) ∧ d.flags = subFlags (c.x 11) (BitVec.ofNat 64 (level + 1)) ∧
        d.log = c.log := by
  have next : c.x 0 + 1 = BitVec.ofNat 64 (level + 1) := by
    rw [zero, BitVec.ofNat_add]
    rfl
  refine ⟨_, linked.ops 15 [.alu .add (.x 0) (.x 0) (.imm 1), .subs .xzr (.x 11) (.reg (.x 0))] c rfl,
    (run_keeps _ rfl c).mono (by decide) (by decide), ?_, ?_, ?_⟩
  · rw [← next]
    simp [Op.effect, Operand.eval, Alu.eval]
  · rw [← next]
    simp [Op.effect, Operand.eval, Alu.eval]
  · simp [Op.effect]

/-- One level, up to the branch behind it. -/
theorem level_step (linked : Linked im base dcacheLevel) (linkedAll : Linked im baseAll dcacheAll) (small : level < 8)
    (zero : c.x 0 = BitVec.ofNat 64 level) (ten : c.x 10 = c.sys .clidr) :
    ∃ d, Reaches im ⟨place baseAll 8, c⟩ ⟨place baseAll 17, d⟩ ∧
      Keeps [0, 2, 3, 4, 5, 6, 7, 9, 12, 30] [.csselr] c d ∧ d.x 0 = BitVec.ofNat 64 (level + 1) ∧
      d.flags = subFlags (c.x 11) (BitVec.ofNat 64 (level + 1)) ∧
      d.log = c.log ++ levelEvents c (maintenance (c.x 1)) level := by
  have first := linkedAll.ops 8 typeOps c rfl
  have keeps : Keeps [12] [] c (run typeOps c) := (run_keeps typeOps rfl c).mono (by decide) (by decide)
  obtain ⟨flags, log⟩ := typeOps_run c small zero
  rw [ten] at flags
  generalize run typeOps c = mid at first keeps flags log
  have here : mid.x 0 = BitVec.ofNat 64 level := (keeps.x 0 (by decide)).trans zero
  have bound := and_seven_bound (c.sys .clidr >>> (3 * level))
  have compared : Cond.lt.holds mid.flags = true ↔ ¬ 2 ≤ cacheType (c.sys .clidr) level := by
    rw [flags, holds_lt, toInt_small (by unfold cacheType; omega)]
    show ((cacheType (c.sys .clidr) level : Nat) : Int) < 2 ↔ _
    omega
  by_cases cached : 2 ≤ cacheType (c.sys .clidr) level
  · have called := linkedAll.bl (k := 14) (c := mid) rfl
    rw [linked.addr .dcacheLevel 0 (by decide)] at called
    have start : Keeps [12, 30] [] c (mid.set lr (place baseAll 15)) :=
      (keeps.mono (by decide) (by decide)).trans (set_keeps mid _ (by decide)) (by decide) (by decide)
    obtain ⟨d, done, doneKeeps, doneLog⟩ := level_reaches (c := mid.set lr (place baseAll 15)) linked level here
    have all : Keeps [2, 3, 4, 5, 6, 7, 9, 12, 30] [.csselr] c d :=
      (start.mono (by decide) (by decide)).trans doneKeeps (by decide) (by decide)
    obtain ⟨e, next, nextKeeps, nextZero, nextFlags, nextLog⟩ := next_level linkedAll ((all.x 0 (by decide)).trans zero)
    have passed := linkedAll.bPassed (k := 13) (c := mid) rfl (mt compared.mp (not_not.mpr cached))
    refine ⟨e, (((first.trans passed).trans called).trans done).trans next, ?_, nextZero, ?_, ?_⟩
    · exact (all.mono (by decide) (by decide)).trans nextKeeps (by decide) (by decide)
    · rw [nextFlags, all.x 11 (by decide)]
    · rw [nextLog, doneLog, levelEvents, if_pos cached, start.x 0 (by decide), start.x 1 (by decide), start.geometry,
        zero, Core.log_set, log, List.append_assoc, ccsidrOf]
  · obtain ⟨d, next, nextKeeps, nextZero, nextFlags, nextLog⟩ := next_level linkedAll here
    refine ⟨d, (first.trans (linkedAll.bTaken (k := 13) rfl (by decide) (compared.mpr cached))).trans next,
      ?_, nextZero, ?_, ?_⟩
    · exact (keeps.mono (by decide) (by decide)).trans nextKeeps (by decide) (by decide)
    · rw [nextFlags, keeps.x 11 (by decide)]
    · rw [nextLog, log, levelEvents, if_neg cached, List.append_nil]

/-- Whether a level is followed by another. -/
theorem levels_on (small : level + left < 7) :
    Cond.gt.holds (subFlags (BitVec.ofNat 64 (level + left + 1)) (BitVec.ofNat 64 (level + 1))) = true ↔ 0 < left := by
  rw [holds_gt, toInt_small (by omega), toInt_small (by omega)]
  omega

private theorem levelEvents_kept {written : List (Fin 31)} {sysWritten : List SysReg}
    (keeps : Keeps written sysWritten c d) (other : .clidr ∉ sysWritten) (op : DcOp) :
    levelEvents d op = levelEvents c op := by
  funext level
  unfold levelEvents ccsidrOf
  rw [keeps.sys .clidr other, keeps.geometry]

/-- The loop over the levels, with `left` more after this one. -/
theorem level_loop (linked : Linked im base dcacheLevel) (linkedAll : Linked im baseAll dcacheAll)
    (small : level + left < 7) (zero : c.x 0 = BitVec.ofNat 64 level) (ten : c.x 10 = c.sys .clidr)
    (eleven : c.x 11 = BitVec.ofNat 64 (level + left + 1)) :
    ∃ d, Reaches im ⟨place baseAll 8, c⟩ ⟨place baseAll 18, d⟩ ∧
      Keeps [0, 2, 3, 4, 5, 6, 7, 9, 12, 30] [.csselr] c d ∧
      d.log = c.log ++ (List.range' level (left + 1)).flatMap (levelEvents c (maintenance (c.x 1))) := by
  induction left generalizing c level with
  | zero =>
    obtain ⟨d, reached, keeps, _, flags, log⟩ := level_step linked linkedAll (by omega) zero ten
    have ended : ¬ Cond.gt.holds d.flags = true := by
      rw [flags, eleven, levels_on small]
      omega
    refine ⟨d, reached.trans (linkedAll.bPassed (k := 17) rfl ended), keeps, ?_⟩
    rw [log]
    exact congrArg _ (List.append_nil _).symm
  | succ left ih =>
    obtain ⟨d, reached, keeps, next, flags, log⟩ := level_step linked linkedAll (by omega) zero ten
    have more : Cond.gt.holds d.flags = true := by
      rw [flags, eleven, levels_on small]
      omega
    have last : d.x 11 = BitVec.ofNat 64 (level + 1 + left + 1) := by
      rw [keeps.x 11 (by decide), eleven, show level + (left + 1) + 1 = level + 1 + left + 1 by omega]
    have types : d.x 10 = d.sys .clidr := by
      rw [keeps.x 10 (by decide), keeps.sys .clidr (by decide), ten]
    obtain ⟨e, rest, keepsRest, logRest⟩ := ih (by omega) next types last
    refine ⟨e, (reached.trans (linkedAll.bTaken (k := 17) rfl (by decide) more)).trans rest,
      keeps.trans keepsRest (by decide) (by decide), ?_⟩
    rw [logRest, log, levelEvents_kept keeps (by decide), keeps.x 1 (by decide),
      show List.range' level (left + 1 + 1) = level :: List.range' (level + 1) (left + 1) from List.range'_succ ..,
      List.flatMap_cons, List.append_assoc]

/-- What `__asm_dcache_all` issues. -/
def allEvents (c : Core) (op : DcOp) : List Event :=
  if loc (c.sys .clidr) = 0 then [.isb]
  else [.isb] ++ (List.range (loc (c.sys .clidr))).flatMap (levelEvents c op) ++ [.msr .csselr 0, .dsb, .isb]

def startOps : List Op :=
  [.mov (.x 1) (.reg (.x 0)), .isb, .mrs (.x 10) .clidr, .alu .lsr (.x 11) (.x 10) (.imm 24),
    .alu .and (.x 11) (.x 11) (.imm 7)]

def loopStartOps : List Op := [.mov (.x 15) (.reg lr), .mov (.x 0) (.imm 0)]

def endOps : List Op := [.mov (.x 0) (.imm 0), .msr .csselr (.x 0), .dsb, .isb, .mov lr (.reg (.x 15))]

private theorem startOps_run (c : Core) : (run startOps c).x 1 = c.x 0 ∧ (run startOps c).x 10 = c.sys .clidr ∧
    (run startOps c).x 11 = BitVec.ofNat 64 (loc (c.sys .clidr)) ∧ (run startOps c).log = c.log ++ [.isb] := by
  have value : (run startOps c).x 11 = c.sys .clidr >>> 24 &&& 7 := by
    simp [startOps, Op.effect, Operand.eval, Alu.eval, Core.readSys]
  rw [loc, BitVec.ofNat_toNat, BitVec.setWidth_eq, value]
  simp [startOps, Op.effect, Operand.eval, Core.readSys]

/-- `__asm_dcache_all` returns, with its events in order. -/
theorem all_reaches (linked : Linked im base dcacheLevel) (linkedAll : Linked im baseAll dcacheAll) :
    ∃ d, Reaches im ⟨place baseAll 0, c⟩ ⟨c.x 30, d⟩ ∧
      Keeps [0, 1, 2, 3, 4, 5, 6, 7, 9, 10, 11, 12, 15] [.csselr] c d ∧
      d.log = c.log ++ allEvents c (maintenance (c.x 0)) := by
  have first := linkedAll.ops 0 startOps c rfl
  have keeps : Keeps [1, 10, 11] [] c (run startOps c) := (run_keeps startOps rfl c).mono (by decide) (by decide)
  obtain ⟨one, ten, eleven, log⟩ := startOps_run c
  generalize run startOps c = mid at first keeps one ten eleven log
  have bound := and_seven_bound (c.sys .clidr >>> 24)
  by_cases none : loc (c.sys .clidr) = 0
  · have ended : mid.get (.x 11) = 0 := by
      rw [Core.get_x, eleven, none]
      rfl
    have done := linkedAll.ret (k := 23) (c := mid) rfl
    rw [Core.get_x, keeps.x 30 (by decide)] at done
    refine ⟨mid, (first.trans (linkedAll.cbzTaken (k := 5) rfl (by decide) ended)).trans done,
      keeps.mono (by decide) (by decide), ?_⟩
    rw [log, allEvents, if_pos none]
  · obtain ⟨left, levels⟩ := Nat.exists_eq_succ_of_ne_zero none
    have more : mid.get (.x 11) ≠ 0 := by
      rw [Core.get_x, eleven]
      intro zero
      have value := congrArg BitVec.toNat zero
      rw [BitVec.toNat_ofNat] at value
      unfold loc at none value
      change _ = 0 at value
      omega
    have second := linkedAll.ops 6 loopStartOps mid rfl
    have secondKeeps : Keeps [0, 15] [] mid (run loopStartOps mid) :=
      (run_keeps loopStartOps rfl mid).mono (by decide) (by decide)
    have zero : (run loopStartOps mid).x 0 = BitVec.ofNat 64 0 := by simp [loopStartOps, Op.effect, Operand.eval]
    have saved : (run loopStartOps mid).x 15 = c.x 30 := by
      rw [← keeps.x 30 (by decide)]
      simp [loopStartOps, Op.effect, Operand.eval]
    have secondLog : (run loopStartOps mid).log = mid.log := by simp [loopStartOps, Op.effect]
    generalize run loopStartOps mid = start at second secondKeeps zero saved secondLog
    have startKeeps : Keeps [0, 1, 10, 11, 15] [] c start :=
      (keeps.mono (by decide) (by decide)).trans secondKeeps (by decide) (by decide)
    have types : start.x 10 = start.sys .clidr := by
      rw [secondKeeps.x 10 (by decide), ten, startKeeps.sys .clidr (by decide)]
    have last : start.x 11 = BitVec.ofNat 64 (0 + left + 1) := by
      rw [secondKeeps.x 11 (by decide), eleven, levels, Nat.zero_add]
    have small : 0 + left < 7 := by
      unfold loc at levels
      omega
    obtain ⟨d, loop, loopKeeps, loopLog⟩ := level_loop linked linkedAll small zero types last
    have third := linkedAll.ops 18 endOps d rfl
    have thirdKeeps : Keeps [0, 30] [.csselr] d (run endOps d) := (run_keeps endOps rfl d).mono (by decide) (by decide)
    have link : (run endOps d).x 30 = c.x 30 := by
      rw [← saved, ← loopKeeps.x 15 (by decide)]
      simp [endOps, Op.effect, Operand.eval]
    have thirdLog : (run endOps d).log = d.log ++ [.msr .csselr 0, .dsb, .isb] := by
      simp [endOps, Op.effect, Operand.eval]
    have done := linkedAll.ret (k := 23) (c := run endOps d) rfl
    rw [Core.get_x, link] at done
    generalize run endOps d = final at third thirdKeeps link thirdLog done
    have passed := linkedAll.cbzPassed (k := 5) (c := mid) rfl more
    refine ⟨final, ((((first.trans passed).trans second).trans loop).trans third).trans done, ?_, ?_⟩
    · have most : Keeps [0, 1, 2, 3, 4, 5, 6, 7, 9, 10, 11, 12, 15, 30] [.csselr] c final :=
        ((startKeeps.mono (by decide) (by decide)).trans loopKeeps (by decide) (by decide)).trans thirdKeeps (by decide)
          (by decide)
      refine { most with x := fun n other => ?_ }
      by_cases back : n = 30
      · rw [back, link]
      · exact most.x n (by simp_all)
    · rw [thirdLog, loopLog, secondLog, log, secondKeeps.x 1 (by decide), one, levelEvents_kept startKeeps (by decide),
        allEvents, if_neg none, levels, List.range_eq_range']
      simp only [List.append_assoc]

/-! ## What is maintained -/

/-- How the operand is read: the level, and in a cache of that level the set
and the way. -/
def operandLevel (w : Word) : Nat := w.toNat / 2 % 8

def operandSet (ccsidr w : Word) : Nat := w.toNat % 2 ^ (32 - wayBits ccsidr) / 2 ^ lineBits ccsidr

def operandWay (ccsidr w : Word) : Nat := w.toNat % 2 ^ 32 / 2 ^ (32 - wayBits ccsidr)

/-- The line that an event is about. -/
def lineOf (c : Core) : Event → Option (Nat × Nat × Nat)
  | .dc _ w =>
    let ccsidr := ccsidrOf c (operandLevel w)
    some (operandLevel w, operandSet ccsidr w, operandWay ccsidr w)
  | _ => none

/-- The set number does not reach into the bits of the way. -/
def Fits (ccsidr : Word) : Prop :=
  sets ccsidr ≤ 2 ^ (32 - wayBits ccsidr - lineBits ccsidr) ∧ wayBits ccsidr + lineBits ccsidr ≤ 32

/-- A line of a data cache below the level of coherence. -/
def Cached (c : Core) (line : Nat × Nat × Nat) : Prop :=
  line.1 < loc (c.sys .clidr) ∧ 2 ≤ cacheType (c.sys .clidr) line.1 ∧ line.2.1 < sets (ccsidrOf c line.1) ∧
    line.2.2 < ways (ccsidrOf c line.1)

instance (c : Core) (line : Nat × Nat × Nat) : Decidable (Cached c line) := inferInstanceAs (Decidable (_ ∧ _))

/-- A shifted number that stays below 32 bits. -/
theorem shifted_toNat (bits : Nat) (below : n < 2 ^ bits) (fits : bits + shift ≤ 32) :
    (BitVec.ofNat 64 n <<< shift).toNat = 2 ^ shift * n := by
  have product : 2 ^ shift * n < 2 ^ 32 := calc
    2 ^ shift * n < 2 ^ shift * 2 ^ bits := Nat.mul_lt_mul_of_pos_left below (Nat.two_pow_pos shift)
    _ = 2 ^ (shift + bits) := (Nat.pow_add ..).symm
    _ ≤ 2 ^ 32 := Nat.pow_le_pow_right (by decide) (by omega)
  have small : n < 2 ^ 32 := lt_of_lt_of_le below (Nat.pow_le_pow_right (by decide) (by omega))
  rw [BitVec.toNat_shiftLeft, BitVec.toNat_ofNat, Nat.mod_eq_of_lt (a := n) (by omega), Nat.shiftLeft_eq, Nat.mul_comm,
    Nat.mod_eq_of_lt (by omega)]

private theorem setWay_toNat {ccsidr : Word} {level set way : Nat} (fits : Fits ccsidr) (smallLevel : level < 8)
    (smallSet : set < sets ccsidr) (smallWay : way < ways ccsidr) :
    (setWay ccsidr level set way).toNat =
      2 ^ (32 - wayBits ccsidr) * way + (2 ^ lineBits ccsidr * set + 2 * level) ∧
    2 ^ lineBits ccsidr * set + 2 * level < 2 ^ (32 - wayBits ccsidr) ∧ 2 * level < 2 ^ lineBits ccsidr ∧
    way < 2 ^ wayBits ccsidr := by
  have wayBelow : way < 2 ^ wayBits ccsidr := by
    have last : ways ccsidr - 1 < 2 ^ wayBits ccsidr := Nat.lt_size_self _
    omega
  have setBelow : set < 2 ^ (32 - wayBits ccsidr - lineBits ccsidr) := by
    have most := fits.1
    omega
  have line : 4 ≤ lineBits ccsidr := Nat.le_add_left ..
  have within := fits.2
  have levelBelow : 2 * level < 2 ^ lineBits ccsidr := by
    have least : 2 ^ 4 ≤ 2 ^ lineBits ccsidr := Nat.pow_le_pow_right (by decide) line
    omega
  have lower : 2 ^ lineBits ccsidr * set + 2 * level < 2 ^ (32 - wayBits ccsidr) := calc
    2 ^ lineBits ccsidr * set + 2 * level < 2 ^ lineBits ccsidr * (set + 1) := by
      rw [Nat.mul_succ]
      omega
    _ ≤ 2 ^ lineBits ccsidr * 2 ^ (32 - wayBits ccsidr - lineBits ccsidr) := Nat.mul_le_mul_left _ setBelow
    _ = 2 ^ (32 - wayBits ccsidr) := by
      rw [← Nat.pow_add]
      congr 1
      omega
  refine ⟨?_, lower, levelBelow, wayBelow⟩
  have levelShift : (BitVec.ofNat 64 level <<< 1).toNat = 2 ^ 1 * level := shifted_toNat 3 smallLevel (by omega)
  rw [setWay, BitVec.toNat_or, BitVec.toNat_or, levelShift, shifted_toNat _ wayBelow (by omega),
    shifted_toNat _ setBelow (by omega), Nat.or_comm (2 ^ 1 * level), Nat.or_assoc, Nat.or_comm (2 ^ 1 * level),
    Nat.pow_one, ← Nat.two_pow_add_eq_or_of_lt levelBelow, ← Nat.two_pow_add_eq_or_of_lt lower]

/-- The operand for a line is read as that line. -/
theorem setWay_read {ccsidr : Word} {level set way : Nat} (fits : Fits ccsidr) (smallLevel : level < 8)
    (smallSet : set < sets ccsidr) (smallWay : way < ways ccsidr) :
    operandLevel (setWay ccsidr level set way) = level ∧ operandSet ccsidr (setWay ccsidr level set way) = set ∧
      operandWay ccsidr (setWay ccsidr level set way) = way := by
  obtain ⟨value, lower, levelBelow, wayBelow⟩ := setWay_toNat fits smallLevel smallSet smallWay
  have line : 4 ≤ lineBits ccsidr := Nat.le_add_left ..
  have within := fits.2
  unfold operandLevel operandSet operandWay
  rw [value]
  refine ⟨?_, ?_, ?_⟩
  · have upper : 2 ^ (32 - wayBits ccsidr) = 16 * 2 ^ (32 - wayBits ccsidr - 4) := by
      rw [show (16 : Nat) = 2 ^ 4 from rfl, ← Nat.pow_add]
      congr 1
      omega
    have middle : 2 ^ lineBits ccsidr = 16 * 2 ^ (lineBits ccsidr - 4) := by
      rw [show (16 : Nat) = 2 ^ 4 from rfl, ← Nat.pow_add]
      congr 1
      omega
    rw [upper, middle, Nat.mul_assoc, Nat.mul_assoc]
    omega
  · rw [Nat.mul_add_mod, Nat.mod_eq_of_lt lower, Nat.mul_add_div (Nat.two_pow_pos _), Nat.div_eq_of_lt levelBelow,
      Nat.add_zero]
  · have whole : 2 ^ (32 - wayBits ccsidr) * way + (2 ^ lineBits ccsidr * set + 2 * level) < 2 ^ 32 := calc
      _ < 2 ^ (32 - wayBits ccsidr) * (way + 1) := by
        rw [Nat.mul_succ]
        omega
      _ ≤ 2 ^ (32 - wayBits ccsidr) * 2 ^ wayBits ccsidr := Nat.mul_le_mul_left _ wayBelow
      _ = 2 ^ 32 := by
        rw [← Nat.pow_add]
        congr 1
        omega
    rw [Nat.mod_eq_of_lt whole, Nat.mul_add_div (Nat.two_pow_pos _), Nat.div_eq_of_lt lower, Nat.add_zero]

/-! ## Each line once -/

/-- The lines of all levels, in the order the code takes them. -/
def allLines (c : Core) : List (Nat × Nat × Nat) :=
  ((List.range (loc (c.sys .clidr))).filter (fun level => 2 ≤ cacheType (c.sys .clidr) level)).flatMap
    (fun level => (levelLines (ccsidrOf c level)).map (fun line => (level, line)))

/-- Lists under distinct tags. -/
theorem mem_tagged {α β : Type} {tags : List α} {items : α → List β} {entry : α × β} :
    entry ∈ tags.flatMap (fun tag => (items tag).map (Prod.mk tag)) ↔ entry.1 ∈ tags ∧ entry.2 ∈ items entry.1 := by
  obtain ⟨tag, item⟩ := entry
  simp only [List.mem_flatMap, List.mem_map, Prod.mk.injEq]
  constructor
  · rintro ⟨_, member, _, inside, rfl, rfl⟩
    exact ⟨member, inside⟩
  · rintro ⟨member, inside⟩
    exact ⟨tag, member, item, inside, rfl, rfl⟩

private theorem nodup_tagged {α β : Type} {tags : List α} {items : α → List β} (distinct : tags.Nodup)
    (each : ∀ tag, (items tag).Nodup) : (tags.flatMap (fun tag => (items tag).map (Prod.mk tag))).Nodup := by
  rw [List.nodup_flatMap]
  refine ⟨fun tag _ => (each tag).map (Prod.mk_right_injective tag), distinct.imp fun {first second} differ => ?_⟩
  intro entry inFirst inSecond
  obtain ⟨_, _, rfl⟩ := List.mem_map.mp inFirst
  obtain ⟨_, _, same⟩ := List.mem_map.mp inSecond
  exact differ (congrArg Prod.fst same).symm

private theorem mem_levelLines {ccsidr : Word} {line : Nat × Nat} :
    line ∈ levelLines ccsidr ↔ line.1 < sets ccsidr ∧ line.2 < ways ccsidr := by
  rw [levelLines, mem_tagged, List.mem_reverse, List.mem_reverse, List.mem_range, List.mem_range]

private theorem levelLines_nodup (ccsidr : Word) : (levelLines ccsidr).Nodup :=
  nodup_tagged (List.nodup_reverse.mpr List.nodup_range) (fun _ => List.nodup_reverse.mpr List.nodup_range)

private theorem mem_allLines (c : Core) (line : Nat × Nat × Nat) : line ∈ allLines c ↔ Cached c line := by
  rw [allLines, mem_tagged, List.mem_filter, List.mem_range, mem_levelLines, decide_eq_true_eq, and_assoc]
  rfl

private theorem allLines_nodup (c : Core) : (allLines c).Nodup :=
  nodup_tagged (List.nodup_range.filter _) (fun _ => levelLines_nodup _)

private theorem flatMap_filter {α β : Type} (keep : α → Bool) (items : α → List β) (tags : List α) :
    (tags.filter keep).flatMap items = tags.flatMap (fun tag => if keep tag then items tag else []) := by
  induction tags with
  | nil => rfl
  | cons tag tags ih =>
    rw [List.filter_cons, List.flatMap_cons, ← ih]
    split
    · rfl
    · exact (List.nil_append _).symm

/-- What is issued for a level is about its lines. -/
theorem levelEvents_lines (c : Core) (op : DcOp) (small : level < 8) (fits : Fits (ccsidrOf c level)) :
    (levelEvents c op level).filterMap (lineOf c) =
      if decide (2 ≤ cacheType (c.sys .clidr) level) then
        (levelLines (ccsidrOf c level)).map (Prod.mk level) else [] := by
  unfold levelEvents
  by_cases cached : 2 ≤ cacheType (c.sys .clidr) level
  · rw [if_pos cached, decide_eq_true cached, if_pos rfl, List.filterMap_append, List.filterMap_map]
    show [] ++ _ = _
    rw [List.nil_append, ← List.filterMap_eq_map]
    refine List.filterMap_congr (fun line member => ?_)
    obtain ⟨smallSet, smallWay⟩ := mem_levelLines.mp member
    obtain ⟨readLevel, readSet, readWay⟩ := setWay_read fits small smallSet smallWay
    show lineOf c (.dc op (setWay (ccsidrOf c level) level line.1 line.2)) = some (level, line)
    rw [lineOf, readLevel, readSet, readWay]
  · rw [if_neg cached, decide_eq_false cached]
    rfl

/-- What is issued is about these lines, in their order. -/
theorem allEvents_lines (c : Core) (op : DcOp) (fits : ∀ level, level < loc (c.sys .clidr) → Fits (ccsidrOf c level)) :
    (allEvents c op).filterMap (lineOf c) = allLines c := by
  have bound := and_seven_bound (c.sys .clidr >>> 24)
  have levels : ((List.range (loc (c.sys .clidr))).flatMap (levelEvents c op)).filterMap (lineOf c) = allLines c := by
    rw [allLines, flatMap_filter, List.filterMap_flatMap]
    refine List.flatMap_congr (fun level member => ?_)
    have below := List.mem_range.mp member
    exact levelEvents_lines c op (lt_trans below bound) (fits level below)
  unfold allEvents
  by_cases none : loc (c.sys .clidr) = 0
  · rw [none] at levels
    rw [if_pos none, ← levels]
    rfl
  · rw [if_neg none, List.filterMap_append, List.filterMap_append, levels]
    exact List.append_nil _

private theorem allEvents_op (member : .dc op w ∈ allEvents c kind) : op = kind := by
  unfold allEvents at member
  split at member
  · simp at member
  · simp only [List.mem_append, List.mem_flatMap, List.mem_cons, reduceCtorEq, List.not_mem_nil,
      or_false, false_or] at member
    obtain ⟨level, _, issued⟩ := member
    unfold levelEvents at issued
    split at issued
    · simp only [List.mem_append, List.mem_map, List.mem_cons, reduceCtorEq, List.not_mem_nil, or_false, false_or,
        Event.dc.injEq] at issued
      obtain ⟨_, _, same, _⟩ := issued
      exact same.symm
    · cases issued

/-- `__asm_flush_dcache_all` and `__asm_invalidate_dcache_all` return to their
caller after one operation of their kind for each line of the data caches below
the level of coherence: no line is left out and none is taken twice. -/
theorem dcache_all_once {baseFlush baseInvalidate : Word} (linked : Linked im base dcacheLevel)
    (linkedAll : Linked im baseAll dcacheAll) (linkedFlush : Linked im baseFlush flushDcacheAll)
    (linkedInvalidate : Linked im baseInvalidate invalidateDcacheAll)
    (fits : ∀ level, level < loc (c.sys .clidr) → Fits (ccsidrOf c level)) (invalidate : Bool) :
    ∃ d events, Reaches im ⟨im.addr (if invalidate then .invalidateDcacheAll else .flushDcacheAll), c⟩ ⟨c.x 30, d⟩ ∧
      d.x 30 = c.x 30 ∧ d.mem = c.mem ∧ d.log = c.log ++ events ∧
      (∀ op w, .dc op w ∈ events → op = if invalidate then .isw else .cisw) ∧
      (events.filterMap (lineOf c)).Nodup ∧ ∀ line, line ∈ events.filterMap (lineOf c) ↔ Cached c line := by
  have entry : Reaches im ⟨im.addr (if invalidate then .invalidateDcacheAll else .flushDcacheAll), c⟩
      ⟨place baseAll 0, c.set (.x 0) (if invalidate then 1 else 0)⟩ := by
    rw [← linkedAll.addr .dcacheAll 0 (by decide)]
    cases invalidate with
    | true =>
      rw [if_pos rfl, linkedInvalidate.addr .invalidateDcacheAll 0 (by decide)]
      exact (linkedInvalidate.op (k := 0) rfl).trans (linkedInvalidate.bOut (k := 1) rfl)
    | false =>
      rw [if_neg Bool.false_ne_true, linkedFlush.addr .flushDcacheAll 0 (by decide)]
      exact (linkedFlush.op (k := 0) rfl).trans (linkedFlush.bOut (k := 1) rfl)
  have kind : maintenance ((c.set (.x 0) (if invalidate then 1 else 0)).x 0) = if invalidate then .isw else .cisw := by
    rw [Core.x_set_x, if_pos rfl]
    cases invalidate <;> rfl
  obtain ⟨d, reached, keeps, log⟩ := all_reaches (c := c.set (.x 0) (if invalidate then 1 else 0)) linked linkedAll
  rw [kind] at log
  refine ⟨d, allEvents c (if invalidate then .isw else .cisw), entry.trans reached, keeps.x 30 (by decide), keeps.mem,
    log, fun op w member => allEvents_op member, ?_, fun line => ?_⟩
  · rw [allEvents_lines c _ fits]
    exact allLines_nodup c
  · rw [allEvents_lines c _ fits]
    exact mem_allLines c line

/-- One level with a data cache of two sets and two ways. -/
def smallCore : Core where
  x := fun _ => 0
  flags := ⟨false, false, false, false⟩
  mode := ⟨1, true, 0⟩
  sys := fun r => if r = .clidr then 0x1000003 else 0
  mem := fun _ => 0
  geometry := fun _ => 0x200a
  log := []

theorem dcache_all_once_small : ∃ (im : Image Label) (d : Core) (events : List Event),
    Reaches im ⟨im.addr .flushDcacheAll, smallCore⟩ ⟨smallCore.x 30, d⟩ ∧ d.log = smallCore.log ++ events ∧
      (0, 1, 1) ∈ events.filterMap (lineOf smallCore) := by
  have linked : Linked (link 0 (((dcacheLevel ++ dcacheAll) ++ flushDcacheAll) ++ invalidateDcacheAll)) 0 _ :=
    link_linked 0 _ (by decide +kernel) (by decide +kernel)
  have free : ∀ lines ∈ [dcacheAll, flushDcacheAll, invalidateDcacheAll], ∀ bits, Line.align bits ∉ lines := by
    simp [dcacheAll, flushDcacheAll, invalidateDcacheAll, straight]
  obtain ⟨d, events, reached, _, _, log, _, _, lines⟩ := dcache_all_once linked.left.left.left
    (linked.left.left.right (free _ (by simp))) (linked.left.right (free _ (by simp))) (linked.right (free _ (by simp)))
    (c := smallCore) (by
      intro level below
      have first : level = 0 := by
        have one : loc (smallCore.sys .clidr) = 1 := by decide
        omega
      subst first
      exact ⟨by decide, by decide⟩) false
  exact ⟨_, d, events, reached, log, (lines (0, 1, 1)).mpr (by decide +kernel)⟩

end RockOs.CacheLevels
