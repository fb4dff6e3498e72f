import Mathlib.Data.List.Pairwise
import RockOs.Assembly
import RockOs.WordBits

/-! `__asm_flush_dcache_range` and `__asm_invalidate_dcache_range` of
`arch/arm64/kernel/cache.S`: maintenance of the lines that an address range
touches. -/
namespace RockOs.CacheRanges
open Aarch64 Assembly WordBits

/-! ## The code -/

variable {L : Type}

/-- The loop of both functions. -/
def lineLoop (op : DcOp) (label : L) : List (Instr L) :=
  [.op (.dc op (.x 0)), .op (.alu .add (.x 0) (.x 0) (.reg (.x 2))), .op (.subs .xzr (.x 0) (.reg (.x 1))),
    .bCond .lo label]

def flushStart : List Op :=
  [.mrs (.x 3) .ctr, .alu .lsr (.x 3) (.x 3) (.imm 16), .alu .and (.x 3) (.x 3) (.imm 0xf),
    .mov (.x 2) (.imm 4), .alu .lsl (.x 2) (.x 2) (.reg (.x 3)),
    .alu .sub (.x 3) (.x 2) (.imm 1), .alu .bic (.x 0) (.x 0) (.reg (.x 3))]

def invalidateStart : List Op :=
  [.mrs (.x 3) .ctr, .ubfx (.x 3) (.x 3) 16 4,
    .mov (.x 2) (.imm 4), .alu .lsl (.x 2) (.x 2) (.reg (.x 3)),
    .alu .sub (.x 3) (.x 2) (.imm 1), .alu .bic (.x 0) (.x 0) (.reg (.x 3))]

/-- `__asm_flush_dcache_range`, with its label and that of its loop. -/
def flushDcacheRange (entry loop : L) : List (Line L) := List.flatten [
  [.label entry], straight flushStart,
  [.label loop], (lineLoop .civac loop).map .ins,
  straight [.dsb], [.ins (.ret lr)]]

/-- `__asm_invalidate_dcache_range`. -/
def invalidateDcacheRange (entry loop : L) : List (Line L) := List.flatten [
  [.label entry], straight invalidateStart,
  [.label loop], (lineLoop .ivac loop).map .ins,
  straight [.dsb], [.ins (.ret lr)]]

/-! ## The loop -/

/-- The bits of an address inside a line, from `CTR_EL0`. -/
def lineBits (ctr : Word) : Nat := (ctr >>> 16 &&& 0xf).toNat + 2

/-- The addresses of `count` lines. -/
def linesFrom (bits first count : Nat) : List Nat := (List.range count).map (fun i => first + 2 ^ bits * i)

variable {im : Image L} {base : Word} {lines : List (Line L)} {c : Core} {label : L}

/-- One line, up to the branch behind it. -/
theorem line_step (linked : Linked im base lines) (held : Holds lines k (lineLoop op label)) :
    ∃ d, Reaches im ⟨place base k, c⟩ ⟨place base (k + 3), d⟩ ∧ Keeps [0] [] c d ∧ d.x 0 = c.x 0 + c.x 2 ∧
      d.flags = subFlags (c.x 0 + c.x 2) (c.x 1) ∧ d.log = c.log ++ [.dc op (c.x 0)] := by
  have ops := linked.ops k
    [.dc op (.x 0), .alu .add (.x 0) (.x 0) (.reg (.x 2)), .subs .xzr (.x 0) (.reg (.x 1))] c held.left
  refine ⟨_, ops, (run_keeps _ rfl c).mono (by simp [Op.writes, Reg.general]) (by simp [Op.sysWrites]), ?_, ?_, ?_⟩
  all_goals simp [Op.effect, Operand.eval, Alu.eval]

private theorem linesFrom_succ (bits first count : Nat) :
    linesFrom bits first (count + 1) = first :: linesFrom bits (first + 2 ^ bits) count := by
  unfold linesFrom
  rw [List.range_succ_eq_map, List.map_cons, List.map_map, Nat.mul_zero, Nat.add_zero]
  refine congrArg _ (List.map_congr_left (fun i _ => ?_))
  rw [Function.comp, Nat.mul_succ]
  omega

/-- The loop over `count + 1` lines. -/
theorem line_loop (linked : Linked im base lines) (held : Holds lines k (lineLoop op label))
    (there : (label, k) ∈ labels 0 lines) (zero : c.x 0 = BitVec.ofNat 64 first) (one : c.x 1 = BitVec.ofNat 64 stop)
    (two : c.x 2 = BitVec.ofNat 64 (2 ^ bits)) (inside : 0 < count → first + 2 ^ bits * count < stop)
    (enough : stop ≤ first + 2 ^ bits * (count + 1)) (space : first + 2 ^ bits * (count + 1) < 2 ^ 64) :
    ∃ d, Reaches im ⟨place base k, c⟩ ⟨place base (k + 4), d⟩ ∧ Keeps [0] [] c d ∧
      d.log = c.log ++ (linesFrom bits first (count + 1)).map (fun line => .dc op (BitVec.ofNat 64 line)) := by
  induction count generalizing c first with
  | zero =>
    obtain ⟨d, reached, keeps, _, flags, log⟩ := line_step (c := c) linked held
    have last : ¬ Cond.lo.holds d.flags = true := by
      rw [flags, holds_lo, zero, one, two, ← BitVec.ofNat_add, BitVec.toNat_ofNat, BitVec.toNat_ofNat]
      omega
    refine ⟨d, reached.trans (linked.bPassed (held.at (i := 3) rfl) last), keeps, ?_⟩
    rw [log, zero]
    rfl
  | succ count ih =>
    obtain ⟨d, reached, keeps, next, flags, log⟩ := line_step (c := c) linked held
    have grows : 2 ^ bits * (count + 1 + 1) = 2 ^ bits + 2 ^ bits * (count + 1) := by
      rw [Nat.mul_succ, Nat.add_comm]
    have grown : 2 ^ bits * (count + 1) = 2 ^ bits + 2 ^ bits * count := by
      rw [Nat.mul_succ, Nat.add_comm]
    have below := inside (Nat.succ_pos count)
    have more : Cond.lo.holds d.flags = true := by
      rw [flags, holds_lo, zero, one, two, ← BitVec.ofNat_add, BitVec.toNat_ofNat, BitVec.toNat_ofNat]
      omega
    have moved : d.x 0 = BitVec.ofNat 64 (first + 2 ^ bits) := by
      rw [next, zero, two, BitVec.ofNat_add]
    obtain ⟨e, rest, keepsRest, logRest⟩ := ih moved ((keeps.x 1 (by decide)).trans one)
      ((keeps.x 2 (by decide)).trans two) (fun _ => by omega) (by omega) (by omega)
    refine ⟨e, (reached.trans (linked.bTaken (held.at (i := 3) rfl) there more)).trans rest,
      keeps.trans keepsRest (by decide) (by decide), ?_⟩
    rw [logRest, log, zero, linesFrom_succ bits first, List.map_cons, List.append_assoc]
    rfl

/-! ## The range -/

/-- The last address that the loop has to reach. -/
def lastByte (start stop : Nat) : Nat := max (stop - 1) start

/-- The lines of the range, and in any case the line of its start. -/
def rangeLines (bits start stop : Nat) : List Nat :=
  linesFrom bits (start / 2 ^ bits * 2 ^ bits) (lastByte start stop / 2 ^ bits - start / 2 ^ bits + 1)

theorem mem_rangeLines (bits start stop line : Nat) : line ∈ rangeLines bits start stop ↔
    ∃ b, (start ≤ b ∧ b < stop ∨ b = start) ∧ line = b / 2 ^ bits * 2 ^ bits := by
  have size : 0 < 2 ^ bits := Nat.two_pow_pos bits
  have order : start / 2 ^ bits ≤ lastByte start stop / 2 ^ bits := Nat.div_le_div_right (Nat.le_max_right ..)
  unfold rangeLines linesFrom
  rw [List.mem_map]
  constructor
  · rintro ⟨i, inside, rfl⟩
    rw [List.mem_range] at inside
    have merged : start / 2 ^ bits * 2 ^ bits + 2 ^ bits * i = (start / 2 ^ bits + i) * 2 ^ bits := by
      rw [Nat.add_mul, Nat.mul_comm _ i]
    rw [merged]
    by_cases zero : i = 0
    · exact ⟨start, .inr rfl, by rw [zero, Nat.add_zero]⟩
    · have low : start < 2 ^ bits * (start / 2 ^ bits + i) := calc
        start < 2 ^ bits * (start / 2 ^ bits + 1) := Nat.lt_mul_div_succ start size
        _ ≤ 2 ^ bits * (start / 2 ^ bits + i) := Nat.mul_le_mul_left _ (by omega)
      have high : 2 ^ bits * (start / 2 ^ bits + i) ≤ lastByte start stop := calc
        2 ^ bits * (start / 2 ^ bits + i) ≤ 2 ^ bits * (lastByte start stop / 2 ^ bits) :=
          Nat.mul_le_mul_left _ (by omega)
        _ ≤ lastByte start stop := Nat.mul_div_le ..
      unfold lastByte at high
      rw [Nat.mul_comm] at low high
      exact ⟨(start / 2 ^ bits + i) * 2 ^ bits, .inl ⟨by omega, by omega⟩, by rw [Nat.mul_div_cancel _ size]⟩
  · rintro ⟨b, within, rfl⟩
    have above : start / 2 ^ bits ≤ b / 2 ^ bits := Nat.div_le_div_right (by omega)
    have below : b / 2 ^ bits ≤ lastByte start stop / 2 ^ bits := by
      refine Nat.div_le_div_right ?_
      unfold lastByte
      omega
    refine ⟨b / 2 ^ bits - start / 2 ^ bits, List.mem_range.mpr (by omega), ?_⟩
    rw [Nat.mul_comm (2 ^ bits), ← Nat.add_mul, Nat.add_sub_cancel' above]

private theorem rangeLines_ascending (bits start stop : Nat) : (rangeLines bits start stop).Pairwise (· < ·) := by
  refine List.pairwise_map.mpr (List.pairwise_lt_range.imp (fun less => ?_))
  exact Nat.add_lt_add_left (Nat.mul_lt_mul_of_pos_left less (Nat.two_pow_pos bits)) _

/-- An empty range is one line all the same. -/
theorem rangeLines_empty (bits : Nat) (empty : stop ≤ start) :
    rangeLines bits start stop = [start / 2 ^ bits * 2 ^ bits] := by
  have last : lastByte start stop = start := Nat.max_eq_right (by omega)
  rw [rangeLines, last, Nat.sub_self]
  rfl

/-- The last line of a range is not the last of the address space; behind that
one the loop would go on at address zero. -/
def RangeFits (bits start stop : Nat) : Prop := (lastByte start stop / 2 ^ bits + 1) * 2 ^ bits < 2 ^ 64

instance (bits start stop : Nat) : Decidable (RangeFits bits start stop) := inferInstanceAs (Decidable (_ < _))

/-- The loop and what is behind it, for a range from `start` to `stop`. -/
theorem range_loop (linked : Linked im base lines) (held : Holds lines k (lineLoop op label ++ [.op .dsb, .ret lr]))
    (there : (label, k) ∈ labels 0 lines) (start : Nat)
    (zero : c.x 0 = BitVec.ofNat 64 (start / 2 ^ bits * 2 ^ bits)) (two : c.x 2 = BitVec.ofNat 64 (2 ^ bits))
    (fits : RangeFits bits start (c.x 1).toNat) :
    ∃ d, Reaches im ⟨place base k, c⟩ ⟨c.x 30, d⟩ ∧ Keeps [0] [] c d ∧
      d.log = c.log ++
        (rangeLines bits start (c.x 1).toNat).map (fun line => .dc op (BitVec.ofNat 64 line)) ++ [.dsb] := by
  have size : 0 < 2 ^ bits := Nat.two_pow_pos bits
  have one : c.x 1 = BitVec.ofNat 64 (c.x 1).toNat := by rw [BitVec.ofNat_toNat, BitVec.setWidth_eq]
  generalize (c.x 1).toNat = stop at one fits ⊢
  have order : start / 2 ^ bits ≤ lastByte start stop / 2 ^ bits := Nat.div_le_div_right (Nat.le_max_right ..)
  have reach : start / 2 ^ bits * 2 ^ bits + 2 ^ bits * (lastByte start stop / 2 ^ bits - start / 2 ^ bits) =
      lastByte start stop / 2 ^ bits * 2 ^ bits := by
    rw [Nat.mul_comm (2 ^ bits), ← Nat.add_mul, Nat.add_sub_cancel' order]
  have low : lastByte start stop / 2 ^ bits * 2 ^ bits ≤ lastByte start stop := Nat.div_mul_le_self ..
  have high : lastByte start stop < 2 ^ bits * (lastByte start stop / 2 ^ bits + 1) := Nat.lt_mul_div_succ _ size
  rw [RangeFits, Nat.add_mul, Nat.one_mul] at fits
  rw [Nat.mul_succ, Nat.mul_comm] at high
  have inside : 0 < lastByte start stop / 2 ^ bits - start / 2 ^ bits → start / 2 ^ bits * 2 ^ bits + 2 ^ bits *
      (lastByte start stop / 2 ^ bits - start / 2 ^ bits) < stop := by
    intro more
    have further : start < lastByte start stop := by
      by_contra short
      have same : lastByte start stop = start := Nat.le_antisymm (Nat.le_of_not_lt short) (Nat.le_max_right ..)
      rw [same, Nat.sub_self] at more
      omega
    rw [reach]
    unfold lastByte at further low ⊢
    omega
  have enough : stop ≤ start / 2 ^ bits * 2 ^ bits + 2 ^ bits *
      (lastByte start stop / 2 ^ bits - start / 2 ^ bits + 1) := by
    rw [Nat.mul_succ, ← Nat.add_assoc, reach]
    unfold lastByte at high ⊢
    omega
  obtain ⟨d, loop, keeps, log⟩ := line_loop (c := c) linked held.left there zero one two inside enough
    (by rw [Nat.mul_succ, ← Nat.add_assoc, reach]; exact fits)
  have barrier := linked.op (c := d) (held.at (i := 4) rfl)
  have back := linked.ret (c := Op.effect d .dsb) (held.at (i := 5) rfl)
  have link : (Op.effect d .dsb).get lr = c.x 30 := keeps.x 30 (by decide)
  rw [link] at back
  refine ⟨Op.effect d .dsb, (loop.trans barrier).trans back, keeps.trans (emit_keeps ..) (by decide) (by decide), ?_⟩
  show d.log ++ _ = _
  rw [log]
  rfl

private theorem field_bound (ctr : Word) : (ctr >>> 16 &&& 0xf).toNat < 2 ^ 4 := by
  rw [BitVec.toNat_and]
  exact Nat.and_lt_two_pow _ (by decide)

/-- The size of a line as the code finds it. -/
theorem size_value (ctr : Word) :
    (4 : Word) <<< ((ctr >>> 16 &&& 0xf).toNat % 64) = BitVec.ofNat 64 (2 ^ lineBits ctr) := by
  have bound := field_bound ctr
  apply BitVec.eq_of_toNat_eq
  rw [BitVec.toNat_shiftLeft, BitVec.toNat_ofNat, Nat.shiftLeft_eq, lineBits, Nat.mod_eq_of_lt (b := 64) (by omega),
    Nat.pow_add, Nat.mul_comm]
  rfl

/-- An address rounded down to a line. -/
theorem aligned (w : Word) (small : bits < 64) :
    w &&& ~~~(BitVec.ofNat 64 (2 ^ bits) - 1) = BitVec.ofNat 64 (w.toNat / 2 ^ bits * 2 ^ bits) := by
  have size : 0 < 2 ^ bits := Nat.two_pow_pos bits
  have fits : 2 ^ bits < 2 ^ 64 := Nat.pow_lt_pow_right (by decide) small
  have mask : (~~~(BitVec.ofNat 64 (2 ^ bits) - 1)).toNat = 2 ^ 64 - 2 ^ bits := by
    rw [BitVec.toNat_not, BitVec.toNat_sub, BitVec.toNat_ofNat, Nat.mod_eq_of_lt fits]
    show 2 ^ 64 - 1 - (2 ^ 64 - 1 + 2 ^ bits) % 2 ^ 64 = _
    omega
  have below : w.toNat / 2 ^ bits * 2 ^ bits < 2 ^ 64 := lt_of_le_of_lt (Nat.div_mul_le_self ..) w.isLt
  apply BitVec.eq_of_toNat_eq
  rw [BitVec.toNat_and, mask, and_high_mask w.isLt (by omega), BitVec.toNat_ofNat, Nat.mod_eq_of_lt below]

private theorem flushStart_run (c : Core) :
    (run flushStart c).x 2 = BitVec.ofNat 64 (2 ^ lineBits (c.sys .ctr)) ∧
    (run flushStart c).x 0 = BitVec.ofNat 64 ((c.x 0).toNat / 2 ^ lineBits (c.sys .ctr) * 2 ^ lineBits (c.sys .ctr)) ∧
    (run flushStart c).log = c.log := by
  have bound := field_bound (c.sys .ctr)
  rw [← aligned (c.x 0) (show lineBits (c.sys .ctr) < 64 by unfold lineBits; omega), ← size_value]
  simp [flushStart, Op.effect, Operand.eval, Alu.eval, Core.readSys]

private theorem invalidateStart_run (c : Core) :
    (run invalidateStart c).x 2 = BitVec.ofNat 64 (2 ^ lineBits (c.sys .ctr)) ∧
    (run invalidateStart c).x 0 =
        BitVec.ofNat 64 ((c.x 0).toNat / 2 ^ lineBits (c.sys .ctr) * 2 ^ lineBits (c.sys .ctr)) ∧
    (run invalidateStart c).log = c.log := by
  have bound := field_bound (c.sys .ctr)
  rw [← aligned (c.x 0) (show lineBits (c.sys .ctr) < 64 by unfold lineBits; omega), ← size_value]
  simp [invalidateStart, Op.effect, Operand.eval, Alu.eval, Core.readSys]

/-- The range in `x0` and `x1` fits. -/
def Fits (c : Core) : Prop := RangeFits (lineBits (c.sys .ctr)) (c.x 0).toNat (c.x 1).toNat

instance (c : Core) : Decidable (Fits c) := inferInstanceAs (Decidable (RangeFits ..))

/-- The maintenance of the lines of a range. -/
def lineEvents (op : DcOp) (bits start stop : Nat) : List Event :=
  (rangeLines bits start stop).map (fun line => .dc op (BitVec.ofNat 64 line)) ++ [.dsb]

/-- What a function issues for the range in `x0` and `x1`. -/
def rangeEvents (op : DcOp) (c : Core) : List Event := lineEvents op (lineBits (c.sys .ctr)) (c.x 0).toNat (c.x 1).toNat

/-- Both functions: a start that finds the line size, and the loop. -/
theorem range_reaches (linked : Linked im base lines) (start : List Op) (begins : Holds lines 0 (start.map .op))
    (held : Holds lines start.length (lineLoop op label ++ [.op .dsb, .ret lr]))
    (there : (label, start.length) ∈ labels 0 lines) (keeps : Keeps [0, 2, 3] [] c (run start c))
    (values : (run start c).x 2 = BitVec.ofNat 64 (2 ^ lineBits (c.sys .ctr)) ∧ (run start c).x 0 =
      BitVec.ofNat 64 ((c.x 0).toNat / 2 ^ lineBits (c.sys .ctr) * 2 ^ lineBits (c.sys .ctr)) ∧
        (run start c).log = c.log)
    (fits : Fits c) :
    ∃ d, Reaches im ⟨place base 0, c⟩ ⟨c.x 30, d⟩ ∧ Keeps [0, 2, 3] [] c d ∧ d.log = c.log ++ rangeEvents op c := by
  have first := linked.ops 0 start c begins
  obtain ⟨two, zero, log⟩ := values
  rw [Nat.zero_add] at first
  generalize run start c = mid at first keeps two zero log
  have stop : mid.x 1 = c.x 1 := keeps.x 1 (by decide)
  obtain ⟨d, loop, loopKeeps, loopLog⟩ := range_loop linked held there (c.x 0).toNat zero two (by rw [stop]; exact fits)
  rw [keeps.x 30 (by decide)] at loop
  refine ⟨d, first.trans loop, keeps.trans loopKeeps (by decide) (by decide), ?_⟩
  rw [loopLog, log, stop, List.append_assoc]
  rfl

theorem flush_reaches {entry loop : L} (linked : Linked im base (flushDcacheRange entry loop)) (fits : Fits c) :
    ∃ d, Reaches im ⟨place base 0, c⟩ ⟨c.x 30, d⟩ ∧ Keeps [0, 2, 3] [] c d ∧ d.log = c.log ++ rangeEvents .civac c :=
  range_reaches linked flushStart rfl rfl (show (loop, 7) ∈ [(entry, 0), (loop, 7)] by simp)
    ((run_keeps flushStart rfl c).mono (by decide) (by decide)) (flushStart_run c) fits

private theorem invalidate_reaches {entry loop : L} (linked : Linked im base (invalidateDcacheRange entry loop))
    (fits : Fits c) :
    ∃ d, Reaches im ⟨place base 0, c⟩ ⟨c.x 30, d⟩ ∧ Keeps [0, 2, 3] [] c d ∧ d.log = c.log ++ rangeEvents .ivac c :=
  range_reaches linked invalidateStart rfl rfl (show (loop, 6) ∈ [(entry, 0), (loop, 6)] by simp)
    ((run_keeps invalidateStart rfl c).mono (by decide) (by decide)) (invalidateStart_run c) fits

/-- The function at `entry` returns to its caller after one operation for each
line that the range touches, from the first to the last. When the range is empty,
there is one operation all the same, for the line of its start. -/
def Maintains (im : Image L) (entry : Word) (op : DcOp) (c : Core) : Prop :=
  ∃ (d : Core) (lines : List Nat), Reaches im ⟨entry, c⟩ ⟨c.x 30, d⟩ ∧ Keeps [0, 2, 3] [] c d ∧
    d.log = c.log ++ lines.map (fun line => .dc op (BitVec.ofNat 64 line)) ++ [.dsb] ∧ lines.Pairwise (· < ·) ∧
    ((c.x 0).toNat < (c.x 1).toNat → ∀ line, line ∈ lines ↔ ∃ b, (c.x 0).toNat ≤ b ∧ b < (c.x 1).toNat ∧
      line = b / 2 ^ lineBits (c.sys .ctr) * 2 ^ lineBits (c.sys .ctr)) ∧
    ((c.x 1).toNat ≤ (c.x 0).toNat → lines = [(c.x 0).toNat / 2 ^ lineBits (c.sys .ctr) * 2 ^ lineBits (c.sys .ctr)])

private theorem maintains_of_log {entry : Word} {d : Core} (reaches : Reaches im ⟨entry, c⟩ ⟨c.x 30, d⟩)
    (keeps : Keeps [0, 2, 3] [] c d) (log : d.log = c.log ++ rangeEvents op c) : Maintains im entry op c := by
  refine ⟨d, _, reaches, keeps, ?_, rangeLines_ascending .., fun some line => ?_, rangeLines_empty _⟩
  · rw [log, rangeEvents, lineEvents, List.append_assoc]
  · rw [mem_rangeLines]
    constructor
    · rintro ⟨b, ⟨low, high⟩ | rfl, place⟩
      · exact ⟨b, low, high, place⟩
      · exact ⟨_, le_rfl, some, place⟩
    · rintro ⟨b, low, high, place⟩
      exact ⟨b, .inl ⟨low, high⟩, place⟩

/-- Both functions maintain the lines of every range that fits. -/
theorem dcache_range_lines {baseFlush baseInvalidate : Word} {flush flushLine invalidate invalidateLine : L}
    (linkedFlush : Linked im baseFlush (flushDcacheRange flush flushLine))
    (linkedInvalidate : Linked im baseInvalidate (invalidateDcacheRange invalidate invalidateLine)) (fits : Fits c) :
    Maintains im (im.addr flush) .civac c ∧ Maintains im (im.addr invalidate) .ivac c := by
  rw [linkedFlush.addr flush 0 (List.mem_cons_self ..), linkedInvalidate.addr invalidate 0 (List.mem_cons_self ..)]
  obtain ⟨d, flushed, keeps, log⟩ := flush_reaches linkedFlush fits
  obtain ⟨e, invalidated, keepsToo, logToo⟩ := invalidate_reaches linkedInvalidate fits
  exact ⟨maintains_of_log flushed keeps log, maintains_of_log invalidated keepsToo logToo⟩

/-- Both functions, one behind the other. -/
def sample : List (Line (Fin 4)) := flushDcacheRange 0 1 ++ invalidateDcacheRange 2 3

/-- A range of 64 bytes across two lines of 64 bytes. -/
def sampleCore : Core where
  x n := if n = 0 then 0x1010 else if n = 1 then 0x1050 else if n = 30 then 0x800 else 0
  flags := ⟨false, false, false, false⟩
  mode := ⟨2, true, 0xf⟩
  sys r := if r = .ctr then 0x40000 else 0
  mem _ := 0
  geometry _ := 0
  log := []

theorem dcache_range_lines_two : Fits sampleCore ∧
    Maintains (link 0x4000 sample) ((link 0x4000 sample).addr 0) .civac sampleCore ∧
    Maintains (link 0x4000 sample) ((link 0x4000 sample).addr 2) .ivac sampleCore := by
  have linked : Linked (link 0x4000 sample) 0x4000 sample := link_linked _ _ (by decide) (by decide)
  have fits : Fits sampleCore := by decide
  exact ⟨fits, dcache_range_lines linked.left (linked.right (by simp [invalidateDcacheRange, straight])) fits⟩

end RockOs.CacheRanges
