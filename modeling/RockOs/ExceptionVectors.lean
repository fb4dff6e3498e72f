import RockOs.ExceptionLevels

/-! `arch/arm64/kernel/exceptions.S`: the vectors, the two halves of the code
that saves the interrupted registers and the two that restore them, in the
gaps between the vectors. The saved registers are a `struct pt_regs` on the
stack, which is what the handlers get. -/
namespace RockOs.ExceptionVectors
open Aarch64 Assembly ByteMemory ExceptionLevels

/-- The labels of `exceptions.S`, and the handlers. -/
inductive Label where
  | vectors
  | exceptionEntry
  | saveElRegs
  | saveEl3
  | saveEl2
  | saveEl1
  | saved
  | exceptionExit
  | exitEl3
  | exitEl2
  | exitEl1
  | restoreRegs
  | doBadSync
  | doBadIrq
  | doBadFiq
  | doBadError
  | doSync
  | doIrq
  | doFiq
  | doError
  deriving DecidableEq, Repr

/-- What `_exception_entry` pushes, in its order. -/
def entryPairs : List (Fin 31 × Fin 31) :=
  [(27, 28), (25, 26), (23, 24), (21, 22), (19, 20), (17, 18), (15, 16), (13, 14), (11, 12), (9, 10), (7, 8), (5, 6),
    (3, 4), (1, 2)]

/-- What `_restore_regs` pops. -/
def restorePairs : List (Fin 31 × Fin 31) :=
  [(1, 2), (3, 4), (5, 6), (7, 8), (9, 10), (11, 12), (13, 14), (15, 16), (17, 18), (19, 20), (21, 22), (23, 24),
    (25, 26), (27, 28), (29, 30)]

/-- The first three instructions of a vector. -/
def vector (handler : Label) : List (Line Label) :=
  [.align 7, .ins (.op (push (29, 30))), .ins (.bl .exceptionEntry), .ins (.bl handler)]

def exit : List (Line Label) := [.ins (.b .exceptionExit)]

/-- The listing of `exceptions.S`. -/
def listing : List (Line Label) := List.flatten [
  [.align 11, .label .vectors],
  vector .doBadSync, exit,
  [.label .exceptionEntry], straight (entryPairs.map push), [.ins (.b .saveElRegs)],
  vector .doBadIrq, exit,
  [.label .saveElRegs], (switchEl (.x 11) .saveEl3 .saveEl2 .saveEl1).map .ins,
  [.label .saveEl3], straight [.mrs (.x 1) (.esr 3), .mrs (.x 2) (.elr 3)], [.ins (.b .saved)],
  [.label .saveEl2], straight [.mrs (.x 1) (.esr 2), .mrs (.x 2) (.elr 2)], [.ins (.b .saved)],
  [.label .saveEl1], straight [.mrs (.x 1) (.esr 1), .mrs (.x 2) (.elr 1)],
  [.label .saved], straight [push (2, 0), .mov (.x 0) (.reg .sp)], [.ins (.ret lr)],
  -- The FIQ vector falls through to the exit code.
  vector .doBadFiq,
  [.label .exceptionExit], straight [pop (2, 0)], (switchEl (.x 11) .exitEl3 .exitEl2 .exitEl1).map .ins,
  [.label .exitEl3], straight [.msr (.elr 3) (.x 2)], [.ins (.b .restoreRegs)],
  [.label .exitEl2], straight [.msr (.elr 2) (.x 2)], [.ins (.b .restoreRegs)],
  [.label .exitEl1], straight [.msr (.elr 1) (.x 2)], [.ins (.b .restoreRegs)],
  vector .doBadError, exit,
  [.label .restoreRegs], straight (restorePairs.map pop), [.ins .eret],
  vector .doSync, exit,
  vector .doIrq, exit,
  vector .doFiq, exit,
  vector .doError, exit]

/-- The handler of each vector. -/
def handler : Fin 8 → Label
  | 0 => .doBadSync
  | 1 => .doBadIrq
  | 2 => .doBadFiq
  | 3 => .doBadError
  | 4 => .doSync
  | 5 => .doIrq
  | 6 => .doFiq
  | 7 => .doError

/-- `struct pt_regs`: the return address and the registers. -/
def ptRegs (elr : Word) (regs : Fin 31 → Word) : List Word := elr :: (List.finRange 31).map regs

private theorem ptRegs_eq (elr : Word) (regs : Fin 31 → Word) :
    ptRegs elr regs = elr :: regs 0 :: (List.finRange 30).map (fun i => regs i.succ) := by
  rw [ptRegs, List.finRange_succ, List.map_cons, List.map_map]
  rfl

/-! ## Entry -/

/-- What the saved state is when a handler is called, for an exception taken
with `c`. -/
structure Entered (c d : Core) : Prop where
  frame : Stacked d (ptRegs (c.sys (.elr c.mode.el)) c.x)
  pointer : d.x 0 = d.get .sp
  syndrome : d.x 1 = c.sys (.esr c.mode.el)
  sp : (d.get .sp).toNat = (c.get .sp).toNat - 256
  mode : d.mode = c.mode
  sys : ∀ r, r ≠ c.mode.stack → d.sys r = c.sys r
  kept : ∀ n, n ∉ [0, 1, 2, 11, 30] → d.x n = c.x n
  outside : ∀ cell, cell < (c.get .sp).toNat - 256 ∨ (c.get .sp).toNat ≤ cell → d.mem cell = c.mem cell

variable {im : Image Label} {base : Word} {c : Core}

/-- The code of a vector. -/
theorem vector_held : ∀ slot : Fin 8, (instrs 0 listing)[32 * slot.val]? = some (.op (push (29, 30))) ∧
    (instrs 0 listing)[32 * slot.val + 1]? = some (.bl .exceptionEntry) ∧
    (instrs 0 listing)[32 * slot.val + 2]? = some (.bl (handler slot)) ∧
    (slot ≠ 2 → (instrs 0 listing)[32 * slot.val + 3]? = some (.b .exceptionExit)) := by
  decide +kernel

/-- The reads of `_save_el_regs` at a level. -/
def readElRegs (el : El) : List Op := [.mrs (.x 1) (.esr el), .mrs (.x 2) (.elr el)]

def pushElRegs : List Op := [push (2, 0), .mov (.x 0) (.reg .sp)]

/-- The core after the reads. -/
theorem readElRegs_run (c : Core) : run (readElRegs el) c =
    (c.set (.x 1) (c.sys (.esr el))).set (.x 2) (c.sys (.elr el)) := rfl

private theorem pushElRegs_x (c : Core) (n : Fin 31) (other : n ≠ 0) : (run pushElRegs c).x n = c.x n := by
  show (Core.set _ (.x 0) _).x n = _
  rw [Core.x_set_x, if_neg other, push_x]

/-- `_save_el_regs` returns to its caller. -/
theorem saveElRegs_reaches (linked : Linked im base listing) (above : c.mode.el ≠ 0) :
    Reaches im ⟨place base 36, c⟩ ⟨c.x 30, run pushElRegs (run (readElRegs c.mode.el) (switched 11 c))⟩ := by
  have finish (d : Core) : Reaches im ⟨place base 51, d⟩ ⟨d.x 30, run pushElRegs d⟩ := by
    have returned := linked.ret (k := 53) (c := run pushElRegs d) rfl
    rw [Core.get_x, pushElRegs_x d 30 (by decide)] at returned
    exact (linked.ops 51 pushElRegs d rfl).trans returned
  have start (j : Nat) (there : (target .saveEl3 .saveEl2 .saveEl1 c.mode.el, j) ∈ labels 0 listing) :
      Reaches im ⟨place base 36, c⟩ ⟨place base j, switched 11 c⟩ := switchEl_reaches linked 36 rfl above there
  have link : (run (readElRegs c.mode.el) (switched 11 c)).x 30 = c.x 30 := rfl
  rw [← link]
  refine Reaches.trans ?_ (finish _)
  rcases levels c.mode.el above with at1 | at2 | at3
  · rw [at1] at start ⊢
    exact (start 49 (by decide)).trans (linked.ops 49 (readElRegs 1) _ rfl)
  · rw [at2] at start ⊢
    exact (start 46 (by decide)).trans ((linked.ops 46 (readElRegs 2) _ rfl).trans (linked.b (k := 48) rfl (by decide)))
  · rw [at3] at start ⊢
    exact (start 43 (by decide)).trans ((linked.ops 43 (readElRegs 3) _ rfl).trans (linked.b (k := 45) rfl (by decide)))

/-- The first half: all registers but `x0` are on the stack. -/
theorem exceptionEntry_pushed (c : Core) (ra : Word) (room : 256 ≤ (c.get .sp).toNat) :
    let d := run (entryPairs.map push) (((push (29, 30)).effect c).set lr ra)
    Stacked d ((List.finRange 30).map (fun i => c.x i.succ)) ∧ (d.get .sp).toNat = (c.get .sp).toNat - 240 ∧
      (∀ n, d.x n = if n = 30 then ra else c.x n) ∧ Alike c d ∧
      ∀ cell, cell < (c.get .sp).toNat - 240 ∨ (c.get .sp).toNat ≤ cell → d.mem cell = c.mem cell := by
  intro d
  have none : Stacked c [] := ⟨fun i w found => by simp at found, (c.get .sp).isLt.le⟩
  have one : Stacked (((push (29, 30)).effect c).set lr ra) [c.x 29, c.x 30] := (none.push (29, 30) (by omega)).set_x ..
  have moved : ((((push (29, 30)).effect c).set lr ra).get .sp).toNat = (c.get .sp).toNat - 16  := by
    rw [Core.sp_set_x, push_sp (29, 30) (by omega)]
  have all : Pushed entryPairs [c.x 29, c.x 30] (((push (29, 30)).effect c).set lr ra) d :=
    pushes one (by rw [moved]; show 16 * 14 ≤ _; omega)
  have values : ∀ n, d.x n = if n = 30 then ra else c.x n := by
    intro n
    rw [all.x, Core.x_set_x, push_x]
  refine ⟨?_, ?_, values, ?_, fun cell out => ?_⟩
  · have saved : (pairRegs entryPairs.reverse).map (((push (29, 30)).effect c).set lr ra).x =
        (pairRegs entryPairs.reverse).map c.x := by
      refine List.map_congr_left (fun n member => ?_)
      have other : n ≠ 30 := by
        revert n
        decide
      rw [Core.x_set_x, if_neg other, push_x]
    have stacked := all.stacked
    rw [saved] at stacked
    exact stacked
  · rw [all.sp, moved]
    show _ - 16 * 14 = _
    omega
  · exact ((push_alike c (29, 30)).trans (set_x_alike ..)).trans all.toAlike
  · have above := all.outside cell
    rw [moved, show entryPairs.length = 14 from rfl] at above
    rw [above (by omega), Core.mem_set, push_outside (29, 30) (by omega) (by omega)]

/-- What `_save_el_regs` pushes last. -/
theorem pushElRegs_pushed {words : List Word} (stacked : Stacked c words) (room : 16 ≤ (c.get .sp).toNat) :
    let d := run pushElRegs c
    Stacked d (c.x 2 :: c.x 0 :: words) ∧ d.x 0 = d.get .sp ∧ (d.get .sp).toNat = (c.get .sp).toNat - 16 ∧ Alike c d ∧
      ∀ cell, cell < (c.get .sp).toNat - 16 ∨ (c.get .sp).toNat ≤ cell → d.mem cell = c.mem cell := by
  intro d
  have final : d = ((push (2, 0)).effect c).set (.x 0) (((push (2, 0)).effect c).get .sp) := rfl
  rw [final]
  refine ⟨(stacked.push (2, 0) room).set_x .., ?_, ?_, (push_alike c (2, 0)).trans (set_x_alike ..), fun cell out => ?_⟩
  · rw [Core.x_set_x, if_pos rfl, Core.sp_set_x]
  · rw [Core.sp_set_x, push_sp (2, 0) room]
  · rw [Core.mem_set, push_outside (2, 0) room out]

/-- A vector gets to its handler with the registers saved. -/
theorem entry_reaches (linked : Linked im base listing) (slot : Fin 8) (above : c.mode.el ≠ 0)
    (room : 256 ≤ (c.get .sp).toNat) :
    ∃ d, Reaches im ⟨place base (32 * slot.val), c⟩ ⟨im.addr (handler slot), d⟩ ∧ Entered c d ∧
      d.x 30 = place base (32 * slot.val + 3) := by
  obtain ⟨first, second, third, _⟩ := vector_held slot
  have called := linked.bl (c := (push (29, 30)).effect c) second
  rw [linked.addr .exceptionEntry 4 (by decide)] at called
  have half := exceptionEntry_pushed c (place base (32 * slot.val + 1 + 1)) room
  have reached := ((linked.op first).trans called).trans
    ((linked.ops 4 (entryPairs.map push) _ rfl).trans (linked.b (k := 18) (j := 36) rfl (by decide)))
  generalize run (entryPairs.map push) (((push (29, 30)).effect c).set lr (place base (32 * slot.val + 1 + 1))) = mid
    at half reached
  obtain ⟨stacked, sp, x, alike, outside⟩ := half
  have second := saveElRegs_reaches linked (show mid.mode.el ≠ 0 by rw [alike.mode]; exact above)
  rw [x, if_pos rfl, alike.mode] at second
  -- The values the second half reads are those of the exception.
  have readX n : (run (readElRegs c.mode.el) (switched 11 mid)).x n = if n = 2 then c.sys (.elr c.mode.el) else
      if n = 1 then c.sys (.esr c.mode.el) else if n = 11 then mid.readSys .currentEl else mid.x n := by
    rw [readElRegs_run, Core.x_set_x, Core.x_set_x, ← alike.sys (.elr _) (Mode.stack_ne (fun _ => by simp)),
      ← alike.sys (.esr _) (Mode.stack_ne (fun _ => by simp)), switched_x, switched_sys]
  have readSp : (run (readElRegs c.mode.el) (switched 11 mid)).get .sp = mid.get .sp := by
    rw [readElRegs_run, Core.sp_set_x, Core.sp_set_x, switched_sp]
  have readMode : (run (readElRegs c.mode.el) (switched 11 mid)).mode = mid.mode := by
    rw [readElRegs_run, Core.mode_set, Core.mode_set, switched_mode]
  have readSys : (run (readElRegs c.mode.el) (switched 11 mid)).sys = mid.sys := by
    rw [readElRegs_run, Core.sys_set_x, Core.sys_set_x, switched_sys]
  have readMem : (run (readElRegs c.mode.el) (switched 11 mid)).mem = mid.mem := by
    rw [readElRegs_run, Core.mem_set, Core.mem_set, switched_mem]
  have readStack := stacked.congr readSp readMem
  generalize run (readElRegs c.mode.el) (switched 11 mid) = last
    at second readX readStack readSp readMode readSys readMem
  obtain ⟨frame, pointer, down, same, rest⟩ := pushElRegs_pushed readStack (by rw [readSp]; omega)
  rw [readSp] at down rest
  refine ⟨(run pushElRegs last).set lr (place base (32 * slot.val + 2 + 1)), ?_, ?_, ?_⟩
  · exact (reached.trans second).trans (linked.bl third)
  · constructor
    · rw [readX 2, readX 0, if_pos rfl, if_neg (by decide), if_neg (by decide), if_neg (by decide), x 0,
        if_neg (by decide), ← ptRegs_eq] at frame
      exact frame.set_x ..
    · rw [Core.x_set_x, if_neg (by decide), pointer, Core.sp_set_x]
    · rw [Core.x_set_x, if_neg (by decide), pushElRegs_x last 1 (by decide), readX, if_neg (by decide), if_pos rfl]
    · rw [Core.sp_set_x, down]
      omega
    · rw [Core.mode_set, same.mode, readMode, alike.mode]
    · intro r other
      rw [Core.sys_set_x, same.sys r (by rwa [readMode, alike.mode]), readSys, alike.sys r other]
    · intro n other
      simp only [List.mem_cons, List.not_mem_nil, or_false, not_or] at other
      rw [Core.x_set_x, if_neg other.2.2.2.2, pushElRegs_x last n other.1, readX, if_neg other.2.2.1, if_neg other.2.1,
        if_neg other.2.2.2.1, x, if_neg other.2.2.2.2]
    · intro cell out
      rw [Core.mem_set, rest cell (by omega), readMem, outside cell (by omega)]
  · rw [Core.x_set_x, if_pos rfl]

/-! ## Exit -/

/-- The registers a saved state leads to. -/
structure Restored (elr : Word) (regs : Fin 31 → Word) (c e : Core) : Prop where
  x : e.x = regs
  elr : e.sys (.elr c.mode.el) = elr
  sp : e.get .sp = c.get .sp + 256
  mode : e.mode = c.mode
  sys : ∀ r, r ≠ c.mode.stack → r ≠ .elr c.mode.el → e.sys r = c.sys r
  mem : e.mem = c.mem

/-- The write of `exception_exit` at a level. -/
def writeElr (el : El) : List Op := [.msr (.elr el) (.x 2)]

/-- `exception_exit` up to the second half, for the level it runs at. -/
theorem writeElr_reaches (linked : Linked im base listing) (above : c.mode.el ≠ 0) :
    Reaches im ⟨place base 68, c⟩ ⟨place base 100, run (writeElr c.mode.el) (switched 11 c)⟩ := by
  have start (j : Nat) (there : (target .exitEl3 .exitEl2 .exitEl1 c.mode.el, j) ∈ labels 0 listing) :
      Reaches im ⟨place base 68, c⟩ ⟨place base j, switched 11 c⟩ := switchEl_reaches linked 68 rfl above there
  rcases levels c.mode.el above with at1 | at2 | at3
  · rw [at1] at start ⊢
    exact (start 79 (by decide)).trans ((linked.ops 79 (writeElr 1) _ rfl).trans (linked.b (k := 80) rfl (by decide)))
  · rw [at2] at start ⊢
    exact (start 77 (by decide)).trans ((linked.ops 77 (writeElr 2) _ rfl).trans (linked.b (k := 78) rfl (by decide)))
  · rw [at3] at start ⊢
    exact (start 75 (by decide)).trans ((linked.ops 75 (writeElr 3) _ rfl).trans (linked.b (k := 76) rfl (by decide)))

/-- The core after the write. -/
def writeElrCore (c : Core) : Core :=
  ((switched 11 c).setSys (.elr c.mode.el) ((switched 11 c).x 2)).emit (.msr (.elr c.mode.el) ((switched 11 c).x 2))

private theorem writeElr_run (c : Core) : run (writeElr c.mode.el) (switched 11 c) = writeElrCore c := rfl

/-- From `exception_exit` to the return, with a saved state on the stack. -/
theorem exit_reaches (linked : Linked im base listing) (above : c.mode.el ≠ 0) (frame : Stacked c (ptRegs elr regs)) :
    ∃ e, Reaches im ⟨place base 67, c⟩ ⟨place base 115, e⟩ ∧ Restored elr regs c e := by
  rw [ptRegs_eq] at frame
  have popped : Reaches im ⟨place base 67, c⟩ ⟨place base 68, (pop (2, 0)).effect c⟩ := linked.op rfl
  have first n := pop_x frame (2, 0) n
  have rest := frame.pop (2, 0)
  have alike := pop_alike c (2, 0)
  have up := pop_sp (c := c) (2, 0)
  have kept := pop_mem c (2, 0)
  generalize (pop (2, 0)).effect c = mid at popped first rest alike up kept
  have written := writeElr_reaches linked (show mid.mode.el ≠ 0 by rw [alike.mode]; exact above)
  rw [writeElr_run] at written
  have x n : (writeElrCore mid).x n = if n = 11 then mid.readSys .currentEl else mid.x n := by
    rw [writeElrCore, Core.x_emit, Core.x_setSys, switched_x]
  have sp : (writeElrCore mid).get .sp = mid.get .sp := by
    rw [writeElrCore, Core.sp_emit, Core.sp_setSys _ _ _ (by simp), switched_sp]
  have mem : (writeElrCore mid).mem = mid.mem := by
    rw [writeElrCore, Core.mem_emit, Core.mem_setSys, switched_mem]
  have mode : (writeElrCore mid).mode = mid.mode := by
    rw [writeElrCore, Core.mode_emit, Core.mode_setSys, switched_mode]
  have sys : (writeElrCore mid).sys = Function.update mid.sys (.elr mid.mode.el) (mid.x 2) := by
    rw [writeElrCore, Core.sys_emit, Core.sys_setSys, switched_sys, switched_x, if_neg (by decide)]
  generalize writeElrCore mid = last at written x sp mem mode sys
  have stacked : Stacked last ((pairRegs restorePairs).map regs ++ []) := by
    rw [List.append_nil]
    exact rest.congr sp mem
  have all := pops stacked
  have finished := linked.ops 100 (restorePairs.map pop) last rfl
  generalize run (restorePairs.map pop) last = final at all finished
  refine ⟨final, (popped.trans written).trans finished, ?_⟩
  have others : ∀ n : Fin 31, n ≠ 0 → n ∈ pairRegs restorePairs := by decide
  constructor
  · funext n
    by_cases zero : n = 0
    · rw [zero, all.others 0 (by decide), x, if_neg (by decide), first, if_pos rfl]
    · exact all.popped n (others n zero)
  · rw [all.sys _ (by rw [mode, alike.mode]; exact Mode.stack_ne (by simp)), sys, ← alike.mode, Function.update_self,
      first, if_neg (by decide), if_pos rfl]
  · rw [all.sp, sp, up, BitVec.add_assoc]
    rfl
  · rw [all.mode, mode, alike.mode]
  · intro r other elsewhere
    rw [all.sys r (by rwa [mode, alike.mode]), sys, alike.mode, Function.update_of_ne elsewhere, alike.sys r other]
  · rw [all.mem, mem, kept]

/-- A vector goes on to `exception_exit`; one is right in front of it. -/
theorem vector_exits (linked : Linked im base listing) (slot : Fin 8) :
    Reaches im ⟨place base (32 * slot.val + 3), c⟩ ⟨place base 67, c⟩ := by
  by_cases falls : slot = 2
  · rw [falls]
    exact .refl _
  · exact linked.b ((vector_held slot).2.2.2 falls) (by decide)

/-! ## The interrupted program -/

/-- The vector of an exception. -/
def vectorOf (kind : Fin 4) (spsel : Bool) : Fin 8 := ⟨kind.val + if spsel then 4 else 0, by split <;> omega⟩

/-- A handler called with `d` returns to its caller with `t`, on the same
stack and with the saved state as it was, that in `SPSR` too: beyond what any C
function does, it takes no exception of its own. -/
structure Returns (im : Image Label) (label : Label) (d t : Core) : Prop where
  reaches : Reaches im ⟨im.addr label, d⟩ ⟨d.x 30, t⟩
  mode : t.mode = d.mode
  pointers : ∀ el, t.sys (.sp el) = d.sys (.sp el)
  saved : t.sys (.spsr d.mode.el) = d.sys (.spsr d.mode.el)
  frame : Agree t.mem d.mem (d.get .sp).toNat 256

private theorem takeException_pc (kind : Fin 4) (syndrome : Word) (s : State) : (takeException kind syndrome s).pc =
    s.core.sys (.vbar s.core.mode.el) + BitVec.ofNat 64 (0x80 * (vectorOf kind s.core.mode.spsel).val) := rfl

/-- The program that was interrupted goes on where it was, with all registers,
flags, masks and stack pointers. The handler gets the registers as a `struct
pt_regs`, right below the stack pointer of the level, and the syndrome. Memory around
these 256 bytes is untouched up to the handler, and behind it all is as the handler
left it. -/
theorem exception_transparent (linked : Linked im base listing) (s : State) (kind : Fin 4) (syndrome : Word)
    (above : s.core.mode.el ≠ 0) (vectors : s.core.sys (.vbar s.core.mode.el) = im.addr .vectors)
    (room : 256 ≤ (s.core.sys (.sp s.core.mode.el)).toNat)
    (handled : ∀ d, Entered (takeException kind syndrome s).core d →
      ∃ t, Returns im (handler (vectorOf kind s.core.mode.spsel)) d t) :
    ∃ d t e, Reaches im (takeException kind syndrome s) ⟨im.addr (handler (vectorOf kind s.core.mode.spsel)), d⟩ ∧
      Stacked d (ptRegs s.pc s.core.x) ∧ (d.get .sp).toNat = (s.core.sys (.sp s.core.mode.el)).toNat - 256 ∧
      d.x 0 = d.get .sp ∧ d.x 1 = syndrome ∧
      (∀ cell, cell < (s.core.sys (.sp s.core.mode.el)).toNat - 256 ∨ (s.core.sys (.sp s.core.mode.el)).toNat ≤ cell →
        d.mem cell = s.core.mem cell) ∧
      Returns im (handler (vectorOf kind s.core.mode.spsel)) d t ∧
      Reaches im (takeException kind syndrome s) ⟨s.pc, e⟩ ∧ e.x = s.core.x ∧ e.flags = s.core.flags ∧
      e.mode = s.core.mode ∧ (∀ el, e.sys (.sp el) = s.core.sys (.sp el)) ∧ e.mem = t.mem := by
  obtain ⟨elr, spsr, esr, pointers⟩ := takeException_sys kind syndrome s
  have start : (takeException kind syndrome s).pc = place base (32 * (vectorOf kind s.core.mode.spsel).val) := by
    rw [takeException_pc, vectors, linked.addr .vectors 0 (by decide), place_zero]
    unfold place
    rw [← Nat.mul_assoc]
  have x : (takeException kind syndrome s).core.x = s.core.x := rfl
  have mem : (takeException kind syndrome s).core.mem = s.core.mem := rfl
  have el : (takeException kind syndrome s).core.mode.el = s.core.mode.el := rfl
  have stack : (takeException kind syndrome s).core.mode.stack = .sp s.core.mode.el := rfl
  have sp : (takeException kind syndrome s).core.get .sp = s.core.sys (.sp s.core.mode.el) := by
    rw [Core.get, stack, pointers]
  generalize takeException kind syndrome s = taken at elr spsr esr pointers start x mem el stack sp handled ⊢
  obtain ⟨pc, core⟩ := taken
  dsimp only at elr spsr esr pointers start x mem el stack sp handled
  obtain ⟨d, reached, entered, link⟩ := entry_reaches linked (vectorOf kind s.core.mode.spsel)
    (show core.mode.el ≠ 0 by rwa [el]) (by rwa [sp])
  obtain ⟨t, returns⟩ := handled d entered
  have frame := entered.frame
  rw [el, elr, x] at frame
  have mode : t.mode = core.mode := returns.mode.trans entered.mode
  have down : t.get .sp = d.get .sp := by
    rw [Core.get, Core.get, returns.mode, entered.mode, stack, returns.pointers]
  have kept : Stacked t (ptRegs s.pc s.core.x) := frame.of_agree down returns.frame
  obtain ⟨e, exited, restored⟩ := exit_reaches linked (show t.mode.el ≠ 0 by rwa [mode, el]) kept
  have saved : e.sys (.spsr e.mode.el) = savedState s.core.flags s.core.mode := by
    rw [restored.sys _ (by rw [mode, stack]; simp) (by simp), restored.mode, returns.mode, returns.saved, entered.mode,
      entered.sys _ (by rw [stack]; simp), el, spsr]
  have legal := exceptionReturn_saved saved (Nat.le_of_eq (by rw [restored.mode, mode, el]))
  rw [restored.mode, restored.elr] at legal
  have returned := linked.eret (k := 115) rfl (show e.mode.el ≠ 0 by rwa [restored.mode, mode, el]) legal
  have handler : Reaches im ⟨pc, core⟩ ⟨im.addr (handler (vectorOf kind s.core.mode.spsel)), d⟩ := by
    rw [start]
    exact reached
  have around := entered.outside
  rw [sp, mem] at around
  have low := entered.sp
  rw [sp] at low
  refine ⟨d, t, { e with flags := s.core.flags, mode := s.core.mode }, handler, frame, low, entered.pointer,
    by rw [entered.syndrome, el, esr], around, returns, ?_, restored.x, rfl, rfl, ?_, restored.mem⟩
  · have back := returns.reaches
    rw [link] at back
    exact ((handler.trans back).trans (vector_exits linked _)).trans (exited.trans returned)
  · intro level
    show e.sys (.sp level) = _
    by_cases own : level = s.core.mode.el
    · have up := restored.sp
      rw [Core.get, restored.mode, mode, stack, down] at up
      rw [own, up]
      bv_omega
    · rw [restored.sys _ (by rw [mode, stack]; simpa using own) (by simp), returns.pointers,
        entered.sys _ (by rw [stack]; simpa using own), pointers]

/-- Handlers that return at once. -/
def stubs : List (Line Label) :=
  [.label .doBadSync, .label .doBadIrq, .label .doBadFiq, .label .doBadError, .label .doSync, .label .doIrq,
    .label .doFiq, .label .doError, .ins (.ret lr)]

/-- A program at level 1 with its stack below 4096. -/
def idle : State where
  pc := 0x8000
  core := { x := fun n => BitVec.ofNat 64 n.val, flags := ⟨true, false, true, false⟩, mode := ⟨1, true, 0⟩,
            sys := fun r => if r = .sp 1 then 0x1000 else 0, mem := fun _ => 0, geometry := fun _ => 0, log := [] }

/-- An interrupt of the program. -/
theorem exception_transparent_irq :
    ∃ e, Reaches (link 0 (listing ++ stubs)) (takeException 1 0 idle) ⟨idle.pc, e⟩ ∧ e.x = idle.core.x ∧
      e.flags = idle.core.flags ∧ e.mode = idle.core.mode := by
  have linked : Linked (link 0 (listing ++ stubs)) 0 (listing ++ stubs) :=
    link_linked 0 _ (by decide +kernel) (by decide +kernel)
  have returns : ∀ d, Returns (link 0 (listing ++ stubs)) .doIrq d d := by
    intro d
    refine ⟨?_, rfl, fun _ => rfl, rfl, fun _ _ _ => rfl⟩
    rw [linked.addr .doIrq 228 (by decide +kernel)]
    exact linked.ret (k := 228) (n := lr) (by decide +kernel)
  obtain ⟨_, _, e, _, _, _, _, _, _, _, reached, x, flags, mode, _⟩ :=
      exception_transparent linked.left idle 1 0 (by decide)
    (by decide +kernel) (by decide) (fun d _ => ⟨d, returns d⟩)
  exact ⟨e, reached, x, flags, mode⟩

end RockOs.ExceptionVectors
