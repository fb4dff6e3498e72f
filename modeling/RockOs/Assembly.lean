import Mathlib.Logic.Relation
import RockOs.Aarch64

/-! Assembly listings and what runs when they are linked into an image. A
listing holds instructions, labels and alignments; a linked image has each of
its instructions at the address its place gives it. Code goes step by step, and
the rules below take straight stretches, branches and calls in one piece. -/
namespace RockOs.Assembly
open Aarch64

/-! ## Listings -/

variable {L : Type}

/-- An instruction; labels are of type `L`. -/
inductive Instr (L : Type) where
  | op (op : Op)
  /-- The address of a label. -/
  | adr (d : Reg) (label : L)
  /-- The word at a label. -/
  | ldrLiteral (d : Reg) (label : L)
  | b (label : L)
  | bCond (cond : Cond) (label : L)
  | cbz (n : Reg) (label : L)
  | cbnz (n : Reg) (label : L)
  | tbz (n : Reg) (bit : Nat) (label : L)
  | bl (label : L)
  | br (n : Reg)
  | ret (n : Reg)
  | eret
  deriving DecidableEq, Repr

inductive Line (L : Type) where
  | label (label : L)
  /-- Instructions that do nothing, up to a multiple of `2 ^ bits` bytes. -/
  | align (bits : Nat)
  | ins (instr : Instr L)
  deriving DecidableEq, Repr

/-- A straight stretch of code. -/
def straight (ops : List Op) : List (Line L) := ops.map (fun op => .ins (.op op))

/-- The padding of an alignment, `k` instructions from the start. -/
def padding (bits k : Nat) : Nat := (2 ^ (bits - 2) - k % 2 ^ (bits - 2)) % 2 ^ (bits - 2)

/-- The instructions of a listing whose first stands at place `k`. -/
def instrs : (k : Nat) → List (Line L) → List (Instr L)
  | _, [] => []
  | k, .label _ :: lines => instrs k lines
  | k, .align bits :: lines => List.replicate (padding bits k) (.op .nop) ++ instrs (k + padding bits k) lines
  | k, .ins instr :: lines => instr :: instrs (k + 1) lines

/-- The places of the labels. -/
def labels : (k : Nat) → List (Line L) → List (L × Nat)
  | _, [] => []
  | k, .label label :: lines => (label, k) :: labels k lines
  | k, .align bits :: lines => labels (k + padding bits k) lines
  | k, .ins _ :: lines => labels (k + 1) lines

/-- The listing has `code` at place `k`. -/
def Holds (lines : List (Line L)) (k : Nat) (code : List (Instr L)) : Prop :=
  ((instrs 0 lines).drop k).take code.length = code

theorem Holds.at {lines : List (Line L)} (held : Holds lines k code) (found : code[i]? = some instr) :
    (instrs 0 lines)[k + i]? = some instr := by
  have inside := (List.getElem?_eq_some_iff.mp found).1
  unfold Holds at held
  rw [← held, List.getElem?_take, if_pos inside, List.getElem?_drop] at found
  exact found

theorem Holds.left {lines : List (Line L)} {code more : List (Instr L)} (held : Holds lines k (code ++ more)) :
    Holds lines k code := by
  have both := congrArg (List.take code.length) held
  rw [List.take_take, List.take_left, List.length_append, Nat.min_eq_left (Nat.le_add_right ..)] at both
  exact both

theorem Holds.right {lines : List (Line L)} {code more : List (Instr L)} (held : Holds lines k (code ++ more)) :
    Holds lines (k + code.length) more := by
  have both := congrArg (List.drop code.length) held
  rw [List.drop_take, List.drop_drop, List.drop_left, List.length_append, Nat.add_sub_cancel_left] at both
  exact both

/-- The address of place `k` of a listing at `base`. -/
def place (base : Word) (k : Nat) : Word := base + BitVec.ofNat 64 (4 * k)

theorem place_zero (base : Word) : place base 0 = base := BitVec.add_zero base

private theorem place_succ (base : Word) (k : Nat) : place base k + 4 = place base (k + 1) := by
  unfold place
  rw [BitVec.add_assoc, show BitVec.ofNat 64 (4 * (k + 1)) = BitVec.ofNat 64 (4 * k) + 4 by
    rw [Nat.mul_succ, BitVec.ofNat_add]
    rfl]

/-- Code and the addresses of labels. -/
structure Image (L : Type) where
  code : Word → Option (Instr L)
  addr : L → Word

/-- The listing is in the image, at `base`. -/
structure Linked (im : Image L) (base : Word) (lines : List (Line L)) : Prop where
  code : ∀ k instr, (instrs 0 lines)[k]? = some instr → im.code (place base k) = some instr
  addr : ∀ label k, (label, k) ∈ labels 0 lines → im.addr label = place base k

/-! ## Linking -/

/-- The image of one listing. -/
def link [DecidableEq L] (base : Word) (lines : List (Line L)) : Image L where
  code pc := if (pc - base).toNat % 4 = 0 then (instrs 0 lines)[(pc - base).toNat / 4]? else none
  addr label := place base (((labels 0 lines).lookup label).getD 0)

private theorem place_sub (base : Word) (small : k < 2 ^ 62) : (place base k - base).toNat = 4 * k := by
  unfold place
  rw [BitVec.add_comm, BitVec.add_sub_cancel, BitVec.toNat_ofNat]
  omega

private theorem lookup_of_mem [DecidableEq L] {entries : List (L × Nat)} (distinct : (entries.map Prod.fst).Nodup)
    (member : (label, k) ∈ entries) : entries.lookup label = some k := by
  induction entries with
  | nil => cases member
  | cons entry entries ih =>
    rw [List.map_cons, List.nodup_cons] at distinct
    rw [List.lookup_cons]
    rcases List.mem_cons.mp member with here | later
    · rw [← here, beq_self_eq_true]
    · have other : (label == entry.1) = false := by
        rw [beq_eq_false_iff_ne]
        rintro rfl
        exact distinct.1 (List.mem_map.mpr ⟨_, later, rfl⟩)
      rw [other]
      exact ih distinct.2 later

theorem link_linked [DecidableEq L] (base : Word) (lines : List (Line L)) (small : (instrs 0 lines).length ≤ 2 ^ 62)
    (distinct : ((labels 0 lines).map Prod.fst).Nodup) : Linked (link base lines) base lines where
  code k instr held := by
    have inside := (List.getElem?_eq_some_iff.mp held).1
    show (if (place base k - base).toNat % 4 = 0 then _ else _) = _
    rw [place_sub base (by omega), if_pos (by omega), Nat.mul_div_cancel_left k (by decide), held]
  addr label k member := by
    show place base _ = _
    rw [lookup_of_mem distinct member, Option.getD_some]

private theorem instrs_append (k : Nat) (lines more : List (Line L)) :
    instrs k (lines ++ more) = instrs k lines ++ instrs (k + (instrs k lines).length) more := by
  induction lines generalizing k with
  | nil => rfl
  | cons line lines ih =>
    cases line with
    | label label => exact ih k
    | align bits =>
      rw [List.cons_append, instrs, instrs, ih, List.append_assoc, List.length_append, List.length_replicate,
        Nat.add_assoc]
    | ins instr =>
      rw [List.cons_append, instrs, instrs, ih, List.cons_append, List.length_cons, Nat.add_assoc, Nat.add_comm 1]

private theorem labels_append (k : Nat) (lines more : List (Line L)) :
    labels k (lines ++ more) = labels k lines ++ labels (k + (instrs k lines).length) more := by
  induction lines generalizing k with
  | nil => rfl
  | cons line lines ih =>
    cases line with
    | label label => rw [List.cons_append, labels, labels, ih, List.cons_append, instrs]
    | align bits =>
      rw [List.cons_append, labels, labels, ih, instrs, List.length_append, List.length_replicate, Nat.add_assoc]
    | ins instr => rw [List.cons_append, labels, labels, ih, instrs, List.length_cons, Nat.add_assoc, Nat.add_comm 1]

/-- The first part of a linked listing. -/
theorem Linked.left {im : Image L} {lines more : List (Line L)} (linked : Linked im base (lines ++ more)) :
    Linked im base lines where
  code k instr held := by
    refine linked.code k instr ?_
    rw [instrs_append, List.getElem?_append_left (List.getElem?_eq_some_iff.mp held).1]
    exact held
  addr label k member := by
    refine linked.addr label k ?_
    rw [labels_append]
    exact List.mem_append_left _ member

private theorem place_place (base : Word) (n k : Nat) : place (place base n) k = place base (n + k) := by
  unfold place
  rw [BitVec.add_assoc, Nat.mul_add, BitVec.ofNat_add]

/-- Without alignments a listing is the same wherever it starts. -/
theorem instrs_shift {lines : List (Line L)} (free : ∀ bits, .align bits ∉ lines) (k : Nat) :
    instrs k lines = instrs 0 lines ∧ labels k lines = (labels 0 lines).map (fun entry => (entry.1, k + entry.2)) := by
  suffices shifted : ∀ j, instrs (k + j) lines = instrs j lines ∧
      labels (k + j) lines = (labels j lines).map (fun entry => (entry.1, k + entry.2)) from shifted 0
  induction lines with
  | nil => exact fun _ => ⟨rfl, rfl⟩
  | cons line lines ih =>
    intro j
    have rest := ih (fun bits member => free bits (List.mem_cons_of_mem _ member))
    cases line with
    | label label => exact ⟨(rest j).1, congrArg ((label, k + j) :: ·) (rest j).2⟩
    | align bits => exact absurd List.mem_cons_self (free bits)
    | ins instr => exact ⟨congrArg (instr :: ·) (rest (j + 1)).1, (rest (j + 1)).2⟩

/-- The last part of a linked listing. -/
theorem Linked.right {im : Image L} {lines more : List (Line L)} (linked : Linked im base (lines ++ more))
    (free : ∀ bits, .align bits ∉ more) : Linked im (place base (instrs 0 lines).length) more where
  code k instr held := by
    rw [place_place]
    refine linked.code _ instr ?_
    rw [instrs_append, List.getElem?_append_right (Nat.le_add_right ..), Nat.zero_add, (instrs_shift free _).1,
      Nat.add_sub_cancel_left]
    exact held
  addr label k member := by
    rw [place_place]
    refine linked.addr label _ ?_
    rw [labels_append, Nat.zero_add, (instrs_shift free _).2]
    exact List.mem_append_right _ (List.mem_map.mpr ⟨_, member, rfl⟩)

/-- Symbols that are not labels of the listing may be anywhere. -/
theorem Linked.withAddr {im : Image L} {lines : List (Line L)} (linked : Linked im base lines) (addr : L → Word)
    (same : ∀ entry ∈ labels 0 lines, addr entry.1 = im.addr entry.1) : Linked { im with addr := addr } base lines where
  code := linked.code
  addr label k member := (same _ member).trans (linked.addr label k member)

/-! ## Steps -/

structure State where
  pc : Word
  core : Core

/-- The processor state that an exception saves, from its lowest bit on. -/
def savedBits (flags : Flags) (mode : Mode) : List Bool :=
  [mode.spsel, false, mode.el.val.testBit 0, mode.el.val.testBit 1, false, false,
    mode.daif.getLsbD 0, mode.daif.getLsbD 1, mode.daif.getLsbD 2, mode.daif.getLsbD 3] ++
    List.replicate 18 false ++ [flags.v, flags.c, flags.z, flags.n]

def savedState (flags : Flags) (mode : Mode) : Word := (BitVec.ofBoolListLE (savedBits flags mode)).setWidth 64

def savedFlags (spsr : Word) : Flags where
  n := spsr.getLsbD 31
  z := spsr.getLsbD 30
  c := spsr.getLsbD 29
  v := spsr.getLsbD 28

def savedMode (spsr : Word) : Mode where
  el := (spsr.extractLsb' 2 2).toFin
  spsel := spsr.getLsbD 0
  daif := spsr.extractLsb' 6 4

private theorem savedState_bit (flags : Flags) (mode : Mode) (small : i < 64) :
    (savedState flags mode).getLsbD i = (savedBits flags mode).getD i false := by
  rw [savedState, BitVec.getLsbD_setWidth, BitVec.getLsbD_ofBoolListLE, decide_eq_true small, Bool.true_and]

private theorem savedFlags_savedState (flags : Flags) (mode : Mode) : savedFlags (savedState flags mode) = flags := by
  simp only [savedFlags, savedState_bit _ _ (show 31 < 64 by decide), savedState_bit _ _ (show 30 < 64 by decide),
    savedState_bit _ _ (show 29 < 64 by decide), savedState_bit _ _ (show 28 < 64 by decide)]
  rfl

private theorem savedMode_savedState (flags : Flags) (mode : Mode) : savedMode (savedState flags mode) = mode := by
  have level : (savedState flags mode).extractLsb' 2 2 = BitVec.ofFin mode.el := by
    apply BitVec.eq_of_getLsbD_eq
    intro i small
    rw [BitVec.getLsbD_extractLsb', decide_eq_true small, Bool.true_and, savedState_bit _ _ (by omega)]
    obtain rfl | rfl : i = 0 ∨ i = 1 := by omega
    all_goals rfl
  have masks : (savedState flags mode).extractLsb' 6 4 = mode.daif := by
    apply BitVec.eq_of_getLsbD_eq
    intro i small
    rw [BitVec.getLsbD_extractLsb', decide_eq_true small, Bool.true_and, savedState_bit _ _ (by omega)]
    obtain rfl | rfl | rfl | rfl : i = 0 ∨ i = 1 ∨ i = 2 ∨ i = 3 := by omega
    all_goals rfl
  rw [savedMode, level, masks, savedState_bit _ _ (by decide)]
  rfl

/-- Return from an exception. Returns to a higher level or to another
instruction set are illegal. -/
def exceptionReturn (c : Core) : Option State :=
  let spsr := c.sys (.spsr c.mode.el)
  if spsr.getLsbD 4 ∨ c.mode.el < (savedMode spsr).el then none
  else some ⟨c.sys (.elr c.mode.el), { c with flags := savedFlags spsr, mode := savedMode spsr }⟩

/-- Saved state is returned to. -/
theorem exceptionReturn_saved {c : Core} {flags : Flags} {mode : Mode}
    (saved : c.sys (.spsr c.mode.el) = savedState flags mode) (level : mode.el ≤ c.mode.el) :
    exceptionReturn c = some ⟨c.sys (.elr c.mode.el), { c with flags := flags, mode := mode }⟩ := by
  have legal : ¬ ((savedState flags mode).getLsbD 4 = true ∨ c.mode.el < (savedMode (savedState flags mode)).el) := by
    rw [savedState_bit _ _ (by decide), savedMode_savedState, not_or]
    exact ⟨Bool.false_ne_true, Nat.not_lt.mpr level⟩
  unfold exceptionReturn
  rw [saved, if_neg legal, savedFlags_savedState, savedMode_savedState]

/-- An exception taken to the level it comes from. The four kinds have vectors of
0x80 bytes each, once for the stack pointer of level 0 and once for the level's own. -/
def takeException (kind : Fin 4) (syndrome : Word) (s : State) : State :=
  let el := s.core.mode.el
  let slot := kind.val + if s.core.mode.spsel then 4 else 0
  let sys := Function.update (Function.update (Function.update s.core.sys (.elr el) s.pc)
    (.spsr el) (savedState s.core.flags s.core.mode)) (.esr el) syndrome
  ⟨s.core.sys (.vbar el) + BitVec.ofNat 64 (0x80 * slot),
    { s.core with mode := { el := el, spsel := true, daif := 0xf }, sys := sys }⟩

theorem takeException_sys (kind : Fin 4) (syndrome : Word) (s : State) :
    (takeException kind syndrome s).core.sys (.elr s.core.mode.el) = s.pc ∧
    (takeException kind syndrome s).core.sys (.spsr s.core.mode.el) = savedState s.core.flags s.core.mode ∧
    (takeException kind syndrome s).core.sys (.esr s.core.mode.el) = syndrome ∧
    ∀ el, (takeException kind syndrome s).core.sys (.sp el) = s.core.sys (.sp el) := by
  unfold takeException
  simp

def exec (im : Image L) (pc : Word) (c : Core) : Instr L → Option State
  | .op op => some ⟨pc + 4, op.effect c⟩
  | .adr d label => some ⟨pc + 4, c.set d (im.addr label)⟩
  | .ldrLiteral d label => some ⟨pc + 4, c.set d (c.loadWord (im.addr label))⟩
  | .b label => some ⟨im.addr label, c⟩
  | .bCond cond label => some ⟨if cond.holds c.flags then im.addr label else pc + 4, c⟩
  | .cbz n label => some ⟨if c.get n = 0 then im.addr label else pc + 4, c⟩
  | .cbnz n label => some ⟨if c.get n ≠ 0 then im.addr label else pc + 4, c⟩
  | .tbz n bit label => some ⟨if (c.get n).getLsbD bit then pc + 4 else im.addr label, c⟩
  | .bl label => some ⟨im.addr label, c.set lr (pc + 4)⟩
  | .br n => some ⟨c.get n, c⟩
  | .ret n => some ⟨c.get n, c⟩
  | .eret => if c.mode.el = 0 then none else exceptionReturn c

def step (im : Image L) (s : State) : Option State := im.code s.pc >>= exec im s.pc s.core

/-- The code gets from one state to the other. -/
def Reaches (im : Image L) : State → State → Prop := Relation.ReflTransGen (fun s t => step im s = some t)

variable {im : Image L} {base : Word} {lines : List (Line L)} {c : Core}

theorem Reaches.refl (s : State) : Reaches im s s := Relation.ReflTransGen.refl

theorem Reaches.trans {s t u : State} (first : Reaches im s t) (second : Reaches im t u) : Reaches im s u :=
  Relation.ReflTransGen.trans first second

theorem Reaches.one {s t : State} (stepped : step im s = some t) : Reaches im s t := Relation.ReflTransGen.single stepped

/-! ## Rules -/

namespace Linked

private theorem step_eq (linked : Linked im base lines) (held : (instrs 0 lines)[k]? = some instr) :
    step im ⟨place base k, c⟩ = exec im (place base k) c instr := by
  unfold step
  rw [linked.code k instr held]
  rfl

/-- One operation. -/
theorem op {o : Op} (linked : Linked im base lines) (held : (instrs 0 lines)[k]? = some (.op o)) :
    Reaches im ⟨place base k, c⟩ ⟨place base (k + 1), o.effect c⟩ := by
  refine .one ?_
  rw [linked.step_eq held, exec, place_succ]

/-- A straight stretch of `ops` from place `k` on. -/
theorem ops (linked : Linked im base lines) (k : Nat) (ops : List Op) (c : Core)
    (held : Holds lines k (ops.map .op)) : Reaches im ⟨place base k, c⟩ ⟨place base (k + ops.length), run ops c⟩ := by
  induction ops generalizing k c with
  | nil => exact .refl _
  | cons o ops ih =>
    have first : (instrs 0 lines)[k]? = some (.op o) := held.at (i := 0) rfl
    have rest : Holds lines (k + 1) (ops.map .op) := by
      have tail := congrArg List.tail held
      rw [List.length_map, List.length_cons] at tail
      rwa [List.map_cons, List.tail_cons, ← List.drop_one, List.drop_take, List.drop_drop, Nat.add_sub_cancel,
        ← List.length_map (Instr.op (L := L))] at tail
    have next := ih (k + 1) (o.effect c) rest
    rw [List.length_cons, run_cons, show k + (ops.length + 1) = k + 1 + ops.length by omega]
    exact (linked.op first).trans next

theorem b (linked : Linked im base lines) (held : (instrs 0 lines)[k]? = some (.b label))
    (there : (label, j) ∈ labels 0 lines) : Reaches im ⟨place base k, c⟩ ⟨place base j, c⟩ := by
  refine .one ?_
  rw [linked.step_eq held, exec, linked.addr label j there]

/-- A branch out of the listing. -/
theorem bOut (linked : Linked im base lines) (held : (instrs 0 lines)[k]? = some (.b label)) :
    Reaches im ⟨place base k, c⟩ ⟨im.addr label, c⟩ := by
  refine .one ?_
  rw [linked.step_eq held, exec]

theorem bTaken {cond : Cond} (linked : Linked im base lines) (held : (instrs 0 lines)[k]? = some (.bCond cond label))
    (there : (label, j) ∈ labels 0 lines) (holds : cond.holds c.flags = true) :
    Reaches im ⟨place base k, c⟩ ⟨place base j, c⟩ := by
  refine .one ?_
  rw [linked.step_eq held, exec, if_pos holds, linked.addr label j there]

theorem bPassed {cond : Cond} (linked : Linked im base lines) (held : (instrs 0 lines)[k]? = some (.bCond cond label))
    (fails : ¬ cond.holds c.flags = true) : Reaches im ⟨place base k, c⟩ ⟨place base (k + 1), c⟩ := by
  refine .one ?_
  rw [linked.step_eq held, exec, if_neg fails, place_succ]

section Linked
variable (linked : Linked im base lines)
include linked

theorem cbzTaken (held : (instrs 0 lines)[k]? = some (.cbz n label)) (there : (label, j) ∈ labels 0 lines)
    (zero : c.get n = 0) : Reaches im ⟨place base k, c⟩ ⟨place base j, c⟩ := by
  refine .one ?_
  rw [linked.step_eq held, exec, if_pos zero, linked.addr label j there]

theorem cbzPassed (held : (instrs 0 lines)[k]? = some (.cbz n label)) (nonzero : c.get n ≠ 0) :
    Reaches im ⟨place base k, c⟩ ⟨place base (k + 1), c⟩ := by
  refine .one ?_
  rw [linked.step_eq held, exec, if_neg nonzero, place_succ]

theorem tbzTaken (held : (instrs 0 lines)[k]? = some (.tbz n bit label)) (there : (label, j) ∈ labels 0 lines)
    (clear : (c.get n).getLsbD bit = false) :
    Reaches im ⟨place base k, c⟩ ⟨place base j, c⟩ := by
  refine .one ?_
  rw [linked.step_eq held, exec, clear, if_neg Bool.false_ne_true, linked.addr label j there]

theorem tbzPassed (held : (instrs 0 lines)[k]? = some (.tbz n bit label)) (set : (c.get n).getLsbD bit = true) :
    Reaches im ⟨place base k, c⟩ ⟨place base (k + 1), c⟩ := by
  refine .one ?_
  rw [linked.step_eq held, exec, if_pos set, place_succ]

theorem adr (held : (instrs 0 lines)[k]? = some (.adr d label)) :
    Reaches im ⟨place base k, c⟩ ⟨place base (k + 1), c.set d (im.addr label)⟩ := by
  refine .one ?_
  rw [linked.step_eq held, exec, place_succ]

theorem ldrLiteral (held : (instrs 0 lines)[k]? = some (.ldrLiteral d label)) :
    Reaches im ⟨place base k, c⟩ ⟨place base (k + 1), c.set d (c.loadWord (im.addr label))⟩ := by
  refine .one ?_
  rw [linked.step_eq held, exec, place_succ]

/-- A call, here or in another listing. -/
theorem bl (held : (instrs 0 lines)[k]? = some (.bl label)) :
    Reaches im ⟨place base k, c⟩ ⟨im.addr label, c.set lr (place base (k + 1))⟩ := by
  refine .one ?_
  rw [linked.step_eq held, exec, place_succ]

theorem ret (held : (instrs 0 lines)[k]? = some (.ret n)) :
    Reaches im ⟨place base k, c⟩ ⟨c.get n, c⟩ := by
  refine .one ?_
  rw [linked.step_eq held, exec]

theorem eret (held : (instrs 0 lines)[k]? = some .eret) (above : c.mode.el ≠ 0) (legal : exceptionReturn c = some t) :
    Reaches im ⟨place base k, c⟩ t := by
  refine .one ?_
  rw [linked.step_eq held, exec, if_neg above, legal]

end Linked

end Linked

end RockOs.Assembly
