import RockOs.CliSimple

/-! When an empty line repeats the one before it. The rule is stated over what each
execution of a line returned; `cli_simple_loop` keeps the line itself and forgets it
when an execution did not return 1. -/
namespace RockOs.CommandLoop
open CliSimple Config

variable {W : Type} (table : List (CmdTbl W)) (front : W → UInt8)

/-! ## What an execution returns -/

/-- Every command of these tokens is found, takes that many arguments, succeeds and is
repeatable. -/
def LineRepeats (flag : Nat) : (toks : List (List UInt8)) → W → Prop
  | [], _ => True
  | token :: toks, w =>
    let argv := cliSimpleParseLine (cliSimpleProcessMacros token)
    argv ≠ [] ∧ ∃ cmdtp, findCmd table (argv.headD []) = some cmdtp ∧ argv.length ≤ cmdtp.maxargs ∧
      (cmdtp.cmdRep flag argv w).1 = 0 ∧ (cmdtp.cmdRep flag argv w).2.1 &&& 1 = 1 ∧
        LineRepeats flag toks (cmdtp.cmdRep flag argv w).2.2

/-- Only bit 0 of what a command leaves in `*repeatable` counts. -/
theorem and_bit (newrep : BitVec 32) (bit : rep = 0 ∨ rep = 1) :
    (rep &&& newrep = 0 ∨ rep &&& newrep = 1) ∧ (rep &&& newrep = 1 ↔ rep = 1 ∧ newrep &&& 1 = 1) := by
  rcases bit with rfl | rfl
  · have zero : (0 : BitVec 32) &&& newrep = 0 := BitVec.zero_and
    rw [zero]
    exact ⟨Or.inl rfl, iff_of_false (by decide) fun both => absurd both.1 (by decide)⟩
  · have low : newrep &&& (1 : BitVec 32) = (BitVec.ofBool (newrep.getLsbD 0)).setWidth 32 :=
      BitVec.and_one_eq_setWidth_ofBool_getLsbD
    rw [BitVec.and_comm, low]
    refine ⟨?_, (and_iff_right rfl).symm⟩
    cases newrep.getLsbD 0
    · exact Or.inl rfl
    · exact Or.inr rfl

/-- `rc` and `repeatable` when they are what a line begins with, or what its commands so
far have made of them. -/
def Flags (rc : Int) (repeatable : BitVec 32) : Prop :=
  (rc = 0 ∨ rc = -1) ∧ (repeatable = 0 ∨ repeatable = 1)

private theorem cmdProcess_spec (flag : Nat) (argv : List (List UInt8)) (bit : rep = 0 ∨ rep = 1) (w : W) :
    (cmdProcess table flag argv rep w).2.1 = 0 ∨ (cmdProcess table flag argv rep w).2.1 = 1 := by
  unfold cmdProcess
  split
  · exact bit
  · split
    · exact bit
    · exact (and_bit _ bit).1

private theorem runTokens_flags (flag : Nat) (toks : List (List UInt8)) (flags : Flags rc rep) (w : W) :
    Flags (runTokens table flag toks rc rep w).1 (runTokens table flag toks rc rep w).2.1 := by
  induction toks generalizing rc rep w with
  | nil => exact flags
  | cons token toks ih =>
    rw [runTokens]
    dsimp only
    split
    · exact ih ⟨Or.inr rfl, flags.2⟩ w
    · refine ih ⟨?_, cmdProcess_spec table flag _ flags.2 w⟩ _
      split
      · exact Or.inr rfl
      · exact flags.1

/-- A line runs through with both flags set exactly if each of its commands allows it. -/
theorem runTokens_repeats (flag : Nat) (toks : List (List UInt8)) (flags : Flags rc rep) (w : W) :
    ((runTokens table flag toks rc rep w).1 = 0 ∧ (runTokens table flag toks rc rep w).2.1 = 1) ↔
      (rc = 0 ∧ rep = 1) ∧ LineRepeats table flag toks w := by
  induction toks generalizing rc rep w with
  | nil => exact (and_iff_left trivial).symm
  | cons token toks ih =>
    rw [runTokens, LineRepeats]
    dsimp only
    by_cases blank : cliSimpleParseLine (cliSimpleProcessMacros token) = []
    · rw [if_pos blank, ih ⟨Or.inr rfl, flags.2⟩]
      exact iff_of_false (fun all => absurd all.1.1 (by decide)) fun all => all.2.1 blank
    rw [if_neg blank]
    generalize cliSimpleParseLine (cliSimpleProcessMacros token) = argv at blank
    cases found : findCmd table (argv.headD []) with
    | none =>
      have unknown : cmdProcess table flag argv rep w = (1, rep, w) := by rw [cmdProcess, found]
      rw [unknown, if_pos (show (1 : Int) ≠ 0 by decide), ih ⟨Or.inr rfl, flags.2⟩]
      refine iff_of_false (fun all => absurd all.1.1 (by decide)) ?_
      rintro ⟨-, -, cmdtp, other, -⟩
      cases other
    | some cmdtp =>
      by_cases fits : argv.length ≤ cmdtp.maxargs
      · have called : cmdProcess table flag argv rep w = ((cmdtp.cmdRep flag argv w).1,
            rep &&& (cmdtp.cmdRep flag argv w).2.1, (cmdtp.cmdRep flag argv w).2.2) := by
          rw [cmdProcess, found]
          exact if_neg (by omega)
        have bit := and_bit (cmdtp.cmdRep flag argv w).2.1 flags.2
        rw [called]
        dsimp only
        rw [ih ⟨by split; exacts [Or.inr rfl, flags.1], bit.1⟩, bit.2]
        constructor
        · rintro ⟨⟨rc_eq, rep_eq, repeats⟩, rest⟩
          split at rc_eq
          · cases rc_eq
          · next success =>
            exact ⟨⟨rc_eq, rep_eq⟩, blank, cmdtp, rfl, fits, not_not.mp success, repeats, rest⟩
        · rintro ⟨⟨rc_eq, rep_eq⟩, -, other, found_eq, -, success, repeats, rest⟩
          cases found_eq
          exact ⟨⟨by rw [if_neg (not_not.mpr success)]; exact rc_eq, rep_eq, repeats⟩, rest⟩
      · have usage : cmdProcess table flag argv rep w = (cmdRetUsage, rep, w) := by
          rw [cmdProcess, found]
          exact if_pos (by omega)
        rw [usage, if_pos (show cmdRetUsage ≠ 0 by decide), ih ⟨Or.inr rfl, flags.2⟩]
        refine iff_of_false (fun all => absurd all.1.1 (by decide)) ?_
        rintro ⟨-, -, other, found_eq, fits', -⟩
        cases found_eq
        exact fits fits'

/-- An execution returns 1 exactly if the line fits `cmdbuf` and every one of its commands
is found, succeeds and is repeatable. Otherwise it returns 0 or -1. -/
theorem runCommand_one (cmd : List UInt8) (flag : Nat) (w : W) :
    ((cliSimpleRunCommand table front cmd flag w).1 = 1 ↔
        cmd ≠ [] ∧ cmd.length < sysCbsize ∧ LineRepeats table flag (tokens (front w) cmd) w) ∧
      (cliSimpleRunCommand table front cmd flag w).1 ≤ 1 := by
  unfold cliSimpleRunCommand
  by_cases empty : cmd = []
  · rw [if_pos empty]
    exact ⟨iff_of_false (show ¬ (-1 : Int) = 1 by decide) fun line => line.1 empty, show (-1 : Int) ≤ 1 by decide⟩
  rw [if_neg empty]
  by_cases long : sysCbsize ≤ cmd.length
  · rw [if_pos long]
    exact ⟨iff_of_false (show ¬ (-1 : Int) = 1 by decide) fun line => by omega, show (-1 : Int) ≤ 1 by decide⟩
  rw [if_neg long]
  have flags : Flags 0 1 := ⟨Or.inl rfl, Or.inr rfl⟩
  have repeats := runTokens_repeats table flag (tokens (front w) cmd) flags w
  obtain ⟨rc_bit, rep_bit⟩ := runTokens_flags table flag (tokens (front w) cmd) flags w
  dsimp only
  generalize runTokens table flag (tokens (front w) cmd) 0 1 w = out at repeats rc_bit rep_bit
  have value : (if out.1 ≠ 0 then out.1 else out.2.1.toInt) = 1 ↔ out.1 = 0 ∧ out.2.1 = 1 := by
    rcases rc_bit with rc_eq | rc_eq <;> rcases rep_bit with rep_eq | rep_eq <;> rw [rc_eq, rep_eq] <;> decide
  have bound : (if out.1 ≠ 0 then out.1 else out.2.1.toInt) ≤ 1 := by
    rcases rc_bit with rc_eq | rc_eq <;> rcases rep_bit with rep_eq | rep_eq <;> rw [rc_eq, rep_eq] <;> decide
  refine ⟨?_, bound⟩
  rw [value, repeats]
  exact ⟨fun all => ⟨empty, by omega, all.2⟩, fun line => ⟨⟨rfl, rfl⟩, line.2.2⟩⟩

/-! ## The rule -/

/-- The most recent line that was not empty, and what its executions have returned. -/
structure Rule (W : Type) where
  line : List UInt8
  returned : List Int
  world : W

def Rule.start (w : W) : Rule W := ⟨[], [], w⟩

/-- A line is executed when it is entered, and again on an empty line as long as every
execution has returned 1. -/
def Rule.step (rule : Rule W) : Input → Rule W
  | .interrupt => rule
  | .line [] =>
    if rule.line ≠ [] ∧ ∀ rc ∈ rule.returned, rc = 1 then
      let (rc, world) := cliSimpleRunCommand table front rule.line cmdFlagRepeat rule.world
      { rule with returned := rule.returned ++ [rc], world }
    else rule
  | .line (c :: text) =>
    let (rc, world) := cliSimpleRunCommand table front (c :: text) 0 rule.world
    ⟨c :: text, [rc], world⟩

/-- The loop holds the line while it may be repeated, and no line after that. -/
structure Follows (s : Loop W) (rule : Rule W) : Prop where
  world : s.world = rule.world
  kept : (∀ rc ∈ rule.returned, rc = 1) → s.lastcommand = rule.line.take sysCbsize
  forgotten : ¬ (∀ rc ∈ rule.returned, rc = 1) → s.lastcommand = []
  idle : s.rc ≤ 0 → s.lastcommand = []

/-- A line that is too long is not executed, however much of it is kept. -/
theorem runCommand_cut (cmd : List UInt8) (flag : Nat) (w : W) :
    cliSimpleRunCommand table front (cmd.take sysCbsize) flag w = cliSimpleRunCommand table front cmd flag w := by
  have positive : 0 < sysCbsize := by decide
  by_cases long : sysCbsize ≤ cmd.length
  · have length : (cmd.take sysCbsize).length = sysCbsize := by rw [List.length_take]; omega
    have nonempty : cmd ≠ [] := List.ne_nil_of_length_pos (by omega)
    have nonempty' : cmd.take sysCbsize ≠ [] := List.ne_nil_of_length_pos (by omega)
    rw [cliSimpleRunCommand, if_neg nonempty', if_pos (by omega), cliSimpleRunCommand, if_neg nonempty, if_pos long]
  · rw [List.take_of_length_le (by omega)]

/-- What the loop keeps after an execution. -/
theorem follows_executed (cmd : List UInt8) (flag : Nat) (w : W) (earlier : List Int) (all : ∀ rc ∈ earlier, rc = 1)
    (out_eq : cliSimpleRunCommand table front cmd flag w = out) :
    Follows (if out.1 ≤ 0 then ⟨[], out.1, out.2⟩ else ⟨cmd.take sysCbsize, out.1, out.2⟩)
      ⟨cmd, earlier ++ [out.1], out.2⟩ := by
  have small : out.1 ≤ 1 := out_eq ▸ (runCommand_one table front cmd flag w).2
  by_cases failed : out.1 ≤ 0
  · rw [if_pos failed]
    have broken : ¬ ∀ rc ∈ earlier ++ [out.1], rc = 1 := by
      intro every
      have := every out.1 (List.mem_append_right _ List.mem_cons_self)
      omega
    exact ⟨rfl, fun every => absurd every broken, fun _ => rfl, fun _ => rfl⟩
  · rw [if_neg failed]
    have every : ∀ rc ∈ earlier ++ [out.1], rc = 1 := by
      intro rc member
      rcases List.mem_append.mp member with before | last
      · exact all rc before
      · rw [List.mem_singleton.mp last]
        omega
    exact ⟨rfl, fun _ => rfl, fun broken => absurd every broken, fun low => absurd low failed⟩

private theorem loop_executes (text kept : List UInt8) (flag : Nat)
    (kept_eq : (if text ≠ [] then text.take sysCbsize else s.lastcommand) = kept)
    (flag_eq : (if text = [] then cmdFlagRepeat else 0) = flag)
    (out_eq : cliSimpleRunCommand table front kept flag s.world = out) :
    cliSimpleLoop table front s (.line text) =
      if out.1 ≤ 0 then ⟨[], out.1, out.2⟩ else ⟨kept, out.1, out.2⟩ := by
  subst kept_eq flag_eq out_eq
  rfl

private theorem step_follows (follows : Follows s rule) (input : Input) :
    Follows (cliSimpleLoop table front s input) (rule.step table front input) := by
  obtain ⟨world, kept, forgotten, idle⟩ := follows
  cases input with
  | interrupt =>
    rw [cliSimpleLoop]
    split
    · next low => exact ⟨world, fun all => (idle low).symm.trans (kept all), fun _ => rfl, fun _ => rfl⟩
    · exact ⟨world, kept, forgotten, idle⟩
  | line text =>
    cases text with
    | nil =>
      by_cases again : rule.line ≠ [] ∧ ∀ rc ∈ rule.returned, rc = 1
      · have cut := runCommand_cut table front rule.line cmdFlagRepeat s.world
        rw [Rule.step, if_pos again, loop_executes table front [] _ cmdFlagRepeat (kept again.2) rfl cut, world]
        exact follows_executed table front rule.line cmdFlagRepeat rule.world rule.returned again.2 rfl
      · have none : s.lastcommand = [] := by
          by_cases all : ∀ rc ∈ rule.returned, rc = 1
          · rw [kept all, not_not.mp fun nonempty => again ⟨nonempty, all⟩]
            rfl
          · exact forgotten all
        rw [Rule.step, if_neg again, loop_executes table front [] _ cmdFlagRepeat none rfl rfl]
        exact ⟨world, fun all => none.symm.trans (kept all), fun _ => rfl, fun _ => rfl⟩
    | cons c text =>
      have cut := runCommand_cut table front (c :: text) 0 s.world
      rw [loop_executes table front (c :: text) _ 0 (if_pos (List.cons_ne_nil c text)) (if_neg (List.cons_ne_nil c text))
        cut, world]
      exact follows_executed table front (c :: text) 0 rule.world [] nofun rfl

private theorem run_follows (follows : Follows s rule) (inputs : List Input) :
    Follows (inputs.foldl (cliSimpleLoop table front) s) (inputs.foldl (Rule.step table front) rule) := by
  induction inputs generalizing s rule with
  | nil => exact follows
  | cons input inputs ih => exact ih (step_follows table front follows input)

/-- For every command table and every sequence of lines, empty lines and `^C`, the loop does to the machine what the
rule says. A line returns 1 exactly if all its commands are found, succeed and are repeatable. -/
theorem repeat_rule (w : W) (inputs : List Input) :
    (inputs.foldl (cliSimpleLoop table front) (.start w)).world =
        (inputs.foldl (Rule.step table front) (.start w)).world ∧
      ∀ (line : List UInt8) (flag : Nat) (w : W), (cliSimpleRunCommand table front line flag w).1 = 1 ↔
        line ≠ [] ∧ line.length < sysCbsize ∧ LineRepeats table flag (tokens (front w) line) w := by
  have start : Follows (Loop.start w) (Rule.start w) := ⟨rfl, fun _ => rfl, fun none => absurd nofun none, fun _ => rfl⟩
  exact ⟨(run_follows table front start inputs).world, fun line flag w => (runCommand_one table front line flag w).1⟩

end RockOs.CommandLoop
