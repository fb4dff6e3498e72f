import RockOs.ArgumentWords

/-! Commands with more words than `argv` takes. `cli_simple_parse_line` reports
them and returns the number it has room for, so that `cli_simple_run_command`
sees a command with exactly that many arguments. Whether it is refused depends on
the command's own limit. -/
namespace RockOs.ArgumentLimit
open ArgumentWords CliSimple Config TextBuffers

variable {W : Type} (table : List (CmdTbl W)) (front : W → UInt8)

/-! ## Which commands a line executes -/

/-- The arguments of one call. -/
abbrev Call := List (List UInt8)

/-- The command with its calls noted down. -/
def noted (cmdtp : CmdTbl W) : CmdTbl (W × List Call) where
  name := cmdtp.name
  maxargs := cmdtp.maxargs
  cmdRep := fun flag argv w =>
    let (rc, newrep, w') := cmdtp.cmdRep flag argv w.1
    (rc, newrep, w', w.2 ++ [argv])

/-- The arguments of a token. -/
def arguments (token : List UInt8) : Call := cliSimpleParseLine (cliSimpleProcessMacros token)

/-- The calls that the first `n` tokens of a line make. -/
def callsAfter (cmd : List UInt8) (flag : Nat) (w : W) (n : Nat) : List Call :=
  if cmd = [] ∨ sysCbsize ≤ cmd.length then []
  else (runTokens (table.map noted) flag ((tokens (front w) cmd).take n) 0 1 (w, [])).2.2.2

/-- The call `cmd_process` makes, if any. -/
def called (argv : Call) : Option Call :=
  match findCmd table (argv.headD []) with
  | none => none
  | some cmdtp => if cmdtp.maxargs < argv.length then none else some argv

/-- The call a token makes, if any. -/
def call (token : List UInt8) : Option Call :=
  if arguments token = [] then none else called table (arguments token)

private theorem findLoop_noted (name : List UInt8) (temp : Option (CmdTbl W)) (found : Nat) :
    findLoop name (table.map noted) (temp.map noted) found = (findLoop name table temp found).map noted := by
  induction table generalizing temp found with
  | nil =>
    rw [List.map_nil, findLoop, findLoop]
    split
    · rfl
    · rfl
  | cons cmdtp table ih =>
    rw [List.map_cons, findLoop, findLoop, show (noted cmdtp).name = cmdtp.name from rfl]
    split
    · split
      · rfl
      · exact ih (some cmdtp) (found + 1)
    · exact ih temp found

private theorem cmdProcess_noted (flag : Nat) (argv : Call) (repeatable : BitVec 32) (w : W) (log : List Call) :
    cmdProcess (table.map noted) flag argv repeatable (w, log) =
      ((cmdProcess table flag argv repeatable w).1, (cmdProcess table flag argv repeatable w).2.1,
        (cmdProcess table flag argv repeatable w).2.2, log ++ (called table argv).toList) := by
  have found := findLoop_noted table ((argv.headD []).takeWhile (· ≠ '.'.toUInt8)) none 0
  unfold cmdProcess called
  rw [findCmd, show (none : Option (CmdTbl (W × List Call))) = Option.map noted none from rfl, found, ← findCmd]
  cases findCmd table (argv.headD []) with
  | none => simp
  | some cmdtp =>
    dsimp only [Option.map_some]
    rw [show (noted cmdtp).maxargs = cmdtp.maxargs from rfl]
    split
    · simp
    · rfl

/-- Noting the calls down changes nothing else. -/
theorem runTokens_noted (flag : Nat) (toks : List (List UInt8)) (rc : Int) (repeatable : BitVec 32) (w : W)
    (log : List Call) :
    runTokens (table.map noted) flag toks rc repeatable (w, log) =
      ((runTokens table flag toks rc repeatable w).1, (runTokens table flag toks rc repeatable w).2.1,
        (runTokens table flag toks rc repeatable w).2.2, log ++ toks.filterMap (call table)) := by
  induction toks generalizing rc repeatable w log with
  | nil => simp [runTokens]
  | cons token toks ih =>
    rw [runTokens, runTokens]
    dsimp only
    by_cases blank : cliSimpleParseLine (cliSimpleProcessMacros token) = []
    · have none : call table token = none := if_pos blank
      rw [if_pos blank, if_pos blank, ih, List.filterMap_cons_none none]
    · have made : call table token = called table (cliSimpleParseLine (cliSimpleProcessMacros token)) := if_neg blank
      have calls : (token :: toks).filterMap (call table) =
          (called table (cliSimpleParseLine (cliSimpleProcessMacros token))).toList ++ toks.filterMap (call table) := by
        rw [List.filterMap_cons, made]
        cases called table (cliSimpleParseLine (cliSimpleProcessMacros token)) with
        | none => rfl
        | some argv => rfl
      rw [if_neg blank, if_neg blank, cmdProcess_noted, ih, calls, List.append_assoc]

private theorem callsAfter_eq (fits : ¬ (cmd = [] ∨ sysCbsize ≤ cmd.length)) (flag : Nat) (w : W) (n : Nat) :
    callsAfter table front cmd flag w n = ((tokens (front w) cmd).take n).filterMap (call table) := by
  rw [callsAfter, if_neg fits, runTokens_noted, List.nil_append]

/-! ## Commands that are too long -/

/-- More words than `argv` takes. -/
def TooMany (token : List UInt8) : Prop := sysMaxargs < (words isBlank (cliSimpleProcessMacros token)).length

/-- The command a token names does not take as many arguments as `argv`, or does not exist. -/
def Refused (token : List UInt8) : Prop :=
  ∀ cmdtp, findCmd table ((arguments token).headD []) = some cmdtp → cmdtp.maxargs < sysMaxargs

private theorem arguments_length (tooMany : TooMany token) : (arguments token).length = sysMaxargs := by
  unfold TooMany at tooMany
  rw [arguments, cliSimpleParseLine, parseArgs_eq, List.length_take]
  omega

/-- A command that is too long is called, with the arguments there was room for, unless it is refused. -/
theorem call_none_iff (tooMany : TooMany token) : call table token = none ↔ Refused table token := by
  have length := arguments_length tooMany
  have some : arguments token ≠ [] := by
    intro none
    rw [none] at length
    cases length
  rw [call, if_neg some, called, Refused, length]
  cases findCmd table ((arguments token).headD []) with
  | none => simp
  | some cmdtp =>
    by_cases small : cmdtp.maxargs < sysMaxargs
    · simp [small]
    · simp [small]

/-- A failure stays. -/
theorem runTokens_failed (flag : Nat) (toks : List (List UInt8)) (repeatable : BitVec 32) (w : W) :
    (runTokens table flag toks (-1) repeatable w).1 = -1 := by
  induction toks generalizing repeatable w with
  | nil => rfl
  | cons token toks ih =>
    rw [runTokens]
    dsimp only
    split
    · exact ih _ _
    · rw [ite_self]
      exact ih _ _

private theorem cmdProcess_uncalled (flag : Nat) (uncalled : called table argv = none) (repeatable : BitVec 32) (w : W) :
    (cmdProcess table flag argv repeatable w).1 ≠ 0 := by
  unfold called at uncalled
  unfold cmdProcess
  split
  · exact Int.one_ne_zero
  · next cmdtp found =>
    rw [found] at uncalled
    dsimp only at uncalled
    split at uncalled
    · next exceeds =>
      rw [if_pos exceeds]
      exact Int.one_ne_zero
    · cases uncalled

/-- A command that makes no call fails. -/
theorem runTokens_refused (flag : Nat) (member : token ∈ toks) (none : call table token = none) (rc : Int)
    (repeatable : BitVec 32) (w : W) : (runTokens table flag toks rc repeatable w).1 = -1 := by
  induction toks generalizing rc repeatable w with
  | nil => cases member
  | cons first toks ih =>
    rw [runTokens]
    dsimp only
    rcases List.mem_cons.mp member with rfl | later
    · by_cases blank : cliSimpleParseLine (cliSimpleProcessMacros token) = []
      · rw [if_pos blank]
        exact runTokens_failed table flag toks _ _
      · have uncalled : called table (cliSimpleParseLine (cliSimpleProcessMacros token)) = Option.none :=
          (if_neg blank).symm.trans none
        rw [if_neg blank, if_pos (cmdProcess_uncalled table flag uncalled repeatable w)]
        exact runTokens_failed table flag toks _ _
    · split
      · exact ih later _ _ _
      · exact ih later _ _ _

/-- A line whose over-long commands are not executed, and that returns -1. -/
def Refuses (cmd : List UInt8) (flag : Nat) (w : W) : Prop :=
  (cliSimpleRunCommand table front cmd flag w).1 = -1 ∧
    ∀ (i : Nat) token, (tokens (front w) cmd)[i]? = some token → TooMany token →
      callsAfter table front cmd flag w (i + 1) = callsAfter table front cmd flag w i

/-- An over-long command is executed with the words that fit, unless the line itself is too long, or the command it
names is unknown or takes fewer arguments. -/
theorem long_commands_iff (cmd : List UInt8) (flag : Nat) (w : W)
    (long : ∃ token ∈ tokens (front w) cmd, TooMany token) :
    Refuses table front cmd flag w ↔
      sysCbsize ≤ cmd.length ∨ ∀ token ∈ tokens (front w) cmd, TooMany token → Refused table token := by
  obtain ⟨args, member, tooMany⟩ := long
  have nonempty : cmd ≠ [] := by
    rintro rfl
    rw [tokens, if_pos rfl] at member
    cases member
  by_cases large : sysCbsize ≤ cmd.length
  · refine iff_of_true ⟨?_, fun i token _ _ => ?_⟩ (Or.inl large)
    · rw [cliSimpleRunCommand, if_neg nonempty, if_pos large]
    · rw [callsAfter, callsAfter, if_pos (Or.inr large), if_pos (Or.inr large)]
  rw [or_iff_right large]
  have fits : ¬ (cmd = [] ∨ sysCbsize ≤ cmd.length) := fun either => either.elim nonempty large
  constructor
  · rintro ⟨-, uncalled⟩ token here many
    obtain ⟨i, inside, rfl⟩ := List.getElem_of_mem here
    have same := uncalled i _ (List.getElem?_eq_getElem inside) many
    rw [callsAfter_eq table front fits, callsAfter_eq table front fits, List.take_add_one,
      List.getElem?_eq_getElem inside, List.filterMap_append] at same
    apply (call_none_iff table many).mp
    cases made : call table (tokens (front w) cmd)[i] with
    | none => rfl
    | some argv => simp [made] at same
  · intro refused
    constructor
    · have none := (call_none_iff table tooMany).mpr (refused args member tooMany)
      have failed := runTokens_refused table flag member none 0 1 w
      rw [cliSimpleRunCommand, if_neg nonempty, if_neg large]
      dsimp only
      rw [failed]
      rfl
    · intro i token here many
      have none := (call_none_iff table many).mpr (refused token (List.mem_of_getElem? here) many)
      rw [callsAfter_eq table front fits, callsAfter_eq table front fits, List.take_add_one, here,
        List.filterMap_append]
      simp [none]

/-- The command `a`, which takes so many arguments. -/
def oneCommand (maxargs : Int) : CmdTbl Unit := ⟨[0x61], maxargs, cmdAlwaysRepeatable fun _ _ w => (0, w)⟩

/-- `a` with sixteen arguments. -/
def longLine : List UInt8 := (List.replicate 17 (Ctype.ascii ['a', ' '])).flatten

private theorem longLine_tokens : tokens 0 longLine = [longLine] := by
  have whole : separator false true 0 longLine = 34 := by decide
  have none : tokens 0 (longLine.drop 35) = [] := by
    rw [show longLine.drop 35 = [] by decide, tokens, if_pos rfl]
  rw [tokens, if_neg (by decide), whole]
  dsimp only
  rw [none]
  rfl

private theorem longLine_tooMany : TooMany longLine := by
  unfold TooMany
  decide

theorem long_commands_usage :
    (∃ token ∈ tokens 0 longLine, TooMany token) ∧ Refuses [oneCommand 2] (fun _ => 0) longLine 0 () := by
  have long : ∃ token ∈ tokens 0 longLine, TooMany token :=
    ⟨longLine, longLine_tokens ▸ List.mem_singleton_self _, longLine_tooMany⟩
  refine ⟨long, (long_commands_iff [oneCommand 2] (fun _ => 0) longLine 0 () long).mpr (Or.inr ?_)⟩
  intro token member _ cmdtp found
  rw [longLine_tokens, List.mem_singleton] at member
  subst member
  cases found.symm.trans (show _ = some (oneCommand 2) from rfl)
  decide

/-- A command that takes sixteen words is executed with sixteen of seventeen. -/
theorem long_commands_truncated :
    (∃ token ∈ tokens 0 longLine, TooMany token) ∧ ¬ Refuses [oneCommand 16] (fun _ => 0) longLine 0 () := by
  refine ⟨⟨longLine, longLine_tokens ▸ List.mem_singleton_self _, longLine_tooMany⟩, ?_⟩
  rintro ⟨-, uncalled⟩
  have here : (tokens 0 longLine)[0]? = some longLine := by
    rw [longLine_tokens]
    rfl
  have same := uncalled 0 longLine here longLine_tooMany
  rw [callsAfter_eq _ _ (by decide), callsAfter_eq _ _ (by decide), longLine_tokens] at same
  revert same
  decide

end RockOs.ArgumentLimit
