import RockOs.Config
import RockOs.Ctype

/-! `common/cli_simple.c` and the part of `common/command.c` it runs commands with.
Strings are lists of bytes without the final NUL. A command is any function of the
flags, its arguments and the state `W` of the machine; it returns its result and what
it leaves in `*repeatable`. -/
namespace RockOs.CliSimple
open Config Ctype

/-! ## Command table -/

structure CmdTbl (W : Type) where
  name : List UInt8
  maxargs : Int
  cmdRep : (flag : Nat) → (argv : List (List UInt8)) → W → Int × BitVec 32 × W

def cmdAlwaysRepeatable (cmd : Nat → List (List UInt8) → W → Int × W) (flag : Nat) (argv : List (List UInt8)) (w : W) :
    Int × BitVec 32 × W :=
  let (result, w) := cmd flag argv w
  (result, 1, w)

def cmdNeverRepeatable (cmd : Nat → List (List UInt8) → W → Int × W) (flag : Nat) (argv : List (List UInt8)) (w : W) :
    Int × BitVec 32 × W :=
  let (result, w) := cmd flag argv w
  (result, 0, w)

/-- The loop of `find_cmd_tbl`: the first entry with this name, otherwise the last one
it abbreviates and how many those are. -/
def findLoop (name : List UInt8) : (table : List (CmdTbl W)) → (temp : Option (CmdTbl W)) → (found : Nat) →
    Option (CmdTbl W)
  | [], temp, found => if found = 1 then temp else none
  | cmdtp :: table, temp, found =>
    if name.isPrefixOf cmdtp.name then
      if name.length = cmdtp.name.length then some cmdtp else findLoop name table (some cmdtp) (found + 1)
    else findLoop name table temp found

/-- `find_cmd`: the name is compared up to the first dot. -/
def findCmd (table : List (CmdTbl W)) (cmd : List UInt8) : Option (CmdTbl W) :=
  findLoop (cmd.takeWhile (· ≠ '.'.toUInt8)) table none 0

/-- `CMD_RET_USAGE`; `cmd_usage` returns it too. -/
def cmdRetUsage : Int := 1

/-- `cmd_process`: the result and `*repeatable`. -/
def cmdProcess (table : List (CmdTbl W)) (flag : Nat) (argv : List (List UInt8)) (repeatable : BitVec 32) (w : W) :
    Int × BitVec 32 × W :=
  match findCmd table (argv.headD []) with
  | none => (1, repeatable, w)
  | some cmdtp =>
    if cmdtp.maxargs < argv.length then (cmdRetUsage, repeatable, w)
    else
      let (rc, newrep, w) := cmdtp.cmdRep flag argv w
      (rc, repeatable &&& newrep, w)

/-! ## Arguments and macros -/

/-- The single quote. -/
def quote : UInt8 := 0x27

def backslash : UInt8 := 0x5c

/-- `CONFIG_SYS_MAXARGS`. -/
def sysMaxargs : Nat := 16

def isBlank (c : UInt8) : Bool := c = ' '.toUInt8 || c = '\t'.toUInt8

/-- The loop of `cli_simple_parse_line` with room for so many arguments. -/
def parseArgs : (room : Nat) → (line : List UInt8) → List (List UInt8)
  | 0, _ => []
  | room + 1, line =>
    match line.dropWhile isBlank with
    | [] => []
    | c :: line =>
      match (c :: line).dropWhile (!isBlank ·) with
      | [] => [c :: line]
      | _ :: rest => (c :: line).takeWhile (!isBlank ·) :: parseArgs room rest

def cliSimpleParseLine (line : List UInt8) : List (List UInt8) := parseArgs sysMaxargs line

/-- `state` of `cli_simple_process_macros`: waiting for `$`, for an opening bracket,
for a closing one, and for a quote. -/
inductive MacroState where
  | plain
  | dollar
  | name
  | quoted
  deriving DecidableEq, Repr

/-- The locals of `cli_simple_process_macros`. -/
structure Macro where
  state : MacroState
  prev : UInt8
  outputcnt : Nat
  output : List UInt8

namespace Macro

def emit (m : Macro) (c : UInt8) : Macro :=
  { m with output := m.output ++ [c], outputcnt := m.outputcnt - 1 }

/-- The `switch` on the state. -/
def switch (m : Macro) (c : UInt8) : Macro :=
  match m.state with
  | .plain =>
    if c = quote ∧ m.prev ≠ backslash then { m with state := .quoted }
    else if c = '$'.toUInt8 ∧ m.prev ≠ backslash then { m with state := .dollar }
    else m.emit c
  | .dollar =>
    if c = '('.toUInt8 ∨ c = '\x7b'.toUInt8 then { m with state := .name }
    else
      let m := { m with state := .plain }.emit '$'.toUInt8
      if m.outputcnt ≠ 0 then m.emit c else m
  | .name =>
    -- the value of the variable is always null
    if c = ')'.toUInt8 ∨ c = '\x7d'.toUInt8 then { m with state := .plain } else m
  | .quoted =>
    if c = quote ∧ m.prev ≠ backslash then { m with state := .plain } else m.emit c

/-- The loop of `cli_simple_process_macros`. -/
def loop : (m : Macro) → (input : List UInt8) → Macro
  | m, [] => m
  | m, c :: input =>
    if m.outputcnt = 0 then m
    else if m.state ≠ .quoted ∧ c = backslash ∧ m.prev ≠ backslash then
      match input with
      | [] => m
      | c' :: input => loop { switch { m with prev := c } c' with prev := c' } input
    else loop { switch m c with prev := c } input

def start : Macro := ⟨.plain, 0, sysCbsize, []⟩

end Macro

def cliSimpleProcessMacros (input : List UInt8) : List UInt8 :=
  let m := Macro.loop .start input
  if m.outputcnt ≠ 0 then m.output else m.output.dropLast

/-! ## Commands of a line -/

/-- The separator loop of `cli_simple_run_command`: how far `sep` gets. `prev` is the
byte in front, of which nothing is known at the start of `cmdbuf`. -/
def separator (inquotes : Bool) (first : Bool) (prev : UInt8) : (str : List UInt8) → Nat
  | [] => 0
  | c :: str =>
    let inquotes := if c = quote ∧ prev ≠ backslash then !inquotes else inquotes
    if !inquotes ∧ c = ';'.toUInt8 ∧ !first ∧ prev ≠ backslash then 0
    else separator inquotes false c str + 1

/-- The tokens `cmdbuf` is cut into. A separator becomes NUL, which the next token then
finds in front of it. -/
def tokens (prev : UInt8) (str : List UInt8) : List (List UInt8) :=
  if str = [] then []
  else
    let sep := separator false true prev str
    str.take sep :: tokens 0 (str.drop (sep + 1))
termination_by str.length
decreasing_by
  rename_i nonempty
  have := List.length_pos_iff.mpr nonempty
  rw [List.length_drop]
  omega

/-- The loop of `cli_simple_run_command` over the tokens, with `rc` and `repeatable`. -/
def runTokens (table : List (CmdTbl W)) (flag : Nat) : (toks : List (List UInt8)) → (rc : Int) →
    (repeatable : BitVec 32) → W → Int × BitVec 32 × W
  | [], rc, repeatable, w => (rc, repeatable, w)
  | token :: toks, rc, repeatable, w =>
    let argv := cliSimpleParseLine (cliSimpleProcessMacros token)
    if argv = [] then runTokens table flag toks (-1) repeatable w
    else
      let (result, repeatable, w) := cmdProcess table flag argv repeatable w
      runTokens table flag toks (if result ≠ 0 then -1 else rc) repeatable w

/-- `cli_simple_run_command`; `front` is the byte in front of `cmdbuf`. -/
def cliSimpleRunCommand (table : List (CmdTbl W)) (front : W → UInt8) (cmd : List UInt8) (flag : Nat) (w : W) :
    Int × W :=
  if cmd = [] then (-1, w)
  else if sysCbsize ≤ cmd.length then (-1, w)
  else
    let (rc, repeatable, w') := runTokens table flag (tokens (front w) cmd) 0 1 w
    (if rc ≠ 0 then rc else repeatable.toInt, w')

/-! ## The command loop -/

/-- `CMD_FLAG_REPEAT`. -/
def cmdFlagRepeat : Nat := 1

/-- What `cli_readline` comes back with: a line of some length, perhaps 0, or `^C`. -/
inductive Input where
  | line (text : List UInt8)
  | interrupt

/-- The locals of `cli_simple_loop`. -/
structure Loop (W : Type) where
  lastcommand : List UInt8
  rc : Int
  world : W

def Loop.start (w : W) : Loop W := ⟨[], 1, w⟩

/-- One pass of `cli_simple_loop`. -/
def cliSimpleLoop (table : List (CmdTbl W)) (front : W → UInt8) (s : Loop W) (input : Input) : Loop W :=
  let s :=
    match input with
    | .interrupt => s
    | .line text =>
      let lastcommand := if text ≠ [] then text.take sysCbsize else s.lastcommand
      let flag := if text = [] then cmdFlagRepeat else 0
      let (rc, world) := cliSimpleRunCommand table front lastcommand flag s.world
      ⟨lastcommand, rc, world⟩
  if s.rc ≤ 0 then { s with lastcommand := [] } else s

end RockOs.CliSimple
