import Mathlib.Logic.Function.Basic
import RockOs.Console
import RockOs.Machine

/-! `common/cli_readline.c`: the command line editor `cread_line` and its history.
Its input is the list of bytes `getc` returns. A store or a copy outside `buf`,
`esc_save` or the history is a fault. `num` never exceeds `eol_num`, so their
differences are written as such. -/
namespace RockOs.CliReadline
open Config Machine

/-- `HIST_MAX`. -/
def histMax : Nat := 20

/-- The history ring; `lines i` is the string at `hist_list[i]`. -/
structure History where
  max : Nat
  addIdx : Nat
  cur : Int
  lines : Nat → List UInt8

def histInit : History := ⟨0, 0, -1, fun _ => []⟩

/-- `cread_add_to_hist`; there is room for `HIST_SIZE` characters and NUL. -/
def creadAddToHist (line : List UInt8) (h : History) : Option History :=
  if h.addIdx < histMax ∧ line.length ≤ sysCbsize then
    let addIdx := if histMax ≤ h.addIdx + 1 then 0 else h.addIdx + 1
    some { h with
      lines := Function.update h.lines h.addIdx line
      addIdx
      max := if h.max < addIdx then addIdx else h.max }
  else none

/-- What `hist_prev` and `hist_next` return: null, the empty string or an entry. -/
inductive Recalled where
  | null
  | empty
  | entry (i : Nat)
  deriving DecidableEq, Repr

def histPrev (h : History) : Recalled × History :=
  if h.cur < 0 then (.null, h)
  else
    let cur := if h.cur - 1 < 0 then (h.max : Int) else h.cur - 1
    if cur = h.addIdx then (.null, h) else (.entry cur.toNat, { h with cur })

def histNext (h : History) : Recalled × History :=
  if h.cur < 0 then (.null, h)
  else if h.cur = h.addIdx then (.null, h)
  else
    let cur := if h.max < h.cur + 1 then 0 else h.cur + 1
    if cur = h.addIdx then (.empty, { h with cur }) else (.entry cur.toNat, { h with cur })

/-- The locals of `cread_line`, the buffer, the history and what has been written
to the console. -/
structure Reader where
  buf : Nat → UInt8
  num : Nat
  eolNum : Nat
  insert : Bool
  escLen : Nat
  escSave : Nat → UInt8
  hist : History
  output : List UInt8

abbrev Cread := Code Reader Empty

/-- `CTL_CH(c)`. -/
def ctlCh (c : Char) : UInt8 := c.toUInt8 - 'a'.toUInt8 + 1

/-- `CTL_BACKSPACE`. -/
def ctlBackspace : UInt8 := 8

def putcs (text : List UInt8) : Cread Unit := do
  let r ← read
  write { r with output := r.output ++ text }

def getcmdPutch (ch : UInt8) : Cread Unit := putcs [ch]

def getcmdCbeep : Cread Unit := getcmdPutch 7

/-- `n` bytes of a buffer from `start`. -/
def bytes (buf : Nat → UInt8) (start n : Nat) : List UInt8 := (List.range n).map fun i => buf (start + i)

/-- The string in `buf`. -/
def cString (buf : Nat → UInt8) : List UInt8 := (bytes buf 0 (sysCbsize + 1)).takeWhile (· ≠ 0)

def printf (fmt : List UInt8) (args : List Vsprintf.Arg) : Cread Unit :=
  match Console.printf fmt args with
  | some text => putcs text
  | none => fault

/-- `putnstr(buf + start, n)`. -/
def putnstr (start n : Nat) : Cread Unit := do
  let r ← read
  printf Console.putnstrFormat [.num n, .str (some (bytes r.buf start (sysCbsize + 1 - start)))]

def storeBuf (i : Nat) (ch : UInt8) : Cread Unit := do
  let r ← read
  if i ≤ sysCbsize then write { r with buf := Function.update r.buf i ch } else fault

/-- `memmove(&buf[dst], &buf[src], n)`. -/
def memmoveBuf (dst src n : Nat) : Cread Unit := do
  let r ← read
  if dst + n ≤ sysCbsize + 1 ∧ src + n ≤ sysCbsize + 1 then
    write { r with buf := fun i => if dst ≤ i ∧ i < dst + n then r.buf (src + (i - dst)) else r.buf i }
  else fault

/-- `strcpy(buf, line)`. -/
def strcpyBuf (line : List UInt8) : Cread Unit := do
  let r ← read
  if line.length ≤ sysCbsize then
    write { r with buf := fun i => if i ≤ line.length then line.getD i 0 else r.buf i }
  else fault

def storeEsc (ch : UInt8) : Cread Unit := do
  let r ← read
  if r.escLen < 8 then write { r with escSave := Function.update r.escSave r.escLen ch, escLen := r.escLen + 1 }
  else fault

def beginningOfLine : Cread Unit := do
  let r ← read
  putcs (List.replicate r.num ctlBackspace)
  let r ← read
  write { r with num := 0 }

def eraseToEol : Cread Unit := do
  let r ← read
  if r.num < r.eolNum then
    printf Console.blanksFormat [.num (r.eolNum - r.num), .str (some [])]
    putcs (List.replicate (r.eolNum - r.num) ctlBackspace)
    let r ← read
    write { r with eolNum := r.num }
  else return

def refreshToEol : Cread Unit := do
  let r ← read
  if r.num < r.eolNum then
    putnstr r.num (r.eolNum - r.num)
    let r ← read
    write { r with num := r.eolNum }
  else return

/-- The part of `cread_add_char` after room has been made: a character at the
cursor, with the rest of the line behind it or in place of what was there. -/
def creadPutChar (ichar : UInt8) (insert : Bool) : Cread Unit := do
  let r ← read
  if insert then
    let wlen := r.eolNum - r.num
    if 1 < wlen then memmoveBuf (r.num + 1) r.num (wlen - 1)
    storeBuf r.num ichar
    putnstr r.num wlen
    let r ← read
    write { r with num := r.num + 1 }
    putcs (List.replicate (wlen - 1) ctlBackspace)
  else
    storeBuf r.num ichar
    putnstr r.num 1
    let r ← read
    write { r with num := r.num + 1 }

def creadAddChar (ichar : UInt8) (insert : Bool) : Cread Unit := do
  let r ← read
  if insert ∨ r.num = r.eolNum then
    if sysCbsize - 1 < r.eolNum then getcmdCbeep
    else
      write { r with eolNum := r.eolNum + 1 }
      creadPutChar ichar insert
  else creadPutChar ichar insert

def creadAddStr : (str : List UInt8) → (insert : Bool) → Cread Unit
  | [], _ => return
  | ch :: str, insert => do
    creadAddChar ch insert
    creadAddStr str insert

/-- What the recogniser of escape sequences does with a byte. -/
inductive EscAct where
  | reject
  | save
  | converted (key : UInt8)
  deriving DecidableEq, Repr

def escAct (escLen : Nat) (escSave : Nat → UInt8) (ichar : UInt8) : EscAct :=
  if escLen = 1 then
    if ichar = '['.toUInt8 ∨ ichar = 'O'.toUInt8 then .save else .reject
  else if escLen = 2 then
    if ichar = 'D'.toUInt8 then .converted (ctlCh 'b')
    else if ichar = 'C'.toUInt8 then .converted (ctlCh 'f')
    else if ichar = 'H'.toUInt8 then .converted (ctlCh 'a')
    else if ichar = 'F'.toUInt8 then .converted (ctlCh 'e')
    else if ichar = 'A'.toUInt8 then .converted (ctlCh 'p')
    else if ichar = 'B'.toUInt8 then .converted (ctlCh 'n')
    else if ichar ∈ Ctype.ascii ['1', '3', '4', '7', '8'] then
      if escSave 1 = '['.toUInt8 then .save else .reject
    else .reject
  else if escLen = 3 then
    if ichar = '~'.toUInt8 then
      if escSave 2 = '3'.toUInt8 then .converted (ctlCh 'd')
      else if escSave 2 = '1'.toUInt8 ∨ escSave 2 = '7'.toUInt8 then .converted (ctlCh 'a')
      else if escSave 2 = '4'.toUInt8 ∨ escSave 2 = '8'.toUInt8 then .converted (ctlCh 'e')
      else .reject
    else .reject
  else .reject

/-- How `cread_line` goes on after a byte. -/
inductive Status where
  | reading
  | entered
  | interrupted
  deriving DecidableEq, Repr

/-- `^D` on a character. -/
def deleteChar : Cread Unit := do
  let r ← read
  let wlen := r.eolNum - r.num - 1
  if wlen ≠ 0 then
    memmoveBuf r.num (r.num + 1) wlen
    putnstr r.num wlen
  putcs (' '.toUInt8 :: List.replicate (wlen + 1) ctlBackspace)
  let r ← read
  write { r with eolNum := r.eolNum - 1 }

/-- The backspace key after a character. -/
def backspaceChar : Cread Unit := do
  let r ← read
  let wlen := r.eolNum - r.num
  write { r with num := r.num - 1 }
  memmoveBuf (r.num - 1) r.num wlen
  getcmdPutch ctlBackspace
  putnstr (r.num - 1) wlen
  putcs (' '.toUInt8 :: List.replicate (wlen + 1) ctlBackspace)
  let r ← read
  write { r with eolNum := r.eolNum - 1 }

/-- The string a recall points to. -/
def recalledLine (h : History) : Recalled → Cread (Option (List UInt8))
  | .null => return none
  | .empty => return some []
  | .entry i => if i < histMax then return some (h.lines i) else fault

/-- `^P` and `^N`: the line gives way to an entry of the history. -/
def recallLine (ichar : UInt8) : Cread Unit := do
  let r ← read
  let (recalled, hist) := if ichar = ctlCh 'p' then histPrev r.hist else histNext r.hist
  write { r with escLen := 0, hist }
  match ← recalledLine hist recalled with
  | none => getcmdCbeep
  | some hline =>
    beginningOfLine
    eraseToEol
    strcpyBuf hline
    let r ← read
    write { r with eolNum := hline.length }
    refreshToEol

/-- What `cmd_auto_complete` does to the buffer and the console. -/
structure Completion where
  handled : Bool
  buf : Nat → UInt8
  num2 : Nat
  output : List UInt8

section
variable (cmdAutoComplete : (buf : Nat → UInt8) → (num : Nat) → Completion)

def tabKey : Cread Unit := do
  let r ← read
  if r.num < r.eolNum then getcmdCbeep
  else
    storeBuf r.num 0
    let r ← read
    let done := cmdAutoComplete r.buf r.num
    write { r with
      buf := done.buf
      output := r.output ++ done.output
      num := if done.handled then done.num2 else r.num
      eolNum := if done.handled then r.eolNum + done.num2 - r.num else r.eolNum }

/-- The `switch` on the byte. -/
def keyAction (ichar : UInt8) : Cread Status := do
  let r ← read
  if ichar = 0x1b then
    -- `esc_len` is zero here: the recogniser takes every byte while it is not
    write { r with escSave := Function.update r.escSave 0 ichar, escLen := 1 }
    return .reading
  else if ichar = ctlCh 'a' then
    beginningOfLine
    return .reading
  else if ichar = ctlCh 'c' then
    storeBuf 0 0
    return .interrupted
  else if ichar = ctlCh 'f' then
    if r.num < r.eolNum then
      getcmdPutch (r.buf r.num)
      let r ← read
      write { r with num := r.num + 1 }
    return .reading
  else if ichar = ctlCh 'b' then
    if r.num ≠ 0 then
      getcmdPutch ctlBackspace
      let r ← read
      write { r with num := r.num - 1 }
    return .reading
  else if ichar = ctlCh 'd' then
    if r.num < r.eolNum then deleteChar
    return .reading
  else if ichar = ctlCh 'k' then
    eraseToEol
    return .reading
  else if ichar = ctlCh 'e' then
    refreshToEol
    return .reading
  else if ichar = ctlCh 'o' then
    write { r with insert := !r.insert }
    return .reading
  else if ichar = ctlCh 'x' ∨ ichar = ctlCh 'u' then
    beginningOfLine
    eraseToEol
    return .reading
  else if ichar = 255 ∨ ichar = 127 ∨ ichar = 8 then
    if r.num ≠ 0 then backspaceChar
    return .reading
  else if ichar = ctlCh 'p' ∨ ichar = ctlCh 'n' then
    recallLine ichar
    return .reading
  else if ichar = '\t'.toUInt8 then
    tabKey cmdAutoComplete
    return .reading
  else
    creadAddChar ichar r.insert
    return .reading

/-- One pass of the loop of `cread_line`. -/
def turn (ichar : UInt8) : Cread Status := do
  let r ← read
  if ichar = 0 then return .reading
  else if ichar = '\n'.toUInt8 ∨ ichar = '\r'.toUInt8 then
    putcs (Ctype.ascii ['\n', '\r'])
    return .entered
  else if r.escLen ≠ 0 then
    match escAct r.escLen r.escSave ichar with
    | .save =>
      storeEsc ichar
      return .reading
    | .reject =>
      storeEsc ichar
      let r ← read
      creadAddStr (bytes r.escSave 0 r.escLen) r.insert
      let r ← read
      write { r with escLen := 0 }
      return .reading
    | .converted key =>
      write { r with escLen := 0 }
      keyAction cmdAutoComplete key
  else keyAction cmdAutoComplete ichar

/-- The loop of `cread_line` on the bytes that have come in. -/
def creadLoop : (input : List UInt8) → Cread Status
  | [] => return .reading
  | ichar :: input => do
    match ← turn cmdAutoComplete ichar with
    | .reading => creadLoop input
    | status => return status

/-- What follows the loop: the line is ended and goes into the history. -/
def creadEnter : Cread Unit := do
  let r ← read
  storeBuf r.eolNum 0
  let r ← read
  let hist :=
    if r.buf 0 ≠ 0 ∧ r.buf 0 ≠ '!'.toUInt8 then creadAddToHist (cString r.buf) r.hist else some r.hist
  match hist with
  | none => fault
  | some hist => write { r with hist := { hist with cur := hist.addIdx } }

/-- What `cread_line` has come to. -/
inductive Result where
  | reading
  | line (len : Nat)
  | interrupted
  deriving DecidableEq, Repr

/-- The exits of `cread_line`. -/
def creadFinish : Status → Cread Result
  | .entered => do
    let r ← read
    creadEnter
    return .line r.eolNum
  | .interrupted => return .interrupted
  | .reading => return .reading

/-- The state in which `cread_line` starts its loop, before the text already in
`buf` is put in. -/
def Reader.fresh (r : Reader) : Reader :=
  { r with num := 0, eolNum := 0, insert := true, escLen := 0 }

/-- `cread_line`: it wants another byte, or returns 0 and the length of the line,
or -1. The text in `buf` is put in where it stands, so what is read of it while it is
stored again does not change. -/
def creadLine (input : List UInt8) : Cread Result := do
  let r ← read
  write r.fresh
  creadAddStr (cString r.buf) true
  let status ← creadLoop cmdAutoComplete input
  creadFinish status

/-- `cli_readline` on an initialised history. -/
def cliReadline (prompt input : List UInt8) : Cread Result := do
  storeBuf 0 0
  putcs prompt
  creadLine cmdAutoComplete input

end

end RockOs.CliReadline
