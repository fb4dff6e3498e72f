import RockOs.CliReadline

/-! The line editor as it is meant: a list of characters with a cursor, and what
each key writes to the console. The keys are control characters or the escape
sequences of a table; a sequence the table does not have is typed in. -/
namespace RockOs.LineEditor
open CliReadline Config

/-- Enter puts a line into the history, unless it is empty or starts with `!`, and
the next prompt recalls from the newest entry. -/
def storeLine (h : History) (line : List UInt8) : History :=
  let h := if line = [] ∨ line.head? = some '!'.toUInt8 then h else (creadAddToHist line h).getD h
  { h with cur := h.addIdx }

/-- The text, the cursor in it, insert mode, and the bytes of an escape sequence
that has begun. -/
structure Editor where
  text : List UInt8
  cursor : Nat
  insert : Bool
  pending : List UInt8
  hist : History

inductive Key where
  | escape
  | home
  | interrupt
  | forward
  | back
  | delete
  | kill
  | last
  | toggle
  | killLine
  | backspace
  | prev
  | next
  | tab
  | char (ch : UInt8)
  deriving DecidableEq, Repr

def keyOf (ch : UInt8) : Key :=
  if ch = 0x1b then .escape
  else if ch = ctlCh 'a' then .home
  else if ch = ctlCh 'c' then .interrupt
  else if ch = ctlCh 'f' then .forward
  else if ch = ctlCh 'b' then .back
  else if ch = ctlCh 'd' then .delete
  else if ch = ctlCh 'k' then .kill
  else if ch = ctlCh 'e' then .last
  else if ch = ctlCh 'o' then .toggle
  else if ch = ctlCh 'x' ∨ ch = ctlCh 'u' then .killLine
  else if ch = 255 ∨ ch = 127 ∨ ch = 8 then .backspace
  else if ch = ctlCh 'p' then .prev
  else if ch = ctlCh 'n' then .next
  else if ch = '\t'.toUInt8 then .tab
  else .char ch

/-- The escape sequences of the keyboard and the control keys they stand for. -/
def escapeSequences : List (List UInt8 × UInt8) :=
  let arrows := [('D', 'b'), ('C', 'f'), ('H', 'a'), ('F', 'e'), ('A', 'p'), ('B', 'n')]
  let numbered := [('3', 'd'), ('1', 'a'), ('7', 'a'), ('4', 'e'), ('8', 'e')]
  arrows.map (fun (final, key) => ([0x1b, '['.toUInt8, final.toUInt8], ctlCh key)) ++
    arrows.map (fun (final, key) => ([0x1b, 'O'.toUInt8, final.toUInt8], ctlCh key)) ++
      numbered.map fun (digit, key) => ([0x1b, '['.toUInt8, digit.toUInt8, '~'.toUInt8], ctlCh key)

/-- A sequence that is complete is its key, one that can still be completed is
kept, any other is typed in. -/
def decode (sequence : List UInt8) : EscAct :=
  match escapeSequences.lookup sequence with
  | some key => .converted key
  | none => if escapeSequences.any fun entry => sequence.isPrefixOf entry.1 then .save else .reject

namespace Editor

/-- A character typed at the cursor, in insert mode or at the end of the text
pushing the rest back, otherwise in place of another. A full line takes no more. -/
def addChar (ed : Editor) (ch : UInt8) : Editor :=
  if ed.insert ∨ ed.cursor = ed.text.length then
    if ed.text.length < sysCbsize then
      { ed with text := ed.text.take ed.cursor ++ ch :: ed.text.drop ed.cursor, cursor := ed.cursor + 1 }
    else ed
  else { ed with text := ed.text.set ed.cursor ch, cursor := ed.cursor + 1 }

/-- The line a recall names, if any. -/
def recalled (hist : History) : Recalled → Option (List UInt8)
  | .null => none
  | .empty => some []
  | .entry i => some (hist.lines i)

/-- The line gives way to the one recalled. -/
def replace (ed : Editor) (found : Recalled × History) : Editor :=
  match recalled found.2 found.1 with
  | none => { ed with hist := found.2 }
  | some line => { ed with text := line, cursor := line.length, hist := found.2 }

def key (ed : Editor) : Key → Editor
  | .escape => { ed with pending := [0x1b] }
  | .home => { ed with cursor := 0 }
  | .interrupt => ed
  | .forward => { ed with cursor := min (ed.cursor + 1) ed.text.length }
  | .back => { ed with cursor := ed.cursor - 1 }
  | .delete => { ed with text := ed.text.eraseIdx ed.cursor }
  | .kill => { ed with text := ed.text.take ed.cursor }
  | .last => { ed with cursor := ed.text.length }
  | .toggle => { ed with insert := !ed.insert }
  | .killLine => { ed with text := [], cursor := 0 }
  | .backspace =>
    if ed.cursor = 0 then ed
    else { ed with text := ed.text.eraseIdx (ed.cursor - 1), cursor := ed.cursor - 1 }
  | .prev => ed.replace (histPrev ed.hist)
  | .next => ed.replace (histNext ed.hist)
  | .tab => ed
  | .char ch => ed.addChar ch

/-- Characters typed one after the other. -/
def addStr (ed : Editor) (str : List UInt8) : Editor := str.foldl addChar ed

/-- One byte of input that does not end the line. -/
def step (ed : Editor) (ch : UInt8) : Editor :=
  if ch = 0 then ed
  else if ed.pending = [] then ed.key (keyOf ch)
  else
    match decode (ed.pending ++ [ch]) with
    | .save => { ed with pending := ed.pending ++ [ch] }
    | .reject => addStr { ed with pending := [] } (ed.pending ++ [ch])
    | .converted control => { ed with pending := [] }.key (keyOf control)

/-- Whether a byte ends the line. -/
def status (ed : Editor) (ch : UInt8) : Status :=
  if ch = '\n'.toUInt8 ∨ ch = '\r'.toUInt8 then .entered
  else if ed.pending = [] ∧ ch = ctlCh 'c' then .interrupted
  else .reading

/-- The input up to the byte that ends the line. -/
def run (ed : Editor) : (input : List UInt8) → Status × Editor
  | [] => (.reading, ed)
  | ch :: input => if ed.status ch = .reading then (ed.step ch).run input else (ed.status ch, ed)

/-- The history a line that stands there leaves to the next prompt. -/
def histAfter (done : Status × Editor) : History :=
  if done.1 = .entered then storeLine done.2.hist done.2.text else done.2.hist

/-- An editor at the start of a line. -/
def start (text : List UInt8) (hist : History) : Editor := ⟨text, text.length, true, [], hist⟩

/-- What `printf` lets through of a text. -/
def cut (text : List UInt8) : List UInt8 := text.take (sysPbsize - 1)

def backs (n : Nat) : List UInt8 := List.replicate n ctlBackspace

/-- Blanks over `n` characters, as far as `printf` goes, and back over all of them. -/
def erase (n : Nat) : List UInt8 := cut (List.replicate n ' '.toUInt8) ++ backs n

def addCharEcho (ed : Editor) (ch : UInt8) : List UInt8 :=
  if ed.insert ∨ ed.cursor = ed.text.length then
    if ed.text.length < sysCbsize then
      cut (ch :: ed.text.drop ed.cursor) ++ backs (ed.text.length - ed.cursor)
    else [7]
  else [ch]

def replaceEcho (ed : Editor) (found : Recalled × History) : List UInt8 :=
  match recalled found.2 found.1 with
  | none => [7]
  | some line => backs ed.cursor ++ erase ed.text.length ++ cut line

/-- What a key writes to the console. -/
def keyEcho (ed : Editor) : Key → List UInt8
  | .escape | .interrupt | .toggle | .tab => []
  | .home => backs ed.cursor
  | .forward => (ed.text.drop ed.cursor).take 1
  | .back => backs (min ed.cursor 1)
  | .delete =>
    if ed.cursor < ed.text.length then
      cut (ed.text.drop (ed.cursor + 1)) ++ ' '.toUInt8 :: backs (ed.text.length - ed.cursor)
    else []
  | .kill => erase (ed.text.length - ed.cursor)
  | .last => cut (ed.text.drop ed.cursor)
  | .killLine => backs ed.cursor ++ erase ed.text.length
  | .backspace =>
    if ed.cursor = 0 then []
    else ctlBackspace :: cut (ed.text.drop ed.cursor) ++ ' '.toUInt8 :: backs (ed.text.length - ed.cursor + 1)
  | .prev => ed.replaceEcho (histPrev ed.hist)
  | .next => ed.replaceEcho (histNext ed.hist)
  | .char ch => ed.addCharEcho ch

def addStrEcho (ed : Editor) : (str : List UInt8) → List UInt8
  | [] => []
  | ch :: str => ed.addCharEcho ch ++ (ed.addChar ch).addStrEcho str

/-- What a byte that does not end the line writes to the console. -/
def echo (ed : Editor) (ch : UInt8) : List UInt8 :=
  if ch = 0 then []
  else if ed.pending = [] then ed.keyEcho (keyOf ch)
  else
    match decode (ed.pending ++ [ch]) with
    | .save => []
    | .reject => addStrEcho { ed with pending := [] } (ed.pending ++ [ch])
    | .converted control => { ed with pending := [] }.keyEcho (keyOf control)

/-- What the bytes of a line that goes on write to the console. -/
def runEcho (ed : Editor) : (input : List UInt8) → List UInt8
  | [] => []
  | ch :: input => ed.echo ch ++ (ed.step ch).runEcho input

end Editor

end RockOs.LineEditor
