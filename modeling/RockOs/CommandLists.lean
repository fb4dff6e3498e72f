import Mathlib.Algebra.Group.Int.Defs
import Mathlib.Algebra.Group.Nat.Defs
import RockOs.CliSimple
import RockOs.TextBuffers

/-! Lists of commands, one on each line: `run_command_list` of `common/cli.c` copies
the text into a buffer on its stack if it has to be cut, and
`cli_simple_run_command_list` of `common/cli_simple.c` cuts it at the newlines and runs
the lines. -/
namespace RockOs.CommandLists
open CliSimple TextBuffers

variable {W : Type} (table : List (CmdTbl W)) (front : W → UInt8)

/-! ## The code -/

def newline : UInt8 := '\n'.toUInt8

/-- The string at an index of a buffer. -/
def string (buff : List UInt8) (line : Nat) : Option (List UInt8) := do
  let stop ← scan (fun c => decide (c ≠ 0)) buff line
  return (buff.drop line).take (stop - line)

/-- What a list of commands returns and leaves. `ran` is what was executed, with what
`cli_simple_run_command` returned. -/
structure Listed (W : Type) where
  rcode : Int
  world : W
  ran : List (List UInt8 × Int)

/-- Run the line at an index; the result is the comparison with zero. -/
def runLine (buff : List UInt8) (line : Nat) (s : Listed W) : Option (Listed W) := do
  let text ← string buff line
  let (rc, w) := cliSimpleRunCommand table front text 0 s.world
  return ⟨if rc < 0 then 1 else 0, w, s.ran ++ [(text, rc)]⟩

/-- The loop over the characters, with `buff` and `line` after it. Each turn moves
`next` on, so the length of the buffer bounds the turns. -/
def listLoop : (turns : Nat) → (buff : List UInt8) → (line next : Nat) → Listed W →
    Option (List UInt8 × Nat × Listed W)
  | 0, _, _, _, _ => none
  | turns + 1, buff, line, next, s => do
    let c ← buff[next]?
    if c = 0 then return (buff, line, s)
    else if c = newline then
      let buff ← put buff next 0
      let first ← buff[line]?
      -- run only non-empty commands
      if first ≠ 0 then
        let s ← runLine table front buff line s
        if s.rcode ≠ 0 then return (buff, line, s) else listLoop turns buff (next + 1) (next + 1) s
      else listLoop turns buff (next + 1) (next + 1) s
    else listLoop turns buff line (next + 1) s

/-- `flag` is passed on to no command. -/
def cliSimpleRunCommandList (buff : List UInt8) (_flag : Nat) (w : W) : Option (Listed W) := do
  let (buff, line, s) ← listLoop table front (buff.length + 1) buff 0 0 ⟨0, w, []⟩
  let first ← buff[line]?
  if s.rcode = 0 ∧ first ≠ 0 then runLine table front buff line s else return s

/-- The size of `temp_buf`. -/
def tempSize : Nat := 1024

/-- `memcpy` into `temp_buf`, and the NUL behind the copy. -/
def fill (cmd : Nat → UInt8) (len : Int) : Option (List UInt8) := do
  let count := (len % 2 ^ 64).toNat
  let buff ←
    if count ≤ tempSize then some ((List.range count).map cmd ++ List.replicate (tempSize - count) 0) else none
  put buff len.toNat 0

/-- The bytes at `cmd`: a string, its NUL and whatever is `beyond` it. -/
def cmdByte (text : List UInt8) (beyond : Nat → UInt8) (i : Nat) : UInt8 := (text ++ [0]).getD i (beyond i)

/-- No result stands for a store outside the buffer. -/
def runCommandList (text : List UInt8) (beyond : Nat → UInt8) (len : Int) (flag : Nat) (w : W) : Option (Listed W) := do
  let (len, needBuff) :=
    if len = -1 then ((text.length : Int).bmod (2 ^ 32), text.contains newline) else (len, true)
  let buff ← if needBuff then fill (cmdByte text beyond) len else some (text ++ [0])
  cliSimpleRunCommandList table front buff flag w

/-! ## What it should do -/

/-- The lines that are not empty. -/
def lines (text : List UInt8) : List (List UInt8) := words (fun c => decide (c = newline)) text

/-- The part of the text that is run. -/
def firstBytes (text : List UInt8) (len : Int) : List UInt8 := if len = -1 then text else text.take len.toNat

/-- Lines executed one after the other, with what each returned. -/
inductive Runs : W → List (List UInt8 × Int) → W → Prop
  | nil : Runs w [] w
  | cons (executed : cliSimpleRunCommand table front line 0 w = (rc, w')) (rest : Runs w' ran w'') :
      Runs w ((line, rc) :: ran) w''

/-- The lines are run in order up to and with the first that fails, and the result
tells whether one has failed. -/
structure Right (lines : List (List UInt8)) (w : W) (listed : Listed W) : Prop where
  runs : Runs table front w listed.ran listed.world
  ordered : listed.ran.map Prod.fst <+: lines
  stops : ∀ entry ∈ listed.ran.dropLast, 0 ≤ entry.2
  whole : (∀ entry ∈ listed.ran, 0 ≤ entry.2) → listed.ran.map Prod.fst = lines
  failed : listed.rcode ≠ 0 ↔ ∃ entry ∈ listed.ran, entry.2 < 0

/-- The same as a function of the lines. -/
def runLines : (lines : List (List UInt8)) → W → Listed W
  | [], w => ⟨0, w, []⟩
  | line :: lines, w =>
    let (rc, w) := cliSimpleRunCommand table front line 0 w
    if rc < 0 then ⟨1, w, [(line, rc)]⟩
    else ⟨(runLines lines w).rcode, (runLines lines w).world, (line, rc) :: (runLines lines w).ran⟩

private theorem Right.failing (executed : cliSimpleRunCommand table front line 0 w = (rc, w')) (fails : rc < 0) :
    Right table front (line :: others) w ⟨1, w', [(line, rc)]⟩ where
  runs := .cons executed .nil
  ordered := ⟨others, rfl⟩
  stops := by simp
  whole := fun all => absurd fails (Int.not_lt.mpr (all _ List.mem_cons_self))
  failed := by simp [fails]

private theorem Right.succeeding (executed : cliSimpleRunCommand table front line 0 w = (rc, w')) (succeeds : ¬ rc < 0)
    (right : Right table front others w' listed) :
    Right table front (line :: others) w ⟨listed.rcode, listed.world, (line, rc) :: listed.ran⟩ where
  runs := .cons executed right.runs
  ordered := by
    rw [List.map_cons]
    exact List.cons_prefix_cons.mpr ⟨rfl, right.ordered⟩
  stops := by
    intro entry member
    cases ran : listed.ran with
    | nil => simp [ran] at member
    | cons next rest =>
      rw [ran, List.dropLast_cons_of_ne_nil (List.cons_ne_nil _ _), ← ran] at member
      cases member with
      | head => exact Int.not_lt.mp succeeds
      | tail _ member => exact right.stops entry member
  whole := by
    intro all
    rw [List.map_cons, right.whole fun entry member => all entry (List.mem_cons_of_mem _ member)]
  failed := right.failed.trans (by simp [succeeds])

private theorem runLines_right (lines : List (List UInt8)) (w : W) :
    Right table front lines w (runLines table front lines w) := by
  induction lines generalizing w with
  | nil => exact ⟨.nil, List.prefix_rfl, by simp [runLines], fun _ => rfl, by simp [runLines]⟩
  | cons line lines ih =>
    rw [runLines]
    dsimp only
    split
    · next fails => exact .failing table front rfl fails
    · next succeeds => exact .succeeding table front rfl succeeds (ih _)

/-! ## The loop -/

/-- Both ends of the loop. -/
def finish (p : List UInt8 × Nat × Listed W) : Option (Listed W) := do
  let first ← p.1[p.2.1]?
  if p.2.2.rcode = 0 ∧ first ≠ 0 then runLine table front p.1 p.2.1 p.2.2 else return p.2.2

private theorem cliSimpleRunCommandList_eq (buff : List UInt8) (flag : Nat) (w : W) :
    cliSimpleRunCommandList table front buff flag w =
      (listLoop table front (buff.length + 1) buff 0 0 ⟨0, w, []⟩).bind (finish table front) := rfl

/-- What was run before, and then more. -/
def Listed.after (s more : Listed W) : Listed W := ⟨more.rcode, more.world, s.ran ++ more.ran⟩

private theorem runLine_eq (clean : 0 ∉ line) (done rest : List UInt8) (s : Listed W) :
    runLine table front (done ++ line ++ 0 :: rest) done.length s =
      some (s.after ⟨if (cliSimpleRunCommand table front line 0 s.world).1 < 0 then 1 else 0,
        (cliSimpleRunCommand table front line 0 s.world).2,
        [(line, (cliSimpleRunCommand table front line 0 s.world).1)]⟩) := by
  have found : string (done ++ line ++ 0 :: rest) done.length = some line := by
    unfold string
    rw [scan_string clean]
    simp
  unfold runLine
  rw [found]
  rfl

private theorem not_newline {line : List UInt8} (single : newline ∉ line) : ∀ c ∈ line, decide (c = newline) = false :=
  fun _ member => decide_eq_false fun same => single (same ▸ member)

private theorem lines_nil : lines [] = [] := words_nil _

private theorem lines_single (single : newline ∉ line) (nonempty : line ≠ []) : lines line = [line] :=
  words_single (not_newline single) nonempty

private theorem lines_first (single : newline ∉ line) (nonempty : line ≠ []) (text : List UInt8) :
    lines (line ++ newline :: text) = line :: lines text :=
  words_word (not_newline single) nonempty rfl text

private theorem lines_empty (text : List UInt8) : lines (newline :: text) = lines text :=
  words_blank (by rfl) text

theorem after_cons (s more : Listed W) (line : List UInt8) (rc : Int) (w : W) :
    (s.after ⟨0, w, [(line, rc)]⟩).after more = s.after ⟨more.rcode, more.world, (line, rc) :: more.ran⟩ := by
  simp [Listed.after]

/-- The last line has no newline. -/
theorem finish_last (clean : 0 ∉ line) (single : newline ∉ line) (done rest : List UInt8) (s : Listed W)
    (started : s.rcode = 0) :
    finish table front (done ++ line ++ 0 :: rest, done.length, s) =
      some (s.after (runLines table front (lines line) s.world)) := by
  unfold finish
  cases line with
  | nil =>
    obtain ⟨rcode, w, ran⟩ := s
    cases started
    simp [lines_nil, runLines, Listed.after]
  | cons c line =>
    have char : c ≠ 0 := fun zero => clean (zero ▸ List.mem_cons_self)
    have first : (done ++ (c :: line) ++ 0 :: rest)[done.length]? = some c := by simp
    simp only [first, Option.bind_eq_bind, Option.bind_some, if_pos (And.intro started char),
      runLine_eq table front clean, lines_single single (List.cons_ne_nil c line), runLines]
    split <;> rfl

/-- The loop has run the lines in `done`, which it has cut, stands behind `line` and has
`text` in front of it. -/
theorem listLoop_eq {text : List UInt8} (line : List UInt8) (clean : 0 ∉ line) (single : newline ∉ line)
    (clean' : 0 ∉ text) (enough : text.length < turns) (done rest : List UInt8) (s : Listed W) (started : s.rcode = 0) :
    (listLoop table front turns (done ++ line ++ (text ++ 0 :: rest)) done.length (done ++ line).length s).bind
        (finish table front) =
      some (s.after (runLines table front (lines (line ++ text)) s.world)) := by
  induction text generalizing turns done line s with
  | nil =>
    cases turns with
    | zero => omega
    | succ turns =>
      rw [List.nil_append, List.append_nil, listLoop, get_here]
      simp only [Option.bind_eq_bind, Option.bind_some, if_true]
      exact finish_last table front clean single done rest s started
  | cons c text ih =>
    cases turns with
    | zero => omega
    | succ turns =>
      have char : c ≠ 0 := fun zero => clean' (zero ▸ List.mem_cons_self)
      have behind : 0 ∉ text := fun zero => clean' (List.mem_cons_of_mem c zero)
      have fewer : text.length < turns := Nat.lt_of_succ_lt_succ enough
      rw [List.cons_append, listLoop, get_here]
      simp only [Option.bind_eq_bind, Option.bind_some, if_neg char]
      by_cases cut : c = newline
      · subst cut
        rw [if_pos rfl, put_here]
        simp only [Option.bind_some]
        cases line with
        | nil =>
          have next := ih [] List.not_mem_nil List.not_mem_nil behind fewer (done ++ [0]) s started
          rw [List.nil_append, lines_empty]
          simpa using next
        | cons d line =>
          have char' : d ≠ 0 := fun zero => clean (zero ▸ List.mem_cons_self)
          have first : (done ++ (d :: line) ++ 0 :: (text ++ 0 :: rest))[done.length]? = some d := by simp
          rw [lines_first single (List.cons_ne_nil d line), runLines, first, runLine_eq table front clean]
          simp only [Option.bind_some, if_pos char']
          by_cases fails : (cliSimpleRunCommand table front (d :: line) 0 s.world).1 < 0
          · simp only [if_pos fails]
            simp [Listed.after, finish]
          · have next := ih [] List.not_mem_nil List.not_mem_nil behind fewer (done ++ (d :: line) ++ [0])
              (s.after ⟨0, (cliSimpleRunCommand table front (d :: line) 0 s.world).2,
                [(d :: line, (cliSimpleRunCommand table front (d :: line) 0 s.world).1)]⟩) rfl
            rw [after_cons] at next
            simp only [if_neg fails]
            simpa [Listed.after, Nat.add_assoc] using next
      · have longer := ih (line ++ [c]) (by simp [clean, Ne.symm char]) (by simp [single, Ne.symm cut]) behind
          fewer done s started
        rw [if_neg cut]
        simpa [Nat.add_assoc] using longer

/-- The string in a buffer is run line by line. -/
theorem cliSimpleRunCommandList_lines (clean : 0 ∉ text) (rest : List UInt8) (flag : Nat) (w : W) :
    cliSimpleRunCommandList table front (text ++ 0 :: rest) flag w = some (runLines table front (lines text) w) := by
  rw [cliSimpleRunCommandList_eq]
  exact listLoop_eq table front [] List.not_mem_nil List.not_mem_nil clean
    (by rw [List.length_append]; omega) [] rest ⟨0, w, []⟩ rfl

/-! ## The copy -/

private theorem split_at {buf : List UInt8} (before : ∀ i < text.length, buf[i]? = text[i]?)
    (here : buf[text.length]? = some c) :
    ∃ rest, buf = text ++ c :: rest := by
  obtain ⟨inside, char⟩ := List.getElem?_eq_some_iff.mp here
  have front : buf.take text.length = text := by
    apply List.ext_getElem?
    intro i
    by_cases low : i < text.length
    · rw [List.getElem?_take_of_lt low, before i low]
    · rw [List.getElem?_eq_none (by simp; omega), List.getElem?_eq_none (by omega)]
  refine ⟨buf.drop (text.length + 1), ?_⟩
  calc buf = buf.take text.length ++ buf.drop text.length := (List.take_append_drop _ _).symm
    _ = text ++ c :: buf.drop (text.length + 1) := by rw [front, List.drop_eq_getElem_cons inside, char]

private theorem cmdByte_inside (beyond : Nat → UInt8) (inside : i < text.length) :
    some (cmdByte text beyond i) = text[i]? := by
  simp [cmdByte, List.getElem?_append_left inside, inside]

private theorem cmdByte_end (text : List UInt8) (beyond : Nat → UInt8) : cmdByte text beyond text.length = 0 := by
  simp [cmdByte]

/-- Where the copy and its NUL fit, the buffer holds the first bytes of the string. -/
theorem fill_eq (text : List UInt8) (beyond : Nat → UInt8) (count : Nat) (fits : count < tempSize) :
    ∃ rest, fill (cmdByte text beyond) count = some (text.take count ++ 0 :: rest) := by
  have size : tempSize = 1024 := rfl
  have word : ((count : Int) % 2 ^ 64).toNat = count := by omega
  have inside : count <
      ((List.range count).map (cmdByte text beyond) ++ List.replicate (tempSize - count) 0).length := by
    simp
    omega
  have copied : ∀ i < count, (((List.range count).map (cmdByte text beyond) ++
      List.replicate (tempSize - count) 0).set count 0)[i]? = some (cmdByte text beyond i) := by
    intro i low
    rw [List.getElem?_set_ne (by omega), List.getElem?_append_left (by simpa using low)]
    simp [low]
  unfold fill
  simp only [word, if_pos (Nat.le_of_lt fits), Option.bind_eq_bind, Option.bind_some, Int.toNat_natCast, put_eq inside,
    Option.some.injEq]
  apply split_at
  · intro i low
    rw [List.length_take] at low
    rw [copied i (by omega), cmdByte_inside beyond (by omega), List.getElem?_take_of_lt (by omega)]
  · rw [List.length_take]
    by_cases long : count ≤ text.length
    · rw [Nat.min_eq_left long, List.getElem?_set_self inside]
    · rw [Nat.min_eq_right (by omega), copied _ (by omega), cmdByte_end]

private theorem fill_outside {len : Int} (cmd : Nat → UInt8) (low : -2 ^ 31 ≤ len) (high : len < 2 ^ 31)
    (outside : len < 0 ∨ tempSize ≤ len) : fill cmd len = none := by
  have size : tempSize = 1024 := rfl
  unfold fill
  dsimp only
  by_cases copies : (len % 2 ^ 64).toNat ≤ tempSize
  · have full : len.toNat = tempSize := by omega
    have whole : (len % 2 ^ 64).toNat = tempSize := by omega
    rw [if_pos copies, full, whole]
    simp [put]
  · rw [if_neg copies]
    rfl

/-! ## The call -/

/-- The texts and lengths that are run in full: nothing is copied, or the copy fits with
its NUL. -/
def Fits (text : List UInt8) (len : Int) : Prop :=
  (len = -1 ∧ newline ∉ text) ∨ (len = -1 ∧ text.length < tempSize) ∨ (0 ≤ len ∧ len < tempSize)

private theorem runCommandList_eq (clean : 0 ∉ text) (fits : Fits text len) (beyond : Nat → UInt8) (flag : Nat) (w : W) :
    runCommandList table front text beyond len flag w =
      some (runLines table front (lines (firstBytes text len)) w) := by
  have size : tempSize = 1024 := rfl
  have copied (count : Nat) (fits : count < tempSize) :
      (fill (cmdByte text beyond) count).bind (cliSimpleRunCommandList table front · flag w) =
        some (runLines table front (lines (text.take count)) w) := by
    obtain ⟨rest, filled⟩ := fill_eq text beyond count fits
    rw [filled, Option.bind_some]
    exact cliSimpleRunCommandList_lines table front (fun zero => clean (List.mem_of_mem_take zero)) rest flag w
  unfold runCommandList firstBytes
  rcases fits with ⟨rfl, single⟩ | ⟨rfl, short⟩ | ⟨low, high⟩
  · have uncut : text.contains newline = false := by simpa using single
    simp only [if_true, uncut, Bool.false_eq_true, if_false]
    exact cliSimpleRunCommandList_lines table front clean [] flag w
  · have length : (text.length : Int).bmod (2 ^ 32) = text.length := Int.bmod_eq_of_le (by omega) (by omega)
    simp only [if_true, length]
    split
    · exact (copied text.length short).trans (by rw [List.take_length])
    · exact cliSimpleRunCommandList_lines table front clean [] flag w
  · have explicit : len ≠ -1 := by omega
    obtain ⟨count, rfl⟩ := Int.eq_ofNat_of_zero_le low
    simp only [if_neg explicit, if_true, Int.toNat_natCast]
    exact copied count (by omega)

/-- `run_command_list` runs the lines of the text, up to and with the first that fails,
for the texts and lengths that fit, and for no others stays in its buffer. -/
theorem command_list_iff (clean : 0 ∉ text) (low : -2 ^ 31 ≤ len) (high : len < 2 ^ 31) (beyond : Nat → UInt8)
    (flag : Nat) (w : W) :
    (Fits text len → ∃ listed, runCommandList table front text beyond len flag w = some listed ∧
      Right table front (lines (firstBytes text len)) w listed) ∧
    ((len = -1 → text.length < 2 ^ 31) →
      (∃ listed, runCommandList table front text beyond len flag w = some listed ∧
        Right table front (lines (firstBytes text len)) w listed) → Fits text len) := by
  constructor
  · intro fits
    exact ⟨_, runCommandList_eq table front clean fits beyond flag w, runLines_right table front _ w⟩
  · rintro short ⟨listed, returned, -⟩
    by_contra misfit
    simp only [Fits, not_or, not_and, Decidable.not_not] at misfit
    obtain ⟨cut, long, outside⟩ := misfit
    unfold runCommandList at returned
    by_cases whole : len = -1
    · have length : (text.length : Int).bmod (2 ^ 32) = text.length := by
        have small := short whole
        exact Int.bmod_eq_of_le (by omega) (by omega)
      have filled : fill (cmdByte text beyond) text.length = none :=
        fill_outside _ (by omega) (by have := short whole; omega) (.inr (by have := long whole; omega))
      have copies : text.contains newline = true := by simpa using cut whole
      simp only [if_pos whole, length, copies, if_true, filled] at returned
      cases returned
    · have filled : fill (cmdByte text beyond) len = none := fill_outside _ low high (by omega)
      simp [if_neg whole, filled] at returned

/-- A table without commands: the first line is unknown, and the second is not run. -/
theorem command_list_two :
    ∃ listed, runCommandList [] (fun _ => 0) [0x61, 0x0a, 0x62] (fun _ => 0) (-1) 0 () = some listed ∧
      Right [] (fun _ => 0) (lines (firstBytes [0x61, 0x0a, 0x62] (-1))) () listed :=
  (command_list_iff [] (fun _ => 0) (by decide) (by decide) (by decide) (fun _ => 0) 0 ()).1 (.inr (.inl (by decide)))

/-- 1024 characters with a newline among them put the NUL behind `temp_buf`. -/
theorem command_list_full :
    (List.replicate 1023 0x61 ++ [newline]).length = tempSize ∧
      fill (cmdByte (List.replicate 1023 0x61 ++ [newline]) fun _ => 0) tempSize = none ∧
        (runCommandList [] (fun _ => 0) (List.replicate 1023 0x61 ++ [newline]) (fun _ => 0) (-1) 0 ()).isNone := by
  decide +kernel

end RockOs.CommandLists
