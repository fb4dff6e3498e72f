import RockOs.CliSimple
import RockOs.TextBuffers

/-! The two functions that cut a line into arguments in place:
`cli_simple_parse_line`, and `make_argv` of `common/command.c`. They have one
loop. Where the array is full `make_argv` still ends it with a null pointer, and
`cli_simple_parse_line` does not. -/
namespace RockOs.ArgumentWords
open CliSimple TextBuffers

/-! ## The code -/

/-- `argv`: null pointers and pointers into the line. -/
abbrev Argv := List (Option Nat)

/-- What the loop leaves: whether it came to the end of the line, the number of
arguments, the line and `argv`. -/
structure Split where
  ended : Bool
  argc : Nat
  line : List UInt8
  argv : Argv

/-- The loop of both, with room for so many more arguments. -/
def splitLoop : (room argc pos : Nat) → (line : List UInt8) → (argv : Argv) → Option Split
  | 0, argc, _, line, argv => some ⟨false, argc, line, argv⟩
  | room + 1, argc, pos, line, argv => do
    let start ← scan isBlank line pos
    let first ← (line)[start]?
    if first = 0 then return ⟨true, argc, line, argv⟩
    else
      let argv ← put argv argc (some start)
      let stop ← scan (fun c => c ≠ 0 && !isBlank c) line start
      let behind ← (line)[stop]?
      if behind = 0 then return ⟨true, argc + 1, line, argv⟩
      else
        let line ← put line stop 0
        splitLoop room (argc + 1) (stop + 1) line argv

/-- `cli_simple_parse_line` on the line at the start of an array. -/
def cliSimpleParseLineBuf (line : List UInt8) (argv : Argv) : Option Split := do
  let split ← splitLoop sysMaxargs 0 0 line argv
  if split.ended then
    let argv ← put split.argv split.argc none
    return { split with argv }
  else return split

/-- `make_argv`. -/
def makeArgv (s : List UInt8) (argvsz : Nat) (argv : Argv) : Option Split := do
  let split ← splitLoop (argvsz - 1) 0 0 s argv
  let argv ← put split.argv split.argc none
  return { split with argv }

/-! ## The loop -/

/-- The loop has found these arguments from `argc` and `pos` on, and left what was
before them alone. -/
structure Found (argc pos : Nat) (line : List UInt8) (argv : Argv) (args : List (List UInt8)) (split : Split) :
    Prop where
  argc_eq : split.argc = argc + args.length
  line_length : split.line.length = line.length
  line_kept : split.line.take pos = line.take pos
  argv_length : split.argv.length = argv.length
  argv_kept : ∀ i, i < argc ∨ split.argc ≤ i → split.argv[i]? = argv[i]?
  strings : ∀ i (inside : i < args.length), ∃ p, split.argv[argc + i]? = some (some p) ∧ Holds 0 split.line p args[i]

/-- The loop comes to the end of the line. -/
def Ends (room : Nat) (text : List UInt8) : Prop :=
  (words isBlank text).length < room ∨
    (words isBlank text).length = room ∧ ∃ c, text.getLast? = some c ∧ isBlank c = false

private theorem splitLoop_blank (room : Nat) (all : ∀ c ∈ text, isBlank c = true) :
    splitLoop (room + 1) argc front.length (front ++ text ++ 0 :: rest) argv =
      some ⟨true, argc, front ++ text ++ 0 :: rest, argv⟩ := by
  have start := scan_eq text all (show isBlank 0 = false by decide) front rest
  have first : (front ++ text ++ 0 :: rest)[front.length + text.length]? = some (0 : UInt8) := by
    rw [← List.length_append]
    exact get_here _ _ _
  rw [splitLoop, start]
  simp

/-- The first word of what is left is stored, and the loop goes on behind it. -/
theorem splitLoop_word (room : Nat) (front rest : List UInt8) (allBlank : ∀ c ∈ blanks, isBlank c = true)
    (noBlank : ∀ c ∈ word, isBlank c = false) (nonempty : word ≠ []) (clean : 0 ∉ word)
    (stops : behind = 0 ∨ isBlank behind = true) (space : argc < argv.length) :
    splitLoop (room + 1) argc front.length (front ++ blanks ++ word ++ behind :: rest) argv =
      if behind = 0 then
        some ⟨true, argc + 1, front ++ blanks ++ word ++ behind :: rest, argv.set argc (some (front ++ blanks).length)⟩
      else
        splitLoop room (argc + 1) ((front ++ blanks ++ word).length + 1) (front ++ blanks ++ word ++ 0 :: rest)
          (argv.set argc (some (front ++ blanks).length)) := by
  obtain ⟨c, tail, rfl⟩ := List.exists_cons_of_ne_nil nonempty
  have char : c ≠ 0 := fun zero => clean (zero ▸ List.mem_cons_self)
  have inWord : ∀ d ∈ c :: tail, (d ≠ 0 && !isBlank d) = true := by
    intro d member
    have nonzero : d ≠ 0 := fun zero => clean (zero ▸ member)
    simp [nonzero, noBlank d member]
  have ends : (behind ≠ 0 && !isBlank behind) = false := by
    rcases stops with zero | blank
    · simp [zero]
    · simp [blank]
  have start : scan isBlank (front ++ blanks ++ c :: tail ++ behind :: rest) front.length =
      some (front ++ blanks).length := by
    have scanned := scan_eq blanks allBlank (noBlank c List.mem_cons_self) front (tail ++ behind :: rest)
    rw [← List.length_append] at scanned
    rw [List.append_assoc _ (c :: tail), List.cons_append]
    exact scanned
  have first : (front ++ blanks ++ c :: tail ++ behind :: rest)[(front ++ blanks).length]? = some c := by
    rw [List.append_assoc _ (c :: tail), List.cons_append]
    exact get_here _ _ _
  have stop := scan_eq (c :: tail) inWord ends (front ++ blanks) rest
  rw [← List.length_append] at stop
  have last := get_here (front ++ blanks ++ c :: tail) rest behind
  have cut := put_here (front ++ blanks ++ c :: tail) rest behind 0
  rw [splitLoop, start, Option.bind_eq_bind, Option.bind_some, first]
  simp only [Option.bind_eq_bind, Option.bind_some, if_neg char, put_eq space, stop, last, cut]
  rfl

/-- One argument in front of those that the rest of the loop finds. -/
theorem Found.cons
    (found : Found (argc + 1) ((front ++ blanks ++ word).length + 1) (front ++ blanks ++ word ++ 0 :: rest)
      (argv.set argc (some (front ++ blanks).length)) args split)
    (clean : 0 ∉ word) (space : argc < argv.length) :
    Found argc front.length (front ++ blanks ++ word ++ behind :: rest) argv (word :: args) split := by
  obtain ⟨argc_eq, line_length, line_kept, argv_length, argv_kept, strings⟩ := found
  refine ⟨?_, ?_, ?_, ?_, ?_, ?_⟩
  · rw [argc_eq, List.length_cons]
    omega
  · rw [line_length]
    simp
  · have shorter := congrArg (List.take front.length) line_kept
    rw [List.take_take, List.take_take, Nat.min_eq_left (by simp; omega)] at shorter
    rw [shorter]
    simp [List.append_assoc]
  · rw [argv_length, List.length_set]
  · intro i outside
    rw [argv_kept i (by omega), List.getElem?_set_ne (by omega)]
  · intro i inside
    cases i with
    | zero =>
      refine ⟨(front ++ blanks).length, ?_, ?_⟩
      · rw [Nat.add_zero, argv_kept argc (by omega), List.getElem?_set_self space]
      · have here : Holds 0 (front ++ blanks ++ word ++ 0 :: rest) (front ++ blanks).length word :=
          ⟨front ++ blanks, rest, rfl, rfl, clean⟩
        exact here.of_take (by simp only [List.length_append]; omega) line_kept
    | succ i =>
      rw [List.length_cons] at inside
      obtain ⟨p, stored, held⟩ := strings i (by omega)
      refine ⟨p, ?_, held⟩
      rw [show argc + (i + 1) = argc + 1 + i by omega]
      exact stored

/-- The last word of a line ends it. -/
theorem ends_single (room : Nat) (one : words isBlank text = [word]) (last : text.getLast? = some c)
    (char : isBlank c = false) : Ends (room + 1) text := by
  unfold Ends
  rw [one, List.length_singleton]
  rcases Nat.eq_zero_or_pos room with none | some
  · exact Or.inr ⟨by omega, c, last, char⟩
  · exact Or.inl (by omega)

/-- The words behind the first one decide. -/
theorem ends_cons (room : Nat) (more : words isBlank (front ++ c :: tail) = word :: words isBlank tail)
    (blank : isBlank c = true) : Ends (room + 1) (front ++ c :: tail) ↔ Ends room tail := by
  unfold Ends
  rw [more, List.length_cons, List.getLast?_append, Nat.add_lt_add_iff_right, Nat.add_right_cancel_iff]
  cases tail with
  | nil => simp [words_nil, blank]
  | cons d tail => simp [List.getLast?_cons]

private theorem splitLoop_found (room : Nat) (front rest : List UInt8) (clean : 0 ∉ text)
    (space : argc + room ≤ argv.length) :
    ∃ split, splitLoop room argc front.length (front ++ text ++ 0 :: rest) argv = some split ∧
      Found argc front.length (front ++ text ++ 0 :: rest) argv ((words isBlank text).take room) split ∧
        (split.ended = true ↔ Ends room text) := by
  induction room generalizing argc front text argv with
  | zero =>
    refine ⟨_, rfl, ⟨rfl, rfl, rfl, rfl, fun _ _ => rfl, fun i inside => absurd inside (by simp)⟩, ?_⟩
    refine iff_of_false Bool.false_ne_true ?_
    rintro (less | ⟨none, c, last, char⟩)
    · exact Nat.not_lt_zero _ less
    · have blank := words_eq_nil (List.eq_nil_of_length_eq_zero none) c (List.mem_of_getLast? last)
      rw [blank] at char
      cases char
  | succ room ih =>
    rcases words_cases isBlank text with all | ⟨blanks, word, more, rfl, allBlank, noBlank, nonempty, ends⟩
    · have none : words isBlank text = [] := by
        have blanks := words_blanks all []
        rwa [List.append_nil, words_nil] at blanks
      refine ⟨_, splitLoop_blank room all, ?_, iff_of_true rfl (Or.inl (by rw [none]; exact Nat.succ_pos room))⟩
      rw [none]
      exact ⟨rfl, rfl, rfl, rfl, fun _ _ => rfl, fun i inside => absurd inside (by simp)⟩
    · have cleanWord : 0 ∉ word := fun zero => clean (by simp [zero])
      rcases ends with rfl | ⟨c, tail, rfl, blank⟩
      · have one : words isBlank (blanks ++ word ++ []) = [word] := by
          rw [List.append_nil, words_blanks allBlank, words_single noBlank nonempty]
        have step := splitLoop_word room front rest allBlank noBlank nonempty cleanWord (Or.inl rfl)
          (show argc < argv.length by omega)
        rw [if_pos rfl] at step
        rw [one, List.append_nil, ← List.append_assoc, List.take_succ_cons, List.take_nil]
        refine ⟨_, step, Found.cons ?_ cleanWord (by omega), iff_of_true rfl ?_⟩
        · exact ⟨rfl, rfl, rfl, rfl, fun _ _ => rfl, fun i inside => absurd inside (Nat.not_lt_zero i)⟩
        · have last : (blanks ++ word).getLast? = some (word.getLast nonempty) := by
            rw [List.getLast?_append, List.getLast?_eq_some_getLast nonempty, Option.some_or]
          rw [List.append_nil] at one
          exact ends_single room one last (noBlank _ (List.getLast_mem nonempty))
      · have char : c ≠ 0 := fun zero => clean (by simp [zero])
        have cleanTail : 0 ∉ tail := fun zero => clean (by simp [zero])
        have step := splitLoop_word room front (tail ++ 0 :: rest) allBlank noBlank nonempty cleanWord (Or.inr blank)
          (show argc < argv.length by omega)
        rw [if_neg char] at step
        have first : words isBlank (blanks ++ word ++ c :: tail) = word :: words isBlank tail := by
          rw [List.append_assoc, words_blanks allBlank, words_word noBlank nonempty blank]
        have behind : (front ++ blanks ++ word ++ [0]).length = (front ++ blanks ++ word).length + 1 := by
          rw [List.length_append, List.length_singleton]
        have line : front ++ blanks ++ word ++ [0] ++ tail ++ 0 :: rest =
            front ++ blanks ++ word ++ 0 :: (tail ++ 0 :: rest) := by
          simp
        have left : argc + 1 + room ≤ (argv.set argc (some (front ++ blanks).length)).length := by
          rw [List.length_set]
          omega
        obtain ⟨split, looped, found, ended⟩ := ih (front ++ blanks ++ word ++ [0]) cleanTail left
        rw [behind, line] at looped found
        have whole : front ++ (blanks ++ word ++ c :: tail) ++ 0 :: rest =
            front ++ blanks ++ word ++ c :: (tail ++ 0 :: rest) := by
          simp
        rw [whole, first, List.take_succ_cons, ends_cons room first blank]
        exact ⟨split, step.trans looped, found.cons cleanWord (by omega), ended⟩

/-- The arguments of a string are its first words. -/
theorem parseArgs_eq (room : Nat) (text : List UInt8) : parseArgs room text = (words isBlank text).take room := by
  induction room generalizing text with
  | zero => rfl
  | succ room ih =>
    rcases words_cases isBlank text with all | ⟨blanks, word, more, rfl, allBlank, noBlank, nonempty, ends⟩
    · have none := words_blanks all []
      rw [List.append_nil, words_nil] at none
      rw [none, parseArgs, List.dropWhile_eq_nil_iff.mpr all]
      rfl
    · obtain ⟨c, tail, rfl⟩ := List.exists_cons_of_ne_nil nonempty
      have start : (blanks ++ c :: tail ++ more).dropWhile isBlank = c :: (tail ++ more) := by
        rw [List.append_assoc, List.dropWhile_append_of_pos allBlank, List.cons_append,
          List.dropWhile_cons_of_neg (by simp [noBlank c List.mem_cons_self])]
      have inWord : ∀ d ∈ c :: tail, (!isBlank d) = true := fun d member => by simp [noBlank d member]
      rw [parseArgs, start]
      dsimp only
      rcases ends with rfl | ⟨d, more, rfl, blank⟩
      · have stop : (c :: (tail ++ [])).dropWhile (!isBlank ·) = [] := by
          rw [List.append_nil]
          exact List.dropWhile_eq_nil_iff.mpr inWord
        rw [stop, List.append_nil, List.append_nil, words_blanks allBlank, words_single noBlank nonempty,
          List.take_succ_cons, List.take_nil]
      · have stop : (c :: (tail ++ d :: more)).dropWhile (!isBlank ·) = d :: more := by
          rw [← List.cons_append, List.dropWhile_append_of_pos inWord, List.dropWhile_cons_of_neg (by simp [blank])]
        have first : (c :: (tail ++ d :: more)).takeWhile (!isBlank ·) = c :: tail := by
          rw [← List.cons_append, List.takeWhile_append_of_pos inWord, List.takeWhile_cons_of_neg (by simp [blank]),
            List.append_nil]
        rw [stop, List.append_assoc, words_blanks allBlank, words_word noBlank nonempty blank, List.take_succ_cons, ← ih]
        exact congrArg (· :: parseArgs room more) first

/-! ## Both functions -/

/-- What a line is cut into: its first words, as many as there is room for. -/
structure Cut (text : List UInt8) (split : Split) : Prop where
  argc_eq : split.argc = min (words isBlank text).length sysMaxargs
  strings : ∀ (i : Nat) word, ((words isBlank text).take sysMaxargs)[i]? = some word →
    ∃ p, split.argv[i]? = some (some p) ∧ Holds 0 split.line p word

/-- The words, with a null pointer behind them. -/
structure Arguments (text : List UInt8) (split : Split) : Prop extends Cut text split where
  null : split.argv[split.argc]? = some none

theorem Found.cut (found : Found 0 pos line argv ((words isBlank text).take sysMaxargs) split) : Cut text split := by
  constructor
  · rw [found.argc_eq, List.length_take, Nat.zero_add, Nat.min_comm]
  · intro i word here
    obtain ⟨inside, rfl⟩ := List.getElem?_eq_some_iff.mp here
    have stored := found.strings i inside
    rwa [Nat.zero_add] at stored

/-- The null pointer goes behind the arguments, where there is one entry more. -/
theorem Found.terminated (found : Found 0 pos line argv ((words isBlank text).take sysMaxargs) split)
    (size : argv.length = sysMaxargs + 1) : ∃ argv', put split.argv split.argc none = some argv' ∧
      Arguments text { split with argv := argv' } := by
  have cut := found.cut
  have argc := cut.argc_eq
  have inside : split.argc < split.argv.length := by
    rw [found.argv_length]
    omega
  refine ⟨_, put_eq inside none, ⟨argc, ?_⟩, List.getElem?_set_self inside⟩
  intro i word here
  have small : i < split.argc := by
    have bound := (List.getElem?_eq_some_iff.mp here).1
    rw [List.length_take] at bound
    omega
  rw [List.getElem?_set_ne (by omega)]
  exact cut.strings i word here

private theorem splitLoop_line (rest : List UInt8) (clean : 0 ∉ text) (size : argv.length = sysMaxargs + 1) :
    ∃ split, splitLoop sysMaxargs 0 0 (text ++ 0 :: rest) argv = some split ∧
      Found 0 0 (text ++ 0 :: rest) argv ((words isBlank text).take sysMaxargs) split ∧
        (split.ended = true ↔ Ends sysMaxargs text) :=
  splitLoop_found sysMaxargs [] rest clean (by omega)

/-- `make_argv` always ends the array. -/
theorem makeArgv_arguments (rest : List UInt8) (clean : 0 ∉ text) (size : argv.length = sysMaxargs + 1) :
    ∃ split, makeArgv (text ++ 0 :: rest) (sysMaxargs + 1) argv = some split ∧ Arguments text split := by
  obtain ⟨split, looped, found, -⟩ := splitLoop_line rest clean size
  obtain ⟨argv', stored, arguments⟩ := found.terminated size
  refine ⟨_, ?_, arguments⟩
  rw [makeArgv, Nat.add_sub_cancel, looped, Option.bind_eq_bind, Option.bind_some, stored]
  rfl

/-- `cli_simple_parse_line` ends it where it comes to the end of the line. -/
theorem cliSimpleParseLineBuf_cut (rest : List UInt8) (clean : 0 ∉ text) {argv : Argv}
    (size : argv.length = sysMaxargs + 1) :
    ∃ split, cliSimpleParseLineBuf (text ++ 0 :: rest) argv = some split ∧ Cut text split ∧
      (split.line.length = (text ++ 0 :: rest).length ∧ split.argv.length = argv.length) ∧
        (split.argv[split.argc]? = some none ↔ Ends sysMaxargs text ∨ argv[sysMaxargs]? = some none) := by
  obtain ⟨split, looped, found, ended⟩ := splitLoop_line rest clean size
  by_cases ends : Ends sysMaxargs text
  · obtain ⟨argv', stored, arguments⟩ := found.terminated size
    have argvLength := (put_length stored).trans found.argv_length
    refine ⟨_, ?_, arguments.toCut, ⟨found.line_length, argvLength⟩, iff_of_true arguments.null (Or.inl ends)⟩
    rw [cliSimpleParseLineBuf, looped, Option.bind_eq_bind, Option.bind_some, if_pos (ended.mpr ends), stored]
    rfl
  · have full : split.argc = sysMaxargs := by
      have many : ¬ (words isBlank text).length < sysMaxargs := fun few => ends (Or.inl few)
      rw [found.cut.argc_eq]
      omega
    refine ⟨split, ?_, found.cut, ⟨found.line_length, found.argv_length⟩, ?_⟩
    · rw [cliSimpleParseLineBuf, looped, Option.bind_eq_bind, Option.bind_some,
        if_neg fun atEnd => ends (ended.mp atEnd)]
      rfl
    · rw [found.argv_kept _ (Or.inr (Nat.le_refl _)), full]
      exact (or_iff_right ends).symm

/-- Both functions cut a line into its words and end the array, where there are fewer words than the array takes, where
the last word that it takes ends the line, or where the entry behind it was null before. -/
theorem argument_words_iff (text rest : List UInt8) (clean : 0 ∉ text) (argv other : Argv)
    (size : argv.length = sysMaxargs + 1) (otherSize : other.length = sysMaxargs + 1) :
    ((∃ split, cliSimpleParseLineBuf (text ++ 0 :: rest) argv = some split ∧ Arguments text split) ∧
        ∃ split, makeArgv (text ++ 0 :: rest) (sysMaxargs + 1) other = some split ∧ Arguments text split) ↔
      (words isBlank text).length < sysMaxargs ∨
        ((words isBlank text).length = sysMaxargs ∧ ∃ c, text.getLast? = some c ∧ isBlank c = false) ∨
          argv[sysMaxargs]? = some none := by
  obtain ⟨split, parsed, cut, -, null⟩ := cliSimpleParseLineBuf_cut rest clean size
  rw [and_iff_left (makeArgv_arguments rest clean otherSize), ← or_assoc]
  constructor
  · rintro ⟨split', parsed', arguments⟩
    cases parsed.symm.trans parsed'
    exact null.mp arguments.null
  · intro condition
    exact ⟨split, parsed, cut, null.mpr condition⟩

/-- An array of pointers left from before. -/
def usedArgv : Argv := List.replicate (sysMaxargs + 1) (some 0)

theorem argument_words_two :
    (∃ split, cliSimpleParseLineBuf (Ctype.ascii ['m', 'd', ' ', '4'] ++ [0]) usedArgv = some split ∧
        Arguments (Ctype.ascii ['m', 'd', ' ', '4']) split) ∧
      ∃ split, makeArgv (Ctype.ascii ['m', 'd', ' ', '4'] ++ [0]) (sysMaxargs + 1) usedArgv = some split ∧
        Arguments (Ctype.ascii ['m', 'd', ' ', '4']) split :=
  (argument_words_iff _ [] (by decide) usedArgv usedArgv rfl rfl).mpr (Or.inl (by decide))

/-- Sixteen words and a blank. -/
def fullLine : List UInt8 := (List.replicate 16 (Ctype.ascii ['a', ' '])).flatten

/-- The entry behind the sixteenth pointer is not written. -/
theorem argument_words_full :
    ¬ ∃ split, cliSimpleParseLineBuf (fullLine ++ [0]) usedArgv = some split ∧ Arguments fullLine split := by
  rintro ⟨split', parsed', arguments⟩
  obtain ⟨split, parsed, -, -, null⟩ := cliSimpleParseLineBuf_cut [] (show 0 ∉ fullLine by decide)
    (show usedArgv.length = sysMaxargs + 1 from rfl)
  cases parsed.symm.trans parsed'
  rcases null.mp arguments.null with (few | ⟨-, c, last, char⟩) | empty
  · revert few
    decide
  · cases last.symm.trans (show fullLine.getLast? = some ' '.toUInt8 by decide)
    cases char
  · cases empty

end RockOs.ArgumentWords
