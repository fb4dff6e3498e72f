import RockOs.ArgumentWords
import RockOs.MacroExpansion

/-! `cli_simple_run_command` in its buffers `cmdbuf`, `finaltoken` and `argv`. An
access outside them gives no result. The separator loop looks one byte back at
every quote, also at one in the first byte of `cmdbuf`. -/
namespace RockOs.CommandBuffers
open ArgumentWords CliSimple Config MacroExpansion TextBuffers

/-! ## The code -/

/-- `strcpy` into an array. -/
def strcpy (dest src : List UInt8) : Option (List UInt8) :=
  if src.length < dest.length then some (src ++ 0 :: dest.drop (src.length + 1)) else none

/-- `*(sep - 1)`. -/
def byteBefore (cmdbuf : List UInt8) (sep : Nat) : Option UInt8 := if sep = 0 then none else cmdbuf[sep - 1]?

/-- `inquotes` after the byte at `sep`. -/
def quotesAfter (cmdbuf : List UInt8) (sep : Nat) (c : UInt8) (inquotes : Bool) : Option Bool :=
  if c = quote then (byteBefore cmdbuf sep).map fun prev => if prev ≠ backslash then !inquotes else inquotes
  else some inquotes

/-- Whether the byte at `sep` is a separator. -/
def separates (cmdbuf : List UInt8) (str sep : Nat) (c : UInt8) (inquotes : Bool) : Option Bool :=
  if !inquotes ∧ c = ';'.toUInt8 ∧ sep ≠ str then (byteBefore cmdbuf sep).map (decide <| · ≠ backslash)
  else some false

/-- The loop that finds the separator, or the end of the string. -/
def findSeparator (cmdbuf : List UInt8) (str : Nat) (inquotes : Bool) (sep : Nat) : Option Nat :=
  match read : cmdbuf[sep]? with
  | none => none
  | some c =>
    if c = 0 then some sep
    else do
      let inquotes ← quotesAfter cmdbuf sep c inquotes
      let stops ← separates cmdbuf str sep c inquotes
      if stops then some sep else findSeparator cmdbuf str inquotes (sep + 1)
termination_by cmdbuf.length - sep
decreasing_by
  have := (List.getElem?_eq_some_iff.mp read).1
  omega

/-- The string at a pointer. -/
def stringAt (buf : List UInt8) (pointer : Option Nat) : Option (List UInt8) := do
  let start ← pointer
  let stop ← scan (· ≠ 0) buf start
  return (buf.drop start).take (stop - start)

/-- The arrays on the stack. -/
structure Buffers where
  cmdbuf : List UInt8
  finaltoken : List UInt8
  argv : Argv

/-- A separator becomes NUL. -/
def cutToken (cmdbuf : List UInt8) (sep : Nat) (last : UInt8) : Option (List UInt8) :=
  if last ≠ 0 then put cmdbuf sep 0 else some cmdbuf

/-- One token: where the next one starts, the buffers, and the arguments. -/
def nextToken (b : Buffers) (str : Nat) : Option (Nat × Buffers × List (List UInt8)) := do
  let sep ← findSeparator b.cmdbuf str false str
  let last ← b.cmdbuf[sep]?
  let cmdbuf ← cutToken b.cmdbuf sep last
  let finaltoken ← cliSimpleProcessMacrosBuf cmdbuf str b.finaltoken
  let split ← cliSimpleParseLineBuf finaltoken b.argv
  let argv ← (split.argv.take split.argc).mapM (stringAt split.line)
  return (if last ≠ 0 then sep + 1 else sep, ⟨cmdbuf, split.line, split.argv⟩, argv)

private theorem findSeparator_le (found : findSeparator cmdbuf str inquotes sep = some stop) : sep ≤ stop := by
  fun_induction findSeparator cmdbuf str inquotes sep with
  | case1 => cases found
  | case2 => exact Nat.le_of_eq (Option.some.inj found)
  | case3 inquotes sep c read char ih =>
    obtain ⟨inquotes', -, stops, -, rest⟩ := by simpa only [Option.bind_eq_bind, Option.bind_eq_some_iff] using found
    cases stops with
    | true => exact Nat.le_of_eq (Option.some.inj rest)
    | false => exact Nat.le_of_succ_le (ih inquotes' rest)

/-- The first byte of a token is never its end. -/
theorem findSeparator_gt (read : cmdbuf[str]? = some c) (char : c ≠ 0)
    (found : findSeparator cmdbuf str inquotes str = some stop) : str < stop := by
  rw [findSeparator] at found
  split at found
  · next outside => cases outside.symm.trans read
  · next c' here =>
    cases here.symm.trans read
    rw [if_neg char] at found
    obtain ⟨inquotes', -, stops, separator, rest⟩ := by
      simpa only [Option.bind_eq_bind, Option.bind_eq_some_iff] using found
    rw [separates, if_neg fun all => all.2.2 rfl] at separator
    cases separator
    exact findSeparator_le rest

/-- Every pass moves on. -/
theorem nextToken_progress (read : b.cmdbuf[str]? = some c) (char : c ≠ 0)
    (passed : nextToken b str = some (next, b', argv)) : str < next ∧ b'.cmdbuf.length = b.cmdbuf.length := by
  obtain ⟨sep, found, last, -, cmdbuf, stored, finaltoken, -, split, -, strings, -, result⟩ := by
    simpa only [nextToken, Option.bind_eq_bind, Option.bind_eq_some_iff] using passed
  have past := findSeparator_gt read char found
  cases result
  constructor
  · split
    · omega
    · exact past
  · unfold cutToken at stored
    split at stored
    · exact put_length stored
    · cases stored
      rfl

section
variable {W : Type} (table : List (CmdTbl W))

/-- The loop over the tokens. -/
def runLoop (flag : Nat) (b : Buffers) (str : Nat) (rc : Int) (repeatable : BitVec 32) (w : W) :
    Option (Int × BitVec 32 × W) :=
  match _ : b.cmdbuf[str]? with
  | none => none
  | some c =>
    if _ : c = 0 then some (rc, repeatable, w)
    else
      match _ : nextToken b str with
      | none => none
      | some (next, b', argv) =>
        if argv = [] then runLoop flag b' next (-1) repeatable w
        else
          let (result, repeatable, w) := cmdProcess table flag argv repeatable w
          runLoop flag b' next (if result ≠ 0 then -1 else rc) repeatable w
termination_by b.cmdbuf.length - str
decreasing_by
  all_goals
    have inside := (List.getElem?_eq_some_iff.mp ‹b.cmdbuf[str]? = some c›).1
    have progress := nextToken_progress ‹_› ‹¬ c = 0› ‹nextToken b str = some (next, b', argv)›
    omega

/-- `cli_simple_run_command`; the arrays hold what was on the stack. -/
def cliSimpleRunCommandBuf (b : Buffers) (cmd : List UInt8) (flag : Nat) (w : W) : Option (Int × W) :=
  if cmd = [] then some (-1, w)
  else if sysCbsize ≤ cmd.length then some (-1, w)
  else do
    let cmdbuf ← strcpy b.cmdbuf cmd
    let (rc, repeatable, w) ← runLoop table flag { b with cmdbuf } 0 0 1 w
    return (if rc ≠ 0 then rc else repeatable.toInt, w)

end

/-! ## The separator -/

private theorem byteBefore_last (last : front.getLast? = some prev) (tail : List UInt8) :
    byteBefore (front ++ tail) front.length = some prev := by
  have nonempty : front ≠ [] := by
    rintro rfl
    cases last
  have positive := List.length_pos_iff.mpr nonempty
  rw [byteBefore, if_neg (by omega), List.getElem?_append_left (by omega), ← List.getLast?_eq_getElem?]
  exact last

private theorem findSeparator_end (read : cmdbuf[sep]? = some 0) : findSeparator cmdbuf str inquotes sep = some sep := by
  rw [findSeparator]
  split
  · next outside => cases outside.symm.trans read
  · next c here =>
    cases here.symm.trans read
    rfl

private theorem findSeparator_step (read : cmdbuf[sep]? = some c) (char : c ≠ 0)
    (quotes : quotesAfter cmdbuf sep c inquotes = some inquotes')
    (stops : separates cmdbuf str sep c inquotes' = some stop) :
    findSeparator cmdbuf str inquotes sep =
      if stop then some sep else findSeparator cmdbuf str inquotes' (sep + 1) := by
  rw [findSeparator]
  split
  · next outside => cases outside.symm.trans read
  · next c here =>
    cases here.symm.trans read
    rw [if_neg char, quotes, Option.bind_eq_bind, Option.bind_some, stops]
    rfl

/-- Behind its first byte, the loop over `cmdbuf` is the one over the list. -/
theorem findSeparator_eq (rest : List UInt8) (clean : 0 ∉ text) (last : front.getLast? = some prev)
    (start : first = decide (front.length = str)) (order : str ≤ front.length) (inquotes : Bool) :
    findSeparator (front ++ text ++ 0 :: rest) str inquotes front.length =
      some (front.length + separator inquotes first prev text) := by
  induction text generalizing front prev first inquotes with
  | nil => exact findSeparator_end (by simp)
  | cons c text ih =>
    have here : (front ++ c :: text ++ 0 :: rest)[front.length]? = some c := by simp
    have char : c ≠ 0 := fun zero => clean (zero ▸ List.mem_cons_self)
    have before : byteBefore (front ++ c :: text ++ 0 :: rest) front.length = some prev := by
      rw [List.append_assoc]
      exact byteBefore_last last _
    have quotes : quotesAfter (front ++ c :: text ++ 0 :: rest) front.length c inquotes =
        some (if c = quote ∧ prev ≠ backslash then !inquotes else inquotes) := by
      rw [quotesAfter, before]
      by_cases isQuote : c = quote
      · simp [isQuote]
      · simp [isQuote]
    rw [separator]
    generalize (if c = quote ∧ prev ≠ backslash then !inquotes else inquotes) = inquotes' at quotes
    have stops : separates (front ++ c :: text ++ 0 :: rest) str front.length c inquotes' =
        some (decide (!inquotes' ∧ c = ';'.toUInt8 ∧ !first ∧ prev ≠ backslash)) := by
      rw [separates, before, start]
      by_cases candidate : !inquotes' ∧ c = ';'.toUInt8 ∧ front.length ≠ str
      · simp [candidate]
      · rw [if_neg candidate]
        congr 1
        symm
        apply decide_eq_false
        intro all
        exact candidate ⟨all.1, all.2.1, by simpa using all.2.2.1⟩
    have onward : findSeparator (front ++ [c] ++ text ++ 0 :: rest) str inquotes' (front ++ [c]).length =
        some ((front ++ [c]).length + separator inquotes' false c text) := by
      refine ih (fun zero => clean (List.mem_cons_of_mem c zero)) List.getLast?_concat ?_ ?_ inquotes'
      · rw [List.length_append, List.length_singleton]
        exact (decide_eq_false (by omega)).symm
      · rw [List.length_append]
        omega
    have whole : front ++ [c] ++ text ++ 0 :: rest = front ++ c :: text ++ 0 :: rest := by simp
    rw [whole, List.length_append, List.length_singleton] at onward
    rw [findSeparator_step here char quotes stops, onward]
    by_cases stop : !inquotes' ∧ c = ';'.toUInt8 ∧ !first ∧ prev ≠ backslash
    · rw [decide_eq_true stop, if_pos stop]
      rfl
    · rw [decide_eq_false stop, if_neg stop, Nat.add_assoc, Nat.add_comm 1]
      rfl

/-- At the first byte of `cmdbuf` the loop is the one over the list, unless that byte is a quote. -/
theorem findSeparator_start (rest : List UInt8) (clean : 0 ∉ text) (nonempty : text ≠ [])
    (plain : text.head? ≠ some quote) (prev : UInt8) :
    findSeparator (text ++ 0 :: rest) 0 false 0 = some (separator false true prev text) := by
  obtain ⟨c, text, rfl⟩ := List.exists_cons_of_ne_nil nonempty
  have char : c ≠ 0 := fun zero => clean (zero ▸ List.mem_cons_self)
  have notQuote : c ≠ quote := fun same => plain (by rw [same]; rfl)
  have quotes : quotesAfter (c :: text ++ 0 :: rest) 0 c false = some false := if_neg notQuote
  have stops : separates (c :: text ++ 0 :: rest) 0 0 c false = some false := if_neg fun all => all.2.2 rfl
  have onward : findSeparator ([c] ++ text ++ 0 :: rest) 0 false [c].length =
      some ([c].length + separator false false c text) :=
    findSeparator_eq rest (fun zero => clean (List.mem_cons_of_mem c zero)) rfl rfl (Nat.zero_le _) false
  have outside : (if c = quote ∧ prev ≠ backslash then !false else false) = false := if_neg fun both => notQuote both.1
  rw [findSeparator_step rfl char quotes stops, if_neg Bool.false_ne_true, separator, outside, if_neg (by simp),
    Nat.add_comm (separator false false c text)]
  exact onward

/-- A quote in the first byte makes the loop look in front of `cmdbuf`. -/
theorem findSeparator_quote (text : List UInt8) : findSeparator (quote :: text) 0 false 0 = none := by
  rw [findSeparator]
  rfl

/-! ## A token -/

/-- Arrays of the sizes they are declared with. -/
structure Sized (b : Buffers) : Prop where
  cmdbuf : b.cmdbuf.length = sysCbsize
  finaltoken : b.finaltoken.length = sysCbsize
  argv : b.argv.length = sysMaxargs + 1

private theorem mapM_eq {f : α → Option β} {xs : List α} {ys : List β} (length : xs.length = ys.length)
    (each : ∀ (i : Nat) x y, xs[i]? = some x → ys[i]? = some y → f x = some y) : xs.mapM f = some ys := by
  induction xs generalizing ys with
  | nil =>
    cases ys with
    | nil => rfl
    | cons y ys => cases length
  | cons x xs ih =>
    cases ys with
    | nil => cases length
    | cons y ys =>
      have head : f x = some y := each 0 x y rfl rfl
      have tail := ih (Nat.succ.inj length) (fun i => each (i + 1))
      rw [List.mapM_cons, head, tail]
      rfl

/-- The pointers of a line that has been cut lead to its first words. -/
theorem argv_strings (cut : Cut text split) (size : split.argc ≤ split.argv.length) :
    (split.argv.take split.argc).mapM (stringAt split.line) = some (cliSimpleParseLine text) := by
  have argc := cut.argc_eq
  have args : cliSimpleParseLine text = (words isBlank text).take sysMaxargs := parseArgs_eq sysMaxargs text
  rw [args]
  apply mapM_eq
  · rw [List.length_take, List.length_take]
    omega
  · intro i pointer word here found
    obtain ⟨p, stored, holds⟩ := cut.strings i word found
    obtain ⟨stop, string⟩ := holds.scan
    have inside : i < split.argc := by
      have bound := (List.getElem?_eq_some_iff.mp here).1
      rw [List.length_take] at bound
      omega
    rw [List.getElem?_take_of_lt inside, stored] at here
    cases here
    rw [stringAt, Option.bind_eq_bind, Option.bind_some, stop, Option.bind_some, Nat.add_sub_cancel_left, string]
    rfl

/-- What follows the separator: the token is expanded and cut into arguments. -/
theorem token_arguments (front rest : List UInt8) (clean : 0 ∉ token) (short : token.length < 2 ^ 32)
    (finalSize : finaltoken.length = sysCbsize) (argvSize : argv.length = sysMaxargs + 1) :
    ∃ after split, cliSimpleProcessMacrosBuf (front ++ token ++ 0 :: rest) front.length finaltoken = some after ∧
      cliSimpleParseLineBuf after argv = some split ∧ split.line.length = sysCbsize ∧
        split.argv.length = sysMaxargs + 1 ∧
          (split.argv.take split.argc).mapM (stringAt split.line) =
            some (cliSimpleParseLine (cliSimpleProcessMacros token)) := by
  obtain ⟨after, expanded, length, -, holds, -⟩ :=
    cliSimpleProcessMacrosBuf_eq front rest clean (Nat.le_of_eq finalSize.symm)
  rw [Nat.mod_eq_of_lt short, List.take_length] at holds
  obtain ⟨none, behind, rfl, empty, cleanText⟩ := holds
  obtain rfl : none = [] := List.eq_nil_of_length_eq_zero empty
  rw [List.nil_append] at expanded length
  obtain ⟨split, parsed, cut, ⟨lineLength, argvLength⟩, -⟩ := cliSimpleParseLineBuf_cut behind cleanText argvSize
  have argc := cut.argc_eq
  exact ⟨_, split, expanded, parsed, by omega, by omega, argv_strings cut (by omega)⟩

private theorem separator_le (inquotes first : Bool) (prev : UInt8) (text : List UInt8) :
    separator inquotes first prev text ≤ text.length := by
  induction text generalizing inquotes first prev with
  | nil => exact Nat.le_refl _
  | cons c text ih =>
    rw [separator]
    split <;> split
    · exact Nat.zero_le _
    · exact Nat.succ_le_succ (ih _ _ _)
    · exact Nat.zero_le _
    · exact Nat.succ_le_succ (ih _ _ _)

/-- A token that ends the string, and one that ends at a separator. -/
theorem nextToken_eq (sized : Sized b) (whole : b.cmdbuf = front ++ (token ++ behind) ++ 0 :: rest)
    (clean : 0 ∉ token ++ behind)
    (found : findSeparator b.cmdbuf front.length false front.length = some (front.length + token.length)) :
    ∃ b', Sized b' ∧
      nextToken b front.length = some
        (if behind = [] then front.length + token.length else front.length + token.length + 1, b',
          cliSimpleParseLine (cliSimpleProcessMacros token)) ∧
      b'.cmdbuf = front ++ token ++ 0 :: (if behind = [] then rest else behind.tail ++ 0 :: rest) := by
  obtain ⟨cmdbufSize, finalSize, argvSize⟩ := sized
  have cleanToken : 0 ∉ token := fun zero => clean (List.mem_append_left _ zero)
  have short : token.length < 2 ^ 32 := by
    have bound := congrArg List.length whole
    rw [cmdbufSize] at bound
    simp only [List.length_append, List.length_cons, sysCbsize] at bound
    omega
  cases behind with
  | nil =>
    have here : b.cmdbuf[front.length + token.length]? = some 0 := by
      rw [whole, List.append_nil, ← List.length_append]
      exact get_here _ _ _
    obtain ⟨after, split, expanded, parsed, lineSize, splitSize, strings⟩ :=
      token_arguments front rest cleanToken short finalSize argvSize
    rw [List.append_nil] at whole
    refine ⟨⟨b.cmdbuf, split.line, split.argv⟩, ⟨cmdbufSize, lineSize, splitSize⟩, ?_, whole⟩
    rw [nextToken, found, Option.bind_eq_bind, Option.bind_some, here, Option.bind_eq_bind, Option.bind_some, cutToken,
      if_neg (not_not.mpr rfl), Option.bind_eq_bind, Option.bind_some, whole, expanded]
    simp [parsed, strings]
  | cons c more =>
    have char : c ≠ 0 := fun zero => clean (by simp [zero])
    have line : b.cmdbuf = front ++ token ++ c :: (more ++ 0 :: rest) := by
      rw [whole]
      simp
    have here : b.cmdbuf[front.length + token.length]? = some c := by
      rw [line, ← List.length_append]
      exact get_here _ _ _
    have cut : put b.cmdbuf (front.length + token.length) 0 = some (front ++ token ++ 0 :: (more ++ 0 :: rest)) := by
      rw [line, ← List.length_append]
      exact put_here _ _ _ _
    obtain ⟨after, split, expanded, parsed, lineSize, splitSize, strings⟩ :=
      token_arguments front (more ++ 0 :: rest) cleanToken short finalSize argvSize
    refine ⟨⟨_, split.line, split.argv⟩, ⟨?_, lineSize, splitSize⟩, ?_, rfl⟩
    · exact (put_length cut).trans cmdbufSize
    · rw [nextToken, found, Option.bind_eq_bind, Option.bind_some, here, Option.bind_eq_bind, Option.bind_some, cutToken,
        if_pos char, cut, Option.bind_eq_bind, Option.bind_some, expanded]
      simp [parsed, strings, char]

/-! ## The whole string -/

theorem strcpy_eq (fits : src.length < dest.length) :
    strcpy dest src = some (src ++ 0 :: dest.drop (src.length + 1)) := if_pos fits

private theorem strcpy_length (copied : strcpy dest src = some dest') : dest'.length = dest.length := by
  unfold strcpy at copied
  split at copied
  · cases copied
    simp only [List.length_append, List.length_cons, List.length_drop]
    omega
  · cases copied

section
variable {W : Type} (table : List (CmdTbl W))

private theorem runLoop_end (read : b.cmdbuf[str]? = some 0) (flag : Nat) (rc : Int) (repeatable : BitVec 32) (w : W) :
    runLoop table flag b str rc repeatable w = some (rc, repeatable, w) := by
  rw [runLoop]
  split
  · next outside => cases outside.symm.trans read
  · next c here =>
    cases here.symm.trans read
    rfl

private theorem runLoop_fault (read : b.cmdbuf[str]? = some c) (char : c ≠ 0) (passed : nextToken b str = none)
    (flag : Nat) (rc : Int) (repeatable : BitVec 32) (w : W) : runLoop table flag b str rc repeatable w = none := by
  rw [runLoop]
  split
  · rfl
  · next c' here =>
    cases here.symm.trans read
    rw [dif_neg char]
    split
    · rfl
    · next next b' argv some => cases some.symm.trans passed

private theorem runLoop_step (read : b.cmdbuf[str]? = some c) (char : c ≠ 0)
    (passed : nextToken b str = some (next, b', argv)) (flag : Nat) (rc : Int) (repeatable : BitVec 32) (w : W) :
    runLoop table flag b str rc repeatable w =
      if argv = [] then runLoop table flag b' next (-1) repeatable w
      else
        let (result, repeatable, w) := cmdProcess table flag argv repeatable w
        runLoop table flag b' next (if result ≠ 0 then -1 else rc) repeatable w := by
  rw [runLoop]
  split
  · next outside => cases outside.symm.trans read
  · next c' here =>
    cases here.symm.trans read
    rw [dif_neg char]
    split
    · next none => cases none.symm.trans passed
    · next next' b'' argv' some =>
      cases some.symm.trans passed
      rfl

/-- The separator of a token that starts behind `front`, or in the first byte of `cmdbuf`. -/
theorem findSeparator_token (rest : List UInt8) (clean : 0 ∉ text) (nonempty : text ≠ [])
    (start : front.getLast? = some prev ∨ front = [] ∧ text.head? ≠ some quote) :
    findSeparator (front ++ text ++ 0 :: rest) front.length false front.length =
      some (front.length + separator false true prev text) := by
  rcases start with last | ⟨rfl, plain⟩
  · exact findSeparator_eq rest clean last (decide_eq_true rfl).symm (Nat.le_refl _) false
  · rw [List.nil_append, List.length_nil, Nat.zero_add]
    exact findSeparator_start rest clean nonempty plain prev

private theorem runLoop_nil (whole : b.cmdbuf = front ++ 0 :: rest) (prev : UInt8) (flag : Nat) (rc : Int)
    (repeatable : BitVec 32) (w : W) :
    runLoop table flag b front.length rc repeatable w =
      some (runTokens table flag (tokens prev []) rc repeatable w) := by
  have here : b.cmdbuf[front.length]? = some 0 := by
    rw [whole]
    exact get_here _ _ _
  rw [runLoop_end table here, tokens, if_pos rfl]
  rfl

/-- The loop over the buffers is the one over the tokens. -/
theorem runLoop_eq (sized : Sized b) (whole : b.cmdbuf = front ++ text ++ 0 :: rest) (clean : 0 ∉ text)
    (start : front.getLast? = some prev ∨ front = [] ∧ text.head? ≠ some quote) (flag : Nat) (rc : Int)
    (repeatable : BitVec 32) (w : W) :
    runLoop table flag b front.length rc repeatable w =
      some (runTokens table flag (tokens prev text) rc repeatable w) := by
  induction length : text.length using Nat.strong_induction_on generalizing b front text rest prev rc repeatable w with
  | _ n ih =>
    rcases eq_or_ne text [] with rfl | nonempty
    · exact runLoop_nil table (by rw [whole, List.append_nil]) prev flag rc repeatable w
    have found := findSeparator_token rest clean nonempty start
    have bound := separator_le false true prev text
    rw [tokens, if_neg nonempty]
    generalize separator false true prev text = sep at found bound
    have parts := List.take_append_drop sep text
    have tokenLength : (text.take sep).length = sep := by
      rw [List.length_take]
      omega
    rw [← whole, ← tokenLength] at found
    rw [← parts] at whole
    have cleanParts : 0 ∉ text.take sep ++ text.drop sep := by rwa [parts]
    obtain ⟨b', sized', passed, cmdbuf'⟩ := nextToken_eq sized whole cleanParts found
    rw [tokenLength] at passed
    -- The next pass starts behind the NUL that has replaced the separator, or at the end of the string.
    have onward (rc : Int) (repeatable : BitVec 32) (w : W) :
        runLoop table flag b' (if text.drop sep = [] then front.length + sep else front.length + sep + 1) rc repeatable
            w =
          some (runTokens table flag (tokens 0 (text.drop (sep + 1))) rc repeatable w) := by
      have tail : text.drop (sep + 1) = (text.drop sep).tail := List.tail_drop.symm
      rw [tail]
      cases behind : text.drop sep with
      | nil =>
        rw [behind, if_pos rfl] at cmdbuf'
        have position : front.length + sep = (front ++ text.take sep).length := by rw [List.length_append, tokenLength]
        rw [if_pos rfl, position]
        exact runLoop_nil table cmdbuf' 0 flag rc repeatable w
      | cons c more =>
        rw [behind, if_neg (List.cons_ne_nil c more), List.tail_cons] at cmdbuf'
        have position : front.length + sep + 1 = (front ++ text.take sep ++ [0]).length := by
          simp only [List.length_append, tokenLength, List.length_singleton]
        have shorter : more.length < n := by
          have drop := congrArg List.length behind
          rw [List.length_drop, List.length_cons] at drop
          omega
        have cleanMore : 0 ∉ more := by
          intro zero
          rw [behind] at cleanParts
          exact cleanParts (List.mem_append_right _ (List.mem_cons_of_mem c zero))
        have wholeMore : b'.cmdbuf = front ++ text.take sep ++ [0] ++ more ++ 0 :: rest := by
          rw [cmdbuf']
          simp
        rw [if_neg (List.cons_ne_nil c more), List.tail_cons, position]
        exact ih more.length shorter sized' wholeMore cleanMore (.inl List.getLast?_concat) rc repeatable w rfl
    obtain ⟨c, more, text_eq⟩ := List.exists_cons_of_ne_nil nonempty
    have char : c ≠ 0 := by
      rintro rfl
      exact clean (by simp [text_eq])
    have here : b.cmdbuf[front.length]? = some c := by
      rw [whole, parts, text_eq]
      simp
    rw [runLoop_step table here char passed, runTokens]
    split
    · exact onward _ _ _
    · exact onward _ _ _

/-- Unless its first byte is a quote, a string is run inside the buffers, as the model over lists says. -/
theorem cliSimpleRunCommandBuf_eq (sized : Sized b) (clean : 0 ∉ cmd) (plain : cmd.head? ≠ some quote)
    (front : W → UInt8) (flag : Nat) (w : W) :
    cliSimpleRunCommandBuf table b cmd flag w = some (cliSimpleRunCommand table front cmd flag w) := by
  unfold cliSimpleRunCommandBuf cliSimpleRunCommand
  split
  · rfl
  split
  · rfl
  next nonempty fits =>
  have copied := strcpy_eq (sized.cmdbuf ▸ Nat.lt_of_not_le fits)
  have size := (strcpy_length copied).trans sized.cmdbuf
  have start : ([] : List UInt8).getLast? = some (front w) ∨ ([] : List UInt8) = [] ∧ cmd.head? ≠ some quote :=
    .inr ⟨rfl, plain⟩
  have run := runLoop_eq table (b := ⟨_, b.finaltoken, b.argv⟩) ⟨size, sized.finaltoken, sized.argv⟩ rfl clean start
    flag 0 1 w
  rw [List.length_nil] at run
  rw [copied, Option.bind_eq_bind, Option.bind_some, run]
  rfl

/-- A quote in the first byte leads in front of `cmdbuf`. -/
theorem cliSimpleRunCommandBuf_quote (sized : Sized b) (fits : (quote :: text).length < sysCbsize) (flag : Nat)
    (w : W) :
    cliSimpleRunCommandBuf table b (quote :: text) flag w = none := by
  have copied := strcpy_eq (sized.cmdbuf ▸ fits)
  have outside : nextToken ⟨quote :: text ++ 0 :: b.cmdbuf.drop ((quote :: text).length + 1), b.finaltoken, b.argv⟩ 0 =
      none := by
    rw [nextToken, List.cons_append, findSeparator_quote]
    rfl
  rw [cliSimpleRunCommandBuf, if_neg (List.cons_ne_nil quote text), if_neg (Nat.not_le_of_lt fits), copied,
    Option.bind_eq_bind, Option.bind_some, runLoop_fault table rfl (by decide) outside]
  rfl

/-- The two copies of the string and the arguments stay in their arrays exactly if the string does not start with a
quote, or is refused before it is copied. -/
theorem parsing_in_buffers_iff (sized : Sized b) (clean : 0 ∉ cmd) (flag : Nat) (w : W) :
    (∃ result, cliSimpleRunCommandBuf table b cmd flag w = some result) ↔
      cmd = [] ∨ sysCbsize ≤ cmd.length ∨ cmd.head? ≠ some quote := by
  constructor
  · rintro ⟨result, inside⟩
    by_contra outside
    push Not at outside
    obtain ⟨-, fits, first⟩ := outside
    obtain ⟨text, rfl⟩ := List.head?_eq_some_iff.mp first
    rw [cliSimpleRunCommandBuf_quote table sized fits] at inside
    cases inside
  · rintro (rfl | long | plain)
    · exact ⟨_, rfl⟩
    · rw [cliSimpleRunCommandBuf, if_pos long, ite_self]
      exact ⟨_, rfl⟩
    · exact ⟨_, cliSimpleRunCommandBuf_eq table sized clean plain (fun _ => 0) flag w⟩

end

/-- The arrays as zeroed memory has them. -/
def zeroBuffers : Buffers := ⟨.replicate sysCbsize 0, .replicate sysCbsize 0, .replicate (sysMaxargs + 1) none⟩

private theorem zeroBuffers_sized : Sized zeroBuffers :=
  ⟨List.length_replicate, List.length_replicate, List.length_replicate⟩

/-- A lone quote is looked at with the byte in front of the array. -/
theorem parsing_in_buffers_quote :
    cliSimpleRunCommandBuf ([] : List (CmdTbl Unit)) zeroBuffers [quote] 0 () = none :=
  cliSimpleRunCommandBuf_quote [] zeroBuffers_sized (by decide) 0 ()

/-- A quote after the first byte does no harm. -/
theorem parsing_in_buffers_blank :
    ∃ result, cliSimpleRunCommandBuf ([] : List (CmdTbl Unit)) zeroBuffers [' '.toUInt8, quote] 0 () = some result :=
  (parsing_in_buffers_iff [] zeroBuffers_sized (by decide) 0 ()).mpr (.inr (.inr (by decide)))

end RockOs.CommandBuffers
