import RockOs.CliSimple

/-! Where a line is cut into commands. Quotes and backslashes are read twice: by the
separator loop of `cli_simple_run_command`, and by `cli_simple_process_macros` on the
token it cuts off. They see the same quotes except one after `$` or in a variable name,
which the second takes for an ordinary character. -/
namespace RockOs.Quoting
open CliSimple Config

/-- A character that comes after this text is, for `cli_simple_process_macros`, outside
quotes and not escaped. -/
def Outside (text : List UInt8) : Prop :=
  (Macro.loop .start text).state ≠ .quoted ∧ text.getLast? ≠ some backslash

instance (text : List UInt8) : Decidable (Outside text) :=
  inferInstanceAs (Decidable (_ ∧ _))

/-! ## The states of the macro expander -/

/-- The state after one character. -/
def next (state : MacroState) (prev c : UInt8) : MacroState :=
  if state ≠ .quoted ∧ c = backslash ∧ prev ≠ backslash then state
  else (Macro.switch ⟨state, prev, 0, []⟩ c).state

/-- The state after a text. -/
def follow : (state : MacroState) → (prev : UInt8) → (text : List UInt8) → MacroState
  | state, _, [] => state
  | state, prev, c :: text => follow (next state prev c) c text

/-- What is still to be put out for a character that has been read. -/
def owed (state : MacroState) : Nat := if state = .dollar then 1 else 0

private theorem switch_state (m : Macro) (c : UInt8) :
    (m.switch c).state = (Macro.switch ⟨m.state, m.prev, 0, []⟩ c).state := by
  obtain ⟨state, prev, outputcnt, output⟩ := m
  cases state with
  | plain =>
    dsimp only [Macro.switch]
    split_ifs <;> rfl
  | dollar =>
    dsimp only [Macro.switch]
    split_ifs <;> rfl
  | name =>
    dsimp only [Macro.switch]
    split_ifs <;> rfl
  | quoted =>
    dsimp only [Macro.switch]
    split_ifs <;> rfl

/-- A character puts out no more than itself and what was owed. -/
theorem switch_owed (m : Macro) (c : UInt8) :
    m.outputcnt + owed (m.switch c).state ≤ (m.switch c).outputcnt + 1 + owed m.state := by
  obtain ⟨state, prev, outputcnt, output⟩ := m
  cases state with
  | plain =>
    dsimp only [Macro.switch]
    split_ifs <;> simp only [owed, Macro.emit, reduceCtorEq, ↓reduceIte] <;> omega
  | dollar =>
    by_cases opens : c = '('.toUInt8 ∨ c = '\x7b'.toUInt8
    · simp only [Macro.switch, if_pos opens, owed, reduceCtorEq, ↓reduceIte]
      omega
    · simp only [Macro.switch, if_neg opens]
      split <;> simp only [owed, Macro.emit, reduceCtorEq, ↓reduceIte] at * <;> omega
  | name =>
    dsimp only [Macro.switch]
    split_ifs <;> simp only [owed, reduceCtorEq, ↓reduceIte] <;> omega
  | quoted =>
    dsimp only [Macro.switch]
    split_ifs <;> simp only [owed, Macro.emit, reduceCtorEq, ↓reduceIte] <;> omega

/-- On a text the output has room for, the loop comes to the state the characters
lead to. There the text ends, or the next character meets it, with the last one of the
text as the one before. -/
theorem loop_meets (m : Macro) (text : List UInt8) (room : text.length + owed m.state < m.outputcnt) :
    ∃ met : Macro, met.state = follow m.state m.prev text ∧ met.prev = text.getLastD m.prev ∧
      (m.loop text).state = met.state ∧ ∀ c rest, c ≠ backslash →
        m.loop (text ++ c :: rest) = Macro.loop { met.switch c with prev := c } rest := by
  induction m, text using Macro.loop.induct with
  | case1 m =>
    refine ⟨m, rfl, rfl, by rw [Macro.loop], fun c rest plain => ?_⟩
    rw [List.length_nil] at room
    rw [List.nil_append, Macro.loop.eq_def]
    dsimp only
    rw [if_neg (by omega), if_neg fun escape => plain escape.2.1]
  | case2 m c input full => omega
  | case3 m c more escape =>
    refine ⟨{ m with prev := c }, ?_, rfl, ?_, fun c' rest plain => ?_⟩
    · rw [follow, follow, next, if_pos escape]
    · rw [Macro.loop, if_neg more, if_pos escape]
    · rw [List.singleton_append, Macro.loop, if_neg more, if_pos escape]
  | case4 m c more escape c' input ih =>
    have within := switch_owed { m with prev := c } c'
    have unpaired : ¬ (m.state ≠ .quoted ∧ c' = backslash ∧ c ≠ backslash) := fun both => both.2.2 escape.2.1
    rw [List.length_cons, List.length_cons] at room
    dsimp only at within
    simp only [List.cons_append]
    rw [Macro.loop, if_neg more, if_pos escape, follow, next, if_pos escape, follow, next, if_neg unpaired,
      ← switch_state { m with prev := c }, List.getLastD_cons, List.getLastD_cons]
    obtain ⟨met, state, prev, ended, onward⟩ := ih (by dsimp only; omega)
    refine ⟨met, state, prev, ended, fun c'' rest plain => ?_⟩
    rw [Macro.loop, if_neg more, if_pos escape]
    exact onward c'' rest plain
  | case5 m c input more ordinary ih =>
    have within := switch_owed m c
    rw [List.length_cons] at room
    have turn : ∀ text, m.loop (c :: text) = Macro.loop { m.switch c with prev := c } text := by
      intro text
      rw [Macro.loop.eq_def]
      dsimp only
      rw [if_neg more, if_neg ordinary]
    simp only [List.cons_append, turn]
    rw [follow, next, if_neg ordinary, ← switch_state, List.getLastD_cons]
    exact ih (by dsimp only; omega)

/-- The state of `cli_simple_process_macros` after a text that fits its output. -/
theorem start_state (fits : text.length < sysCbsize) : (Macro.loop .start text).state = follow .plain 0 text := by
  obtain ⟨met, state, _, ended, _⟩ := loop_meets .start text fits
  rw [ended, state]
  rfl

/-- What `Outside` says of a text is what the expander goes by when it comes to a
semicolon behind it. -/
theorem outside_meets (fits : text.length < sysCbsize) (rest : List UInt8) :
    ∃ met : Macro, (Outside text ↔ met.state ≠ .quoted ∧ met.prev ≠ backslash) ∧
      Macro.loop .start (text ++ ';'.toUInt8 :: rest) = Macro.loop { met.switch ';'.toUInt8 with prev :=
        ';'.toUInt8 } rest := by
  obtain ⟨met, state, prev, _, looped⟩ := loop_meets .start text fits
  refine ⟨met, ?_, looped ';'.toUInt8 rest (by decide)⟩
  have last : text.getLastD 0 = backslash ↔ text.getLast? = some backslash := by
    rw [List.getLastD_eq_getLast?]
    cases text.getLast? with
    | none => decide
    | some c => simp
  rw [Outside, start_state fits, state, prev]
  exact and_congr_right fun _ => not_congr last.symm

/-! ## Quotes seen by both -/

/-- `inquotes` of the separator loop after a text. -/
def quoting : (inquotes : Bool) → (prev : UInt8) → (text : List UInt8) → Bool
  | inquotes, _, [] => inquotes
  | inquotes, prev, c :: text =>
    quoting (if c = quote ∧ prev ≠ backslash then !inquotes else inquotes) c text

/-- How many quotes the macro expander takes for ordinary characters. -/
def swallowed : (state : MacroState) → (prev : UInt8) → (text : List UInt8) → Nat
  | _, _, [] => 0
  | state, prev, c :: text =>
    (if c = quote ∧ prev ≠ backslash ∧ (state = .dollar ∨ state = .name) then 1 else 0) +
      swallowed (next state prev c) c text

/-- The state after a quote that is not escaped. -/
theorem next_quote (unescaped : prev ≠ backslash) :
    next .plain prev quote = .quoted ∧ next .dollar prev quote = .plain ∧ next .name prev quote = .name ∧
      next .quoted prev quote = .plain := by
  have other : ∀ state : MacroState, ¬ (state ≠ .quoted ∧ quote = backslash ∧ prev ≠ backslash) :=
    fun _ escape => absurd escape.2.1 (by decide)
  refine ⟨?_, ?_, ?_, ?_⟩
  · rw [next, if_neg (other _)]
    exact congrArg Macro.state (if_pos ⟨rfl, unescaped⟩)
  · rw [next, if_neg (other _)]
    rfl
  · rw [next, if_neg (other _)]
    rfl
  · rw [next, if_neg (other _)]
    exact congrArg Macro.state (if_pos ⟨rfl, unescaped⟩)

/-- Any other character leads neither into quotes nor out of them. -/
theorem next_other (other : ¬ (c = quote ∧ prev ≠ backslash)) (state : MacroState) :
    next state prev c = .quoted ↔ state = .quoted := by
  unfold next
  split
  · rfl
  · cases state with
    | plain =>
      simp only [Macro.switch, if_neg other]
      split <;> simp [Macro.emit]
    | dollar =>
      simp only [Macro.switch]
      split_ifs <;> simp [Macro.emit]
    | name =>
      simp only [Macro.switch]
      split <;> simp
    | quoted =>
      simp only [Macro.switch, if_neg other]
      simp [Macro.emit]

private theorem odd_succ (n : Nat) : decide ((1 + n) % 2 = 1) = !decide (n % 2 = 1) := by
  rcases Nat.mod_two_eq_zero_or_one n with even | odd
  · simp [even, Nat.add_mod]
  · simp [odd, Nat.add_mod]

/-- Both machines change sides at a quote, except where it is swallowed. -/
theorem quoting_follow (inquotes : Bool) (state : MacroState) (prev : UInt8) (text : List UInt8) :
    (quoting inquotes prev text ^^ decide (follow state prev text = .quoted)) =
      (inquotes ^^ (decide (state = .quoted) ^^ decide (swallowed state prev text % 2 = 1))) := by
  induction text generalizing inquotes state prev with
  | nil =>
    rw [quoting, follow, swallowed, Nat.zero_mod, decide_eq_false Nat.zero_ne_one, Bool.xor_false]
  | cons c text ih =>
    rw [quoting, follow, swallowed, ih]
    by_cases unescaped : c = quote ∧ prev ≠ backslash
    · rw [if_pos unescaped]
      obtain ⟨rfl, free⟩ := unescaped
      obtain ⟨plain, dollar, name, quoted⟩ := next_quote free
      cases state with
      | plain =>
        rw [plain, if_neg (by simp), Nat.zero_add]
        simp
      | dollar =>
        rw [dollar, if_pos ⟨rfl, free, Or.inl rfl⟩, odd_succ]
        simp
      | name =>
        rw [name, if_pos ⟨rfl, free, Or.inr rfl⟩, odd_succ]
        simp
      | quoted =>
        rw [quoted, if_neg (by simp), Nat.zero_add]
        simp
    · have same := next_other unescaped state
      rw [if_neg unescaped, if_neg fun both => unescaped ⟨both.1, both.2.1⟩, Nat.zero_add, decide_eq_decide.mpr same]

/-! ## The separator loop -/

/-- At a semicolon it reaches, the separator loop stops if it is outside quotes and the
character before is no backslash. -/
theorem separator_stops (inquotes first : Bool) (prev : UInt8) (str : List UInt8) (i : Nat)
    (semicolon : str[i]? = some ';'.toUInt8) (past : 0 < i ∨ first = false)
    (reached : i ≤ separator inquotes first prev str) :
    separator inquotes first prev str = i ↔
      quoting inquotes prev (str.take i) = false ∧ (str.take i).getLastD prev ≠ backslash := by
  induction str generalizing inquotes first prev i with
  | nil => simp at semicolon
  | cons c str ih =>
    cases i with
    | zero =>
      obtain rfl : c = ';'.toUInt8 := by simpa using semicolon
      obtain rfl : first = false := past.resolve_left (Nat.lt_irrefl 0)
      have other : ¬ (';'.toUInt8 = quote ∧ prev ≠ backslash) := fun both => absurd both.1 (by decide)
      rw [separator, if_neg other, List.take_zero, quoting, List.getLastD_nil]
      cases inquotes <;> by_cases escaped : prev = backslash <;> simp [escaped]
    | succ i =>
      rw [separator] at reached ⊢
      generalize turned : (if c = quote ∧ prev ≠ backslash then !inquotes else inquotes) = inquotes' at reached ⊢
      split at reached
      · omega
      · next goes_on =>
        rw [if_neg goes_on, Nat.add_right_cancel_iff,
          ih inquotes' false c i (by simpa using semicolon) (Or.inr rfl) (by omega), List.take_succ_cons, quoting,
            turned,
          List.getLastD_cons]

/-- How often the two have not seen the same quote before this point of a token. The
first character is read by the separator loop with the byte in front of the token. -/
def misread (prev : UInt8) (text : List UInt8) : Nat :=
  (if prev = backslash ∧ text.head? = some quote then 1 else 0) + swallowed .plain 0 text

private theorem quoting_not (inquotes : Bool) (prev : UInt8) (text : List UInt8) :
    quoting (!inquotes) prev text = !quoting inquotes prev text := by
  induction text generalizing inquotes prev with
  | nil => rfl
  | cons c text ih =>
    rw [quoting, quoting]
    split
    · exact ih _ _
    · exact ih _ _

private theorem quoting_front (prev : UInt8) (text : List UInt8) :
    quoting false prev text = (quoting false 0 text ^^ decide (prev = backslash ∧ text.head? = some quote)) := by
  cases text with
  | nil => simp [quoting]
  | cons c text =>
    rw [quoting, quoting, List.head?_cons]
    by_cases here : c = quote
    · by_cases behind : prev = backslash
      · rw [if_neg fun both => both.2 behind, if_pos ⟨here, by decide⟩, quoting_not,
          decide_eq_true ⟨behind, by rw [here]⟩]
        simp
      · rw [if_pos ⟨here, behind⟩, if_pos ⟨here, by decide⟩, decide_eq_false fun both => behind both.1, Bool.xor_false]
    · simp [here]

private theorem misread_odd (prev : UInt8) (text : List UInt8) :
    decide (misread prev text % 2 = 1) =
      (decide (prev = backslash ∧ text.head? = some quote) ^^ decide (swallowed .plain 0 text % 2 = 1)) := by
  unfold misread
  by_cases front : prev = backslash ∧ text.head? = some quote
  · rw [if_pos front, odd_succ, decide_eq_true front, Bool.true_xor]
  · rw [if_neg front, Nat.zero_add, decide_eq_false front, Bool.false_xor]

/-- At every semicolon past the start of a token that the separator loop reaches, it cuts exactly where the macro
expander is outside quotes and sees no escape, if and only if the semicolon is escaped or the two have differed over
an even number of quotes before it. -/
theorem separators_agree_iff (prev : UInt8) (str : List UInt8) (i : Nat) (fits : str.length < sysCbsize)
    (semicolon : str[i]? = some ';'.toUInt8) (past : 0 < i) (reached : i ≤ separator false true prev str) :
    (separator false true prev str = i ↔ Outside (str.take i)) ↔
      (str.take i).getLast? = some backslash ∨ misread prev (str.take i) % 2 = 0 := by
  have inside : i < str.length := (List.getElem?_eq_some_iff.mp semicolon).1
  have nonempty : str.take i ≠ [] := List.ne_nil_of_length_pos (by rw [List.length_take]; omega)
  rw [separator_stops false true prev str i semicolon (Or.inl past) reached, Outside,
    start_state (by rw [List.length_take]; omega)]
  have last : (str.take i).getLastD prev = backslash ↔ (str.take i).getLast? = some backslash := by
    rw [List.getLastD_eq_getLast?, List.getLast?_eq_some_getLast nonempty]
    simp
  have sides := quoting_follow false .plain 0 (str.take i)
  have quotes : quoting false prev (str.take i) =
      (decide (follow .plain 0 (str.take i) = .quoted) ^^ decide (misread prev (str.take i) % 2 = 1)) := by
    rw [quoting_front, misread_odd]
    revert sides
    cases quoting false 0 (str.take i) <;> cases decide (follow .plain 0 (str.take i) = .quoted) <;>
      cases decide (swallowed .plain 0 (str.take i) % 2 = 1) <;>
        cases decide (prev = backslash ∧ (str.take i).head? = some quote) <;> decide
  by_cases escaped : (str.take i).getLast? = some backslash
  · exact iff_of_true (iff_of_false (fun cut => cut.2 (last.mpr escaped)) fun outside => outside.2 escaped)
      (Or.inl escaped)
  · rw [and_iff_left fun behind => escaped (last.mp behind), and_iff_left escaped, or_iff_right escaped, quotes]
    rcases Nat.mod_two_eq_zero_or_one (misread prev (str.take i)) with even | odd
    · simp [even]
    · by_cases quoted : follow .plain 0 (str.take i) = .quoted <;> simp [odd, quoted]

/-- Quotes around a semicolon, an escaped one, and two quotes that the macro expander
swallows, each after a dollar sign. -/
theorem separators_agree_quoted :
    separator false true 0 [0x61, 0x27, 0x3b, 0x27, 0x5c, 0x3b, 0x24, 0x27, 0x24, 0x27, 0x3b, 0x62] = 10 ∧
      misread 0 [0x61, 0x27, 0x3b, 0x27, 0x5c, 0x3b, 0x24, 0x27, 0x24, 0x27] = 2 ∧
        Outside [0x61, 0x27, 0x3b, 0x27, 0x5c, 0x3b, 0x24, 0x27, 0x24, 0x27] := by
  have cut : separator false true 0 [0x61, 0x27, 0x3b, 0x27, 0x5c, 0x3b, 0x24, 0x27, 0x24, 0x27, 0x3b, 0x62] =
      10 := by decide
  refine ⟨cut, by decide, ((separators_agree_iff 0 [0x61, 0x27, 0x3b, 0x27, 0x5c, 0x3b, 0x24, 0x27, 0x24, 0x27, 0x3b,
    0x62] 10 (by decide) rfl (by decide) (by decide)).mpr (.inr (by decide))).mp cut⟩

/-- In the text x $ ' ; y the quote after the dollar sign keeps the separator loop from cutting at the semicolon,
which the macro expander sees outside quotes. -/
theorem separators_differ :
    separator false true 0 [0x78, 0x24, 0x27, 0x3b, 0x79] = 5 ∧ Outside [0x78, 0x24, 0x27] ∧
      ([0x78, 0x24, 0x27, 0x3b, 0x79] : List UInt8)[3]? = some ';'.toUInt8 := by
  decide

end RockOs.Quoting
