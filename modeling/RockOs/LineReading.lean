import RockOs.LineRefinement

/-! Whole lines: the loop of `cread_line` from the first byte of a prompt to the
one that ends it, what Enter hands back, and the histories prompts can find. -/
namespace RockOs.LineReading
open CliReadline Config LineBuffer LineEditor LineRefinement Machine

theorem turn_entered (ends : ch = '\n'.toUInt8 ∨ ch = '\r'.toUInt8) (complete : (Nat → UInt8) → Nat → Completion)
    (r : Reader) :
    turn complete ch r = .ret .entered { r with output := r.output ++ Ctype.ascii ['\n', '\r'] } := by
  have nonzero : ch ≠ 0 := by
    rcases ends with rfl | rfl <;> decide
  unfold turn
  rw [bind_of_ret (read_apply r), if_neg nonzero, if_pos ends]
  rfl

/-- `^C` outside an escape sequence leaves the empty string in the buffer. -/
theorem turn_interrupted (idle : (editor r).pending = []) (complete : (Nat → UInt8) → Nat → Completion) :
    turn complete (ctlCh 'c') r = .ret .interrupted { r with buf := Function.update r.buf 0 0 } := by
  have none : ¬ r.escLen ≠ 0 := by
    rw [← pending_length, idle]
    exact fun some => some rfl
  unfold turn
  rw [bind_of_ret (read_apply r), if_neg (by decide), if_neg (by decide), if_neg none, keyAction_eq,
    show keyOf (ctlCh 'c') = .interrupt from rfl, keyCode, bind_of_ret (storeBuf_apply (Nat.zero_le _) 0 r)]
  rfl

theorem status_entered {ed : Editor} (status : ed.status ch = .entered) : ch = '\n'.toUInt8 ∨ ch = '\r'.toUInt8 := by
  by_contra none
  rw [Editor.status, if_neg none] at status
  split at status <;> cases status

theorem status_interrupted {ed : Editor} (status : ed.status ch = .interrupted) : ed.pending = [] ∧ ch = ctlCh 'c' := by
  have goes_on : ¬ (ch = '\n'.toUInt8 ∨ ch = '\r'.toUInt8) := by
    intro ends
    rw [Editor.status, if_pos ends] at status
    cases status
  by_contra none
  rw [Editor.status, if_neg goes_on, if_neg none] at status
  cases status

theorem bounds (ready : Ready (editor r)) : r.num ≤ r.eolNum ∧ r.eolNum ≤ sysCbsize :=
  ⟨text_length r ▸ ready.within, text_length r ▸ ready.room⟩

/-- What the loop has come to: it stopped for the reason the list editor stops, with
the history that one has, and, unless it was interrupted, its line. -/
structure Loops (complete : (Nat → UInt8) → Nat → Completion) (input : List UInt8) (r r' : Reader) : Prop where
  returns : creadLoop complete input r = .ret ((editor r).run input).1 r'
  hist : r'.hist = ((editor r).run input).2.hist
  bounds : r'.num ≤ r'.eolNum ∧ r'.eolNum ≤ sysCbsize
  line : ((editor r).run input).1 ≠ .interrupted → editor r' = ((editor r).run input).2
  buffer : ((editor r).run input).1 = .interrupted → r'.buf 0 = 0
  shown : ((editor r).run input).1 = .reading → r'.output = r.output ++ (editor r).runEcho input

/-- The loop does what the list editor does, byte for byte. -/
theorem creadLoop_loops (ready : Ready (editor r)) (no_tab : '\t'.toUInt8 ∉ input)
    (complete : (Nat → UInt8) → Nat → Completion) : ∃ r', Loops complete input r r' := by
  induction input generalizing r with
  | nil =>
    exact ⟨r, rfl, rfl, bounds ready, fun _ => rfl, (fun stopped => by cases stopped), fun _ => (List.append_nil _).symm⟩
  | cons ch input ih =>
    have other : ch ≠ '\t'.toUInt8 := fun tab => no_tab (tab ▸ List.mem_cons_self ..)
    cases status : (editor r).status ch with
    | reading =>
      obtain ⟨r₁, turned, stands, written⟩ : Does (turn complete ch) r .reading _ _ :=
        turn_does ready (fun _ => other) status
      have ready₁ : Ready (editor r₁) := stands ▸ step_ready ready ch
      obtain ⟨r', returns, hist, inside, line, buffer, shown⟩ :=
        ih ready₁ fun tab => no_tab (List.mem_cons_of_mem _ tab)
      have onward : (editor r).run (ch :: input) = (editor r₁).run input := by
        rw [Editor.run, if_pos status, stands]
      refine ⟨r', ?_, ?_, inside, ?_, ?_, ?_⟩
      · rw [creadLoop, bind_of_ret turned, onward]
        exact returns
      · rw [onward]
        exact hist
      · rw [onward]
        exact line
      · rw [onward]
        exact buffer
      · rw [onward]
        intro goes_on
        rw [shown goes_on, written, stands, List.append_assoc]
        rfl
    | entered =>
      have ends := status_entered status
      have stopped : (editor r).run (ch :: input) = (.entered, editor r) := by
        rw [Editor.run, status]
        rfl
      refine ⟨{ r with output := r.output ++ Ctype.ascii ['\n', '\r'] }, ?_, ?_, bounds ready, ?_, ?_, ?_⟩
      · rw [creadLoop, bind_of_ret (turn_entered ends complete r), stopped]
        rfl
      · rw [stopped]
        rfl
      · rw [stopped]
        exact fun _ => rfl
      · rw [stopped]
        exact fun other => by cases other
      · rw [stopped]
        exact fun other => by cases other
    | interrupted =>
      obtain ⟨idle, rfl⟩ := status_interrupted status
      have stopped : (editor r).run (ctlCh 'c' :: input) = (.interrupted, editor r) := by
        rw [Editor.run, status]
        rfl
      have inside := bounds ready
      refine ⟨{ r with buf := Function.update r.buf 0 0 }, ?_, ?_, ?_, ?_, ?_, ?_⟩
      · rw [creadLoop, bind_of_ret (turn_interrupted idle complete), stopped]
        rfl
      · rw [stopped]
        rfl
      · exact inside
      · rw [stopped]
        exact fun other => absurd rfl other
      · exact fun _ => Function.update_self (0 : Nat) (0 : UInt8) r.buf
      · rw [stopped]
        exact fun other => by cases other

theorem run_ready (ready : Ready ed) (input : List UInt8) : Ready (ed.run input).2 := by
  induction input generalizing ed with
  | nil => exact ready
  | cons ch input ih =>
    rw [Editor.run]
    split
    · exact ih (step_ready ready ch)
    · exact ready

/-- Text typed at the end of a line that has room for it. -/
theorem addStr_end {ed : Editor} {str : List UInt8} (inserts : ed.insert = true) (at_end : ed.cursor = ed.text.length)
    (room : ed.text.length + str.length ≤ sysCbsize) :
    ed.addStr str = { ed with text := ed.text ++ str, cursor := ed.text.length + str.length } := by
  induction str generalizing ed with
  | nil =>
    rw [List.append_nil, List.length_nil, Nat.add_zero, ← at_end]
    rfl
  | cons ch str ih =>
    rw [List.length_cons] at room ⊢
    have typed : ed.addChar ch = { ed with text := ed.text ++ [ch], cursor := ed.text.length + 1 } := by
      unfold Editor.addChar
      rw [if_pos (Or.inl inserts), if_pos (by omega), at_end, List.take_length, List.drop_length]
    show (ed.addChar ch).addStr str = _
    rw [typed, ih (by exact inserts) (by simp) (by simp only [List.length_append, List.length_singleton]; omega)]
    simp only [List.append_assoc, List.singleton_append, List.length_append, List.length_singleton,
      Editor.mk.injEq, true_and, and_true]
    omega

theorem cString_nonzero (buf : Nat → UInt8) : 0 ∉ cString buf := by
  intro member
  exact absurd (List.mem_takeWhile_imp member) (by decide)

theorem start_ready (ok : HistOk hist) (held : text.length ≤ sysCbsize) (clean : 0 ∉ text) :
    Ready (Editor.start text hist) :=
  ⟨⟨Nat.le_refl _, held, clean, ok⟩, by show [] ∈ beginnings; decide⟩

theorem cString_empty (zero : buf 0 = 0) : cString buf = [] := by
  unfold cString bytes
  rw [List.range_succ_eq_map, List.map_cons, Nat.add_zero, List.takeWhile_cons_of_neg (by simp [zero])]

/-- The text already in the buffer is typed before the first byte is read. -/
theorem fresh_does {r : Reader} (ok : HistOk r.hist) (held : (cString r.buf).length ≤ sysCbsize) :
    ∃ r', creadAddStr (cString r.buf) true r.fresh = .ret () r' ∧
      editor r' = Editor.start (cString r.buf) r.hist := by
  have empty : editor r.fresh = Editor.start [] r.hist := rfl
  have sound : Sound (editor r.fresh) := (start_ready ok (Nat.zero_le _) List.not_mem_nil).toSound
  obtain ⟨r', typed, stands, -⟩ := creadAddStr_does sound (cString_nonzero r.buf)
  refine ⟨r', typed, ?_⟩
  rw [stands, empty, addStr_end rfl rfl (by simpa [Editor.start] using held)]
  simp [Editor.start]

/-- The string in the buffer once the line is ended. -/
theorem cString_ended (room : n ≤ sysCbsize) (clean : 0 ∉ bytes buf 0 n) :
    cString (Function.update buf n 0) = bytes buf 0 n := by
  have kept : ∀ i < n, Function.update buf n 0 (0 + i) = buf (0 + i) := by
    intro i before
    exact Function.update_of_ne (by omega) ..
  have nonzero : ∀ i < n, Function.update buf n 0 (0 + i) ≠ 0 := by
    intro i before zero
    rw [kept i before] at zero
    exact clean (List.mem_map.mpr ⟨i, List.mem_range.mpr before, zero⟩)
  unfold cString bytes
  rw [Console.takeWhile_range nonzero (by rw [Nat.zero_add, Function.update_self]) (by omega)]
  exact List.map_congr_left fun i member => kept i (List.mem_range.mp member)

private theorem creadAddToHist_ok (ok : HistOk h) (room : line.length ≤ sysCbsize) (clean : 0 ∉ line) :
    ∃ h', creadAddToHist line h = some h' ∧ HistOk h' := by
  obtain ⟨max_lt, add_le, cur_le, short, nonzero⟩ := ok
  have wraps : (if histMax ≤ h.addIdx + 1 then 0 else h.addIdx + 1) < histMax := by
    have positive : 0 < histMax := by decide
    split <;> omega
  have short' : ∀ i, (Function.update h.lines h.addIdx line i).length ≤ sysCbsize := by
    intro i
    by_cases here : i = h.addIdx
    · rw [here, Function.update_self]
      exact room
    · rw [Function.update_of_ne here]
      exact short i
  have nonzero' : ∀ i, 0 ∉ Function.update h.lines h.addIdx line i := by
    intro i
    by_cases here : i = h.addIdx
    · rw [here, Function.update_self]
      exact clean
    · rw [Function.update_of_ne here]
      exact nonzero i
  unfold creadAddToHist
  rw [if_pos ⟨by omega, room⟩]
  generalize (if histMax ≤ h.addIdx + 1 then 0 else h.addIdx + 1) = next at wraps
  refine ⟨_, rfl, ?_, ?_, ?_, short', nonzero'⟩
  · dsimp only
    split <;> omega
  · dsimp only
    split <;> omega
  · dsimp only
    split <;> omega

theorem storeLine_ok (ok : HistOk h) (room : line.length ≤ sysCbsize) (clean : 0 ∉ line) :
    HistOk (storeLine h line) := by
  unfold storeLine
  obtain ⟨h', stored, ok'⟩ := creadAddToHist_ok ok room clean
  rw [stored]
  dsimp only [Option.getD_some]
  split
  · exact ⟨ok.max_lt, ok.add_le, Int.ofNat_le.mpr ok.add_le, ok.short, ok.nonzero⟩
  · exact ⟨ok'.max_lt, ok'.add_le, Int.ofNat_le.mpr ok'.add_le, ok'.short, ok'.nonzero⟩

private theorem cString_head (buf : Nat → UInt8) : (cString buf).head? = if buf 0 = 0 then none else some (buf 0) := by
  unfold cString bytes
  rw [List.range_succ_eq_map, List.map_cons, Nat.add_zero]
  split
  · next zero =>
    rw [List.takeWhile_cons_of_neg (by simp [zero])]
    rfl
  · next char =>
    rw [List.takeWhile_cons_of_pos (by simp [char])]
    rfl

private theorem cString_skipped {buf : Nat → UInt8} :
    (cString buf = [] ∨ (cString buf).head? = some '!'.toUInt8) ↔ ¬ (buf 0 ≠ 0 ∧ buf 0 ≠ '!'.toUInt8) := by
  rw [← List.head?_eq_none_iff, cString_head]
  by_cases zero : buf 0 = 0
  · simp [zero]
  · simp [zero]

/-- A string that ends inside the buffer. -/
theorem cString_short (zero : buf n = 0) (room : n ≤ sysCbsize) : (cString buf).length ≤ sysCbsize := by
  by_contra long
  have inside : n < (cString buf).length := by omega
  have whole : cString buf <+: bytes buf 0 (sysCbsize + 1) := List.takeWhile_prefix _
  have char : (cString buf)[n]? = some (buf n) := by
    rw [List.getElem?_eq_getElem inside, whole.getElem inside, ← List.getElem?_eq_getElem, getElem?_bytes,
      if_pos (by omega), Nat.zero_add]
  rw [zero] at char
  exact cString_nonzero buf (List.mem_of_getElem? char)

/-- Enter ends the line in the buffer and stores the string that is there then. -/
theorem creadEnter_eq (ok : HistOk r.hist) (room : r.eolNum ≤ sysCbsize) :
    creadEnter r =
      .ret () { r with
        buf := Function.update r.buf r.eolNum 0
        hist := storeLine r.hist (cString (Function.update r.buf r.eolNum 0)) } := by
  unfold creadEnter storeLine
  rw [bind_of_ret (read_apply r), bind_of_ret (storeBuf_apply room 0 r), bind_of_ret (read_apply _)]
  have short : (cString (Function.update r.buf r.eolNum 0)).length ≤ sysCbsize :=
    cString_short (Function.update_self ..) room
  obtain ⟨h', stored, -⟩ := creadAddToHist_ok ok short (cString_nonzero _)
  by_cases kept : Function.update r.buf r.eolNum 0 0 ≠ 0 ∧ Function.update r.buf r.eolNum 0 0 ≠ '!'.toUInt8
  · rw [if_pos kept, if_neg fun skipped => cString_skipped.mp skipped kept, stored]
    rfl
  · rw [if_neg kept, if_pos (cString_skipped.mpr kept)]
    rfl

private theorem creadEnter_apply (ready : Ready (editor r)) :
    creadEnter r =
      .ret () { r with
        buf := Function.update r.buf r.eolNum 0
        hist := storeLine r.hist (editor r).text } := by
  have room := (bounds ready).2
  have line : cString (Function.update r.buf r.eolNum 0) = (editor r).text := cString_ended room ready.nonzero
  rw [creadEnter_eq ready.hist room, line]

/-- The histories prompts can find: strings that fit a line have been entered, and
any number of recalls made, since `hist_init`. -/
inductive Recorded : History → Prop
  | init : Recorded histInit
  | entered : Recorded h → line.length ≤ sysCbsize → 0 ∉ line → Recorded (storeLine h line)
  | prev : Recorded h → Recorded (histPrev h).2
  | next : Recorded h → Recorded (histNext h).2

theorem Recorded.ok (recorded : Recorded h) : HistOk h := by
  induction recorded with
  | init => exact ⟨by decide, by decide, by decide, fun _ => Nat.zero_le _, fun _ => List.not_mem_nil⟩
  | entered _ room clean ih => exact storeLine_ok ih room clean
  | prev _ ih => exact (histPrev_ok ih).1
  | next _ ih => exact (histNext_ok ih).1

/-- `cread_line` has come to what the list editor has come to: the same line and
cursor while it reads, and on Enter the length of the line, ended by NUL. -/
structure Refined (done : Status × Editor) (result : Result) (r : Reader) : Prop where
  bounds : r.num ≤ r.eolNum ∧ r.eolNum ≤ sysCbsize
  reading : done.1 = .reading →
    result = .reading ∧ bytes r.buf 0 r.eolNum = done.2.text ∧ r.num = done.2.cursor
  entered : done.1 = .entered →
    result = .line done.2.text.length ∧ r.eolNum = done.2.text.length ∧
      bytes r.buf 0 r.eolNum = done.2.text ∧ r.buf r.eolNum = 0
  interrupted : done.1 = .interrupted → result = .interrupted ∧ r.buf 0 = 0

/-- The exits of `cread_line` in a reader that stands for what the loop has come to, or has an empty buffer. -/
theorem creadFinish_apply (ready : Ready done.2) (hist : r.hist = done.2.hist)
    (inside : r.num ≤ r.eolNum ∧ r.eolNum ≤ sysCbsize) (line : done.1 ≠ .interrupted → editor r = done.2)
    (buffer : done.1 = .interrupted → r.buf 0 = 0) :
    ∃ result r', creadFinish done.1 r = .ret result r' ∧ Refined done result r' ∧
      r'.hist = Editor.histAfter done := by
  obtain ⟨status, ed⟩ := done
  cases status with
  | reading =>
    have same : editor r = ed := line nofun
    refine ⟨.reading, r, rfl, ⟨inside, fun _ => ?_, nofun, nofun⟩, hist⟩
    exact ⟨rfl, congrArg Editor.text same, congrArg Editor.cursor same⟩
  | entered =>
    have same : editor r = ed := line nofun
    subst same
    have ended := creadEnter_apply ready
    refine ⟨.line r.eolNum, { r with buf := Function.update r.buf r.eolNum 0, hist := storeLine r.hist (editor r).text },
      ?_, ⟨inside, nofun, fun _ => ?_, nofun⟩, rfl⟩
    · rw [creadFinish, bind_of_ret (read_apply r), bind_of_ret ended]
      rfl
    · exact ⟨congrArg Result.line (text_length r).symm, (text_length r).symm, bytes_update_after,
        Function.update_self r.eolNum 0 r.buf⟩
  | interrupted => exact ⟨.interrupted, r, rfl, ⟨inside, nofun, nofun, fun _ => ⟨rfl, buffer rfl⟩⟩, hist⟩

theorem creadLine_refined (ok : HistOk r.hist) (held : (cString r.buf).length ≤ sysCbsize)
    (no_tab : '\t'.toUInt8 ∉ input) (complete : (Nat → UInt8) → Nat → Completion)
    (done_eq : (Editor.start (cString r.buf) r.hist).run input = done) :
    ∃ result r', creadLine complete input r = .ret result r' ∧ Refined done result r' ∧
      r'.hist = Editor.histAfter done := by
  obtain ⟨r₁, typed, stands⟩ := fresh_does ok held
  rw [← stands] at done_eq
  have ready : Ready (editor r₁) := stands ▸ start_ready ok held (cString_nonzero r.buf)
  obtain ⟨r₂, loops⟩ := creadLoop_loops ready no_tab complete
  have looped := loops.returns
  rw [done_eq] at looped
  have begins : creadLine complete input r = creadFinish done.1 r₂ := by
    unfold creadLine
    rw [bind_of_ret (read_apply r), bind_of_ret (write_apply _ _), bind_of_ret typed, bind_of_ret looped]
  have ready₂ := run_ready ready input
  obtain ⟨-, hist, inside, line, buffer, -⟩ := loops
  rw [done_eq] at hist line buffer ready₂
  rw [begins]
  exact creadFinish_apply ready₂ hist inside line buffer

theorem cliReadline_refined (ok : HistOk r.hist) (no_tab : '\t'.toUInt8 ∉ input)
    (complete : (Nat → UInt8) → Nat → Completion) (prompt : List UInt8)
    (done_eq : (Editor.start [] r.hist).run input = done) :
    ∃ result r', cliReadline complete prompt input r = .ret result r' ∧ Refined done result r' ∧
      r'.hist = Editor.histAfter done := by
  have empty : cString (Function.update r.buf 0 0) = [] := cString_empty (Function.update_self ..)
  unfold cliReadline
  rw [bind_of_ret (storeBuf_apply (Nat.zero_le _) 0 r), bind_of_ret (putcs_apply prompt _)]
  apply creadLine_refined (by exact ok) (by rw [empty]; exact Nat.zero_le _) no_tab
  rw [empty]
  exact done_eq

/-- For every buffer that holds a string, every history and every input without TAB,
`cread_line` stores nothing outside its buffers and refines the list editor after
every byte. -/
theorem cread_line_refines (complete : (Nat → UInt8) → Nat → Completion) (r : Reader) (input : List UInt8)
    (recorded : Recorded r.hist) (held : (cString r.buf).length ≤ sysCbsize) (no_tab : '\t'.toUInt8 ∉ input) :
    ∃ result r', creadLine complete input r = .ret result r' ∧
      Refined ((Editor.start (cString r.buf) r.hist).run input) result r' := by
  obtain ⟨result, r', returned, refined, -⟩ := creadLine_refined recorded.ok held no_tab complete rfl
  exact ⟨result, r', returned, refined⟩

/-- A reader at the first prompt. -/
def firstReader : Reader := ⟨fun _ => 0, 0, 0, true, 0, fun _ => 0, histInit, []⟩

/-- `ab`, the left arrow key, `c` and Enter: the line is `acb`. -/
theorem cread_line_refines_arrow :
    ∃ result r', creadLine (fun buf num => ⟨false, buf, num, []⟩)
        [0x61, 0x62, 0x1b, 0x5b, 0x44, 0x63, 0x0d] firstReader = .ret result r' ∧
      Refined (.entered, ⟨[0x61, 0x63, 0x62], 2, true, [], histInit⟩) result r' := by
  have empty : cString firstReader.buf = [] := cString_empty rfl
  have refined := cread_line_refines (fun buf num => ⟨false, buf, num, []⟩) firstReader
    [0x61, 0x62, 0x1b, 0x5b, 0x44, 0x63, 0x0d] Recorded.init (by rw [empty]; exact Nat.zero_le _) (by decide)
  rw [empty] at refined
  exact refined

end RockOs.LineReading
