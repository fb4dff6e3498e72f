import RockOs.Completion
import RockOs.LineReading

/-! How long a line can get. A tab completes a command with `cmd_auto_complete`, so
the list editor gets a key that lets the line grow; apart from that a line grows by
what is typed in and by recalls. -/
namespace RockOs.LineLimit
open CliReadline CliSimple Completion Config LineBuffer LineEditor LineReading LineRefinement Machine

section
variable {W : Type} (sh : Shell W) (prompt : List UInt8)

/-! ## The tab key -/

/-- `cmd_auto_complete` as `cread_line` calls it: it stores behind the string in the buffer. -/
def completion (buf : Nat → UInt8) (num : Nat) : CliReadline.Completion :=
  match sh.autoComplete prompt (cString buf) num (prompt.length + num) with
  | some done =>
    ⟨done.handled, fun i => if i ≤ done.buf.length then done.buf.getD i 0 else buf i, done.n, done.output⟩
  | none => ⟨false, buf, num, []⟩

/-- The line after a tab at its end. -/
def completed (text : List UInt8) : List UInt8 :=
  match sh.autoComplete prompt text text.length (prompt.length + text.length) with
  | some done => done.buf
  | none => text

/-- The list editor's tab key. -/
def tabbed (ed : Editor) : Editor :=
  if ed.cursor < ed.text.length then ed
  else { ed with text := completed sh prompt ed.text, cursor := (completed sh prompt ed.text).length }

/-- One byte that does not end the line, with completion. -/
def step (ed : Editor) (ch : UInt8) : Editor :=
  if ed.pending = [] ∧ ch = '\t'.toUInt8 then tabbed sh prompt ed else ed.step ch

/-- The input up to the byte that ends the line, with completion. -/
def run (ed : Editor) : (input : List UInt8) → Status × Editor
  | [] => (.reading, ed)
  | ch :: input => if ed.status ch = .reading then run (step sh prompt ed ch) input else (ed.status ch, ed)

/-- A completion leaves the line alone or lets it grow to less than the limit. -/
theorem completed_eq (sound : Sound ed) :
    ∃ done added, sh.autoComplete prompt ed.text ed.text.length (prompt.length + ed.text.length) = some done ∧
      Grown ed.text done added ∧ completed sh prompt ed.text = done.buf := by
  obtain ⟨done, added, returned, grown⟩ :=
    sh.autoComplete_grown sound.nonzero sound.room prompt (prompt.length + ed.text.length)
  refine ⟨done, added, returned, grown, ?_⟩
  rw [completed, returned]

private theorem tabbed_sound (sound : Sound ed) : Sound (tabbed sh prompt ed) := by
  unfold tabbed
  split
  · exact sound
  · obtain ⟨done, added, -, grown, line⟩ := completed_eq sh prompt sound
    rw [line, grown.buf]
    refine ⟨Nat.le_refl _, ?_, ?_, sound.hist⟩
    · rcases grown.room with rfl | room
      · rw [List.append_nil]
        exact sound.room
      · show (ed.text ++ added).length ≤ sysCbsize
        omega
    · exact fun zero => (List.mem_append.mp zero).elim sound.nonzero grown.clean

/-- The tab key does to the buffer what it does to the list. -/
theorem tabKey_does (sound : Sound (editor r)) :
    ∃ r', tabKey (completion sh prompt) r = .ret () r' ∧ editor r' = tabbed sh prompt (editor r) := by
  have whole := text_length r
  have within : r.num ≤ r.eolNum := whole ▸ sound.within
  have room : r.eolNum ≤ sysCbsize := whole ▸ sound.room
  unfold tabKey tabbed
  rw [bind_of_ret (read_apply r), whole, show (editor r).cursor = r.num from rfl]
  by_cases middle : r.num < r.eolNum
  · rw [if_pos middle, if_pos middle]
    exact ⟨_, rfl, rfl⟩
  · have last : r.num = r.eolNum := by omega
    obtain ⟨done, added, returned, grown, line⟩ := completed_eq sh prompt sound
    have string : cString (Function.update r.buf r.num 0) = (editor r).text := by
      rw [last]
      exact cString_ended room sound.nonzero
    have called : completion sh prompt (Function.update r.buf r.num 0) r.num =
        ⟨done.handled, fun i => if i ≤ done.buf.length then done.buf.getD i 0 else Function.update r.buf r.num 0 i,
          done.n, done.output⟩ := by
      rw [whole, ← last] at returned
      rw [completion, string, returned]
    have length : done.buf.length = done.n := by rw [grown.buf, grown.n]
    have unhandled : done.handled = false → done.buf.length = r.num := by
      intro none
      rw [grown.buf, grown.handled none, List.append_nil, whole, last]
    rw [if_neg middle, if_neg middle, bind_of_ret (storeBuf_apply (by omega) 0 r), bind_of_ret (read_apply _), line]
    refine ⟨_, rfl, ?_⟩
    rw [called]
    have cursor : (if done.handled = true then done.n else r.num) = done.buf.length := by
      split
      · exact length.symm
      · next other => exact (unhandled (eq_false_of_ne_true other)).symm
    have stop : (if done.handled = true then r.eolNum + done.n - r.num else r.eolNum) = done.buf.length := by
      rw [← cursor]
      split
      · omega
      · exact last.symm
    refine editor_eq ?_ cursor rfl rfl rfl
    show bytes _ 0 (if done.handled = true then r.eolNum + done.n - r.num else r.eolNum) = done.buf
    rw [stop]
    exact bytes_copied done.buf _

/-! ## Lines -/

theorem step_ready (ready : Ready ed) (ch : UInt8) : Ready (step sh prompt ed ch) := by
  unfold step
  split
  · refine ⟨tabbed_sound sh prompt ready.toSound, ?_⟩
    unfold tabbed
    split
    · exact ready.pending
    · exact ready.pending
  · exact LineRefinement.step_ready ready ch

theorem run_ready (ready : Ready ed) (input : List UInt8) : Ready (run sh prompt ed input).2 := by
  induction input generalizing ed with
  | nil => exact ready
  | cons ch input ih =>
    rw [run]
    split
    · exact ih (step_ready sh prompt ready ch)
    · exact ready

/-- One pass of the loop, for a byte that goes on. -/
theorem turn_steps (ready : Ready (editor r)) (goes_on : (editor r).status ch = .reading) :
    ∃ r', turn (completion sh prompt) ch r = .ret .reading r' ∧ editor r' = step sh prompt (editor r) ch := by
  unfold step
  by_cases tab : (editor r).pending = [] ∧ ch = '\t'.toUInt8
  · obtain ⟨idle, rfl⟩ := tab
    obtain ⟨r', acts, stands⟩ := tabKey_does sh prompt ready.toSound
    have none : ¬ r.escLen ≠ 0 := by
      rw [← pending_length, idle]
      exact fun some => some rfl
    refine ⟨r', ?_, by rw [if_pos ⟨idle, rfl⟩, stands]⟩
    unfold turn
    rw [bind_of_ret (read_apply r), if_neg (by decide), if_neg (by decide), if_neg none, keyAction_eq,
      show keyOf '\t'.toUInt8 = .tab from rfl, keyCode, bind_of_ret acts]
    rfl
  · obtain ⟨r', turned, stands, -⟩ := turn_does ready (fun idle is => tab ⟨idle, is⟩) goes_on
    exact ⟨r', turned, by rw [if_neg tab, stands]⟩

/-- What the loop leaves in the reader. -/
structure Stops (done : Status × Editor) (r : Reader) : Prop where
  hist : r.hist = done.2.hist
  bounds : r.num ≤ r.eolNum ∧ r.eolNum ≤ sysCbsize
  line : done.1 ≠ .interrupted → editor r = done.2
  buffer : done.1 = .interrupted → r.buf 0 = 0

private theorem creadLoop_stops (ready : Ready (editor r)) (input : List UInt8) :
    ∃ r', creadLoop (completion sh prompt) input r = .ret (run sh prompt (editor r) input).1 r' ∧
      Stops (run sh prompt (editor r) input) r' := by
  induction input generalizing r with
  | nil => exact ⟨r, rfl, rfl, bounds ready, fun _ => rfl, fun stopped => by cases stopped⟩
  | cons ch input ih =>
    rw [run]
    cases status : (editor r).status ch with
    | reading =>
      obtain ⟨r₁, turned, stands⟩ := turn_steps sh prompt ready status
      obtain ⟨r', returns, stops⟩ := ih (stands ▸ step_ready sh prompt ready ch)
      rw [stands] at returns stops
      rw [if_pos rfl, creadLoop, bind_of_ret turned]
      exact ⟨r', returns, stops⟩
    | entered =>
      rw [if_neg (by decide), creadLoop, bind_of_ret (turn_entered (status_entered status) _ r)]
      exact ⟨_, rfl, rfl, bounds ready, fun _ => rfl, fun stopped => by cases stopped⟩
    | interrupted =>
      obtain ⟨idle, rfl⟩ := status_interrupted status
      have inside := bounds ready
      rw [if_neg (by decide), creadLoop, bind_of_ret (turn_interrupted idle _)]
      exact ⟨_, rfl, rfl, inside, fun other => absurd rfl other,
        fun _ => Function.update_self (0 : Nat) (0 : UInt8) r.buf⟩

theorem creadLine_refined (ok : HistOk r.hist) (held : (cString r.buf).length ≤ sysCbsize)
    (done_eq : run sh prompt (Editor.start (cString r.buf) r.hist) input = done) :
    ∃ result r', creadLine (completion sh prompt) input r = .ret result r' ∧ Refined done result r' := by
  obtain ⟨r₁, typed, stands⟩ := fresh_does ok held
  have ready : Ready (editor r₁) := stands ▸ start_ready ok held (cString_nonzero r.buf)
  obtain ⟨r₂, looped, stops⟩ := creadLoop_stops sh prompt ready input
  have ready₂ := run_ready sh prompt ready input
  rw [stands, done_eq] at looped stops ready₂
  unfold creadLine
  rw [bind_of_ret (read_apply _), bind_of_ret (write_apply _ _), bind_of_ret typed, bind_of_ret looped]
  obtain ⟨result, r', finished, refined, -⟩ :=
    creadFinish_apply ready₂ stops.hist stops.bounds stops.line stops.buffer
  exact ⟨result, r', finished, refined⟩

/-- A whole prompt: `cli_readline` comes to what the list editor with completion comes to. -/
theorem cliReadline_refined (ok : HistOk r.hist) (input : List UInt8) :
    ∃ result r', cliReadline (completion sh prompt) prompt input r = .ret result r' ∧
      Refined (run sh prompt (Editor.start [] r.hist) input) result r' := by
  have empty : cString (Function.update r.buf 0 0) = [] := cString_empty (Function.update_self ..)
  unfold cliReadline
  rw [bind_of_ret (storeBuf_apply (Nat.zero_le _) 0 r), bind_of_ret (putcs_apply prompt _)]
  apply creadLine_refined sh prompt (by exact ok) (by rw [empty]; exact Nat.zero_le _)
  rw [empty]

/-! ## The limit -/

/-- What a byte comes to: nothing yet, a sequence that is typed in, or a key. -/
inductive Effect where
  | nothing
  | types (str : List UInt8)
  | presses (key : Key)

def effect (ed : Editor) (ch : UInt8) : Effect :=
  if ch = 0 then .nothing
  else if ed.pending = [] then .presses (keyOf ch)
  else
    match decode (ed.pending ++ [ch]) with
    | .save => .nothing
    | .reject => .types (ed.pending ++ [ch])
    | .converted control => .presses (keyOf control)

/-- How far so many characters reach: they push back what is there, or replace it. -/
def reach (ed : Editor) (n : Nat) : Nat := if ed.insert then ed.text.length + n else ed.cursor + n

/-- A recall finds a line of such a length. -/
def Finds (found : Recalled × History) (Length : Nat → Prop) : Prop :=
  ∃ line, Editor.recalled found.2 found.1 = some line ∧ Length line.length

/-- Characters are typed up to the limit, or a line of that length is recalled. -/
def Fills (ed : Editor) : Effect → Prop
  | .types str => sysCbsize ≤ reach ed str.length
  | .presses (.char _) => sysCbsize ≤ reach ed 1
  | .presses .prev => Finds (histPrev ed.hist) (· = sysCbsize)
  | .presses .next => Finds (histNext ed.hist) (· = sysCbsize)
  | _ => False

/-- Characters are deleted, or a shorter line is recalled. -/
def Shortens (ed : Editor) : Effect → Prop
  | .presses .delete => ed.cursor < ed.text.length
  | .presses .kill => ed.cursor < ed.text.length
  | .presses .killLine => 0 < ed.text.length
  | .presses .backspace => 0 < ed.cursor
  | .presses .prev => Finds (histPrev ed.hist) (· < sysCbsize)
  | .presses .next => Finds (histNext ed.hist) (· < sysCbsize)
  | _ => False

/-- Enter comes while the line is full: nothing has shortened it since it was filled. -/
def LeftFull : (full : Prop) → Editor → (input : List UInt8) → Prop
  | _, _, [] => False
  | full, ed, ch :: input =>
    match ed.status ch with
    | .entered => full
    | .interrupted => False
    | .reading =>
      LeftFull (Fills ed (effect ed ch) ∨ full ∧ ¬ Shortens ed (effect ed ch)) (step sh prompt ed ch) input

/-- The text after a byte. -/
def textAfter (ed : Editor) : Effect → List UInt8
  | .nothing => ed.text
  | .types str => (ed.addStr str).text
  | .presses key => if key = .tab then (tabbed sh prompt ed).text else (ed.key key).text

private theorem replace_text (ed : Editor) (found : Recalled × History) :
    (ed.replace found).text = (Editor.recalled found.2 found.1).getD ed.text := by
  unfold Editor.replace
  cases Editor.recalled found.2 found.1 with
  | none => rfl
  | some line => rfl

private theorem key_text (ed : Editor) (pending : List UInt8) (key : Key) :
    ({ ed with pending }.key key).text = (ed.key key).text := by
  cases key with
  | char ch =>
    rw [Editor.key, Editor.key, addChar_pending]
  | backspace =>
    rw [Editor.key, Editor.key]
    by_cases start : ed.cursor = 0
    · rw [if_pos start, if_pos start]
    · rw [if_neg start, if_neg start]
  | prev => rw [Editor.key, Editor.key, replace_text, replace_text]
  | next => rw [Editor.key, Editor.key, replace_text, replace_text]
  | _ => rfl

private theorem step_text (ed : Editor) (ch : UInt8) :
    (step sh prompt ed ch).text = textAfter sh prompt ed (effect ed ch) := by
  unfold step effect Editor.step
  by_cases zero : ch = 0
  · subst zero
    rw [if_neg (fun both => absurd both.2 (by decide)), if_pos rfl, if_pos rfl]
    rfl
  rw [if_neg zero, if_neg zero]
  by_cases idle : ed.pending = []
  · rw [if_pos idle, if_pos idle]
    by_cases tab : ch = '\t'.toUInt8
    · subst tab
      rw [if_pos ⟨idle, rfl⟩]
      rfl
    · have other : keyOf ch ≠ .tab := fun is => tab ((keyOf_only ch).2.2 is)
      rw [if_neg fun both => tab both.2, textAfter, if_neg other]
  · rw [if_neg idle, if_neg idle, if_neg fun both => idle both.1]
    cases act : decode (ed.pending ++ [ch]) with
    | save => rfl
    | reject =>
      show (Editor.addStr { ed with pending := [] } (ed.pending ++ [ch])).text = (ed.addStr (ed.pending ++ [ch])).text
      rw [addStr_pending]
    | converted control =>
      have other := (escapeSequences_keys _ (decode_converted act)).2.2.1
      show _ = textAfter sh prompt ed (.presses (keyOf control))
      rw [textAfter, if_neg other]
      exact key_text ed [] (keyOf control)

private theorem addChar_length (sound : Sound ed) (ch : UInt8) :
    (ed.addChar ch).text.length = max ed.text.length (min sysCbsize (reach ed 1)) := by
  have within := sound.within
  have room := sound.room
  unfold Editor.addChar reach
  by_cases pushes : ed.insert = true ∨ ed.cursor = ed.text.length
  · have same : (if ed.insert = true then ed.text.length + 1 else ed.cursor + 1) = ed.text.length + 1 := by
      rcases pushes with inserts | last
      · rw [if_pos inserts]
      · rw [last, ite_self]
    rw [if_pos pushes, same]
    by_cases more : ed.text.length < sysCbsize
    · rw [if_pos more]
      simp only [List.length_append, List.length_cons, List.length_take, List.length_drop]
      omega
    · rw [if_neg more]
      omega
  · rw [if_neg pushes, if_neg fun inserts => pushes (.inl inserts), List.length_set]
    have other : ed.cursor ≠ ed.text.length := fun last => pushes (.inr last)
    omega

/-- The characters after the first one reach as far as all of them, unless the line is full. -/
theorem reach_addChar (sound : Sound ed) (ch : UInt8) (n : Nat) :
    max (ed.addChar ch).text.length (min sysCbsize (reach (ed.addChar ch) n)) =
      max ed.text.length (min sysCbsize (reach ed (n + 1))) := by
  have within := sound.within
  have room := sound.room
  have length := addChar_length sound ch
  have moves : (ed.addChar ch).cursor = ed.cursor + 1 ∨ ed.text.length = sysCbsize := by
    unfold Editor.addChar
    split
    · split
      · exact .inl rfl
      · exact .inr (by omega)
    · exact .inl rfl
  unfold reach at length ⊢
  rw [addChar_insert]
  by_cases inserts : ed.insert = true
  · rw [if_pos inserts] at length
    rw [if_pos inserts, if_pos inserts]
    omega
  · rw [if_neg inserts] at length
    rw [if_neg inserts, if_neg inserts]
    omega

private theorem addStr_length (sound : Sound ed) (clean : 0 ∉ str) :
    (ed.addStr str).text.length = max ed.text.length (min sysCbsize (reach ed str.length)) := by
  induction str generalizing ed with
  | nil =>
    have within := sound.within
    have room := sound.room
    unfold Editor.addStr reach
    rw [List.foldl_nil, List.length_nil]
    split
    · omega
    · omega
  | cons ch str ih =>
    have first : ch ≠ 0 := fun zero => clean (zero ▸ List.mem_cons_self)
    show ((ed.addChar ch).addStr str).text.length = _
    rw [ih (addChar_sound sound first) fun zero => clean (List.mem_cons_of_mem ch zero), List.length_cons]
    exact reach_addChar sound ch str.length

/-- A recalled line is full, or it takes the place of a full one. -/
theorem replace_full (ed : Editor) (found : Recalled × History) (ok : HistOk found.2) :
    (ed.replace found).text.length = sysCbsize ↔
      Finds found (· = sysCbsize) ∨ ed.text.length = sysCbsize ∧ ¬ Finds found (· < sysCbsize) := by
  rw [replace_text]
  unfold Finds
  cases line_eq : Editor.recalled found.2 found.1 with
  | none => simp
  | some line =>
    have short := (recalled_line ok line_eq).1
    simp only [Option.getD_some, Option.some.injEq, exists_eq_left']
    omega

/-- A completion neither fills a line nor shortens it. -/
theorem tabbed_full (sound : Sound ed) :
    (tabbed sh prompt ed).text.length = sysCbsize ↔ ed.text.length = sysCbsize := by
  unfold tabbed
  split
  · rfl
  · obtain ⟨done, added, -, grown, line⟩ := completed_eq sh prompt sound
    have positive : 2 < sysCbsize := by decide
    rw [line, grown.buf]
    rcases grown.room with rfl | room
    · rw [List.append_nil]
    · rw [List.length_append] at room ⊢
      omega

/-- A byte leaves the line full if it fills it, or does not shorten a full line. -/
theorem textAfter_full (sound : Sound ed) (typed : ∀ str, eff = .types str → 0 ∉ str) :
    (textAfter sh prompt ed eff).length = sysCbsize ↔
      Fills ed eff ∨ ed.text.length = sysCbsize ∧ ¬ Shortens ed eff := by
  have within := sound.within
  have room := sound.room
  have positive : 0 < sysCbsize := by decide
  cases eff with
  | nothing => simp [textAfter, Fills, Shortens]
  | types str =>
    rw [textAfter, addStr_length sound (typed str rfl)]
    simp only [Fills, Shortens, not_false_eq_true, and_true]
    omega
  | presses key =>
    cases key with
    | tab =>
      rw [textAfter, if_pos rfl, tabbed_full sh prompt sound]
      simp [Fills, Shortens]
    | char ch =>
      rw [textAfter, if_neg (by simp), Editor.key, addChar_length sound ch]
      simp only [Fills, Shortens, not_false_eq_true, and_true]
      omega
    | prev => exact replace_full ed _ (histPrev_ok sound.hist).1
    | next => exact replace_full ed _ (histNext_ok sound.hist).1
    | delete =>
      rw [textAfter, if_neg (by simp), Editor.key, List.length_eraseIdx]
      simp only [Fills, Shortens, false_or]
      split
      · omega
      · omega
    | kill =>
      rw [textAfter, if_neg (by simp), Editor.key, List.length_take]
      simp only [Fills, Shortens, false_or]
      omega
    | killLine =>
      rw [textAfter, if_neg (by simp), Editor.key, List.length_nil]
      simp only [Fills, Shortens, false_or]
      omega
    | backspace =>
      rw [textAfter, if_neg (by simp), Editor.key]
      simp only [Fills, Shortens, false_or]
      split
      · omega
      · rw [List.length_eraseIdx_of_lt (by omega)]
        omega
    | _ => simp [textAfter, Fills, Shortens, Editor.key]

private theorem effect_clean (ready : Ready ed) (typed : effect ed ch = .types str) : 0 ∉ str := by
  unfold effect at typed
  split at typed
  · cases typed
  · next nonzero =>
    split at typed
    · cases typed
    · split at typed
      · cases typed
      · cases typed
        exact sequence_nonzero ready nonzero
      · cases typed

private theorem step_full (ready : Ready ed) (ch : UInt8) :
    (step sh prompt ed ch).text.length = sysCbsize ↔
      Fills ed (effect ed ch) ∨ ed.text.length = sysCbsize ∧ ¬ Shortens ed (effect ed ch) := by
  rw [step_text]
  exact textAfter_full sh prompt ready.toSound fun _ typed => effect_clean ready typed

/-- The flag follows the length of the line. -/
theorem leftFull_iff (ready : Ready ed) (flag : full ↔ ed.text.length = sysCbsize) (input : List UInt8) :
    LeftFull sh prompt full ed input ↔
      (run sh prompt ed input).1 = .entered ∧ (run sh prompt ed input).2.text.length = sysCbsize := by
  induction input generalizing ed full with
  | nil => exact iff_of_false id fun both => by cases both.1
  | cons ch input ih =>
    rw [LeftFull, run]
    cases status : ed.status ch with
    | reading =>
      rw [if_pos rfl]
      refine ih (step_ready sh prompt ready ch) ?_
      rw [step_full sh prompt ready ch, flag]
    | entered =>
      rw [if_neg (by decide)]
      exact flag.trans (and_iff_right rfl).symm
    | interrupted =>
      rw [if_neg (by decide)]
      exact iff_of_false id fun both => by cases both.1

/-- What `cli_readline` returns is no longer than the buffer without its NUL, and not too long for
`cli_simple_run_command`. -/
def Fits (result : Result) (r : Reader) : Prop :=
  ∀ len, result = .line len → len ≤ sysCbsize - 1 ∧ ¬ sysCbsize ≤ (cString r.buf).length

/-- The string in the buffer is the line that has been entered. -/
theorem refined_string (ready : Ready done.2) (refined : Refined done result r) (entered : done.1 = .entered) :
    cString r.buf = done.2.text := by
  obtain ⟨-, -, text, ended⟩ := refined.entered entered
  have clean : 0 ∉ bytes r.buf 0 r.eolNum := text ▸ ready.nonzero
  rw [← Function.update_eq_self r.eolNum r.buf, ended, cString_ended refined.bounds.2 clean, text]

theorem fits_iff (ready : Ready done.2) (refined : Refined done result r) :
    Fits result r ↔ ¬ (done.1 = .entered ∧ done.2.text.length = sysCbsize) := by
  have room := ready.room
  have positive : 0 < sysCbsize := by decide
  cases status : done.1 with
  | entered =>
    obtain ⟨rfl, -⟩ := refined.entered status
    have string := refined_string ready refined status
    constructor
    · rintro fits ⟨-, full⟩
      have short := (fits _ rfl).1
      omega
    · rintro short len same
      cases same
      have other : done.2.text.length ≠ sysCbsize := fun full => short ⟨rfl, full⟩
      rw [string]
      omega
  | reading =>
    obtain ⟨rfl, -⟩ := refined.reading status
    exact iff_of_true (fun len same => by cases same) fun both => by cases both.1
  | interrupted =>
    obtain ⟨rfl, -⟩ := refined.interrupted status
    exact iff_of_true (fun len same => by cases same) fun both => by cases both.1

/-- For every input, the line that comes back fits unless Enter comes while the line is full. -/
theorem lines_fit_iff (recorded : Recorded r.hist) (input : List UInt8) :
    (∃ result r', cliReadline (completion sh prompt) prompt input r = .ret result r' ∧ Fits result r') ↔
      ¬ LeftFull sh prompt False (Editor.start [] r.hist) input := by
  have ready : Ready (Editor.start [] r.hist) := start_ready recorded.ok (Nat.zero_le _) List.not_mem_nil
  have flag : False ↔ (Editor.start [] r.hist).text.length = sysCbsize :=
    iff_of_false id (show ¬ 0 = sysCbsize by decide)
  obtain ⟨result, r', returned, refined⟩ := cliReadline_refined sh prompt recorded.ok input
  rw [leftFull_iff sh prompt ready flag, ← fits_iff (run_ready sh prompt ready input) refined]
  constructor
  · rintro ⟨result', r'', returned', fits⟩
    cases returned.symm.trans returned'
    exact fits
  · intro fits
    exact ⟨result, r', returned, fits⟩

/-- A character that is typed again and again. -/
theorem run_replicate (idle : ed.pending = []) (char : keyOf ch = .char ch) (nonzero : ch ≠ 0)
    (goes_on : ¬ (ch = '\n'.toUInt8 ∨ ch = '\r'.toUInt8)) (n : Nat) (rest : List UInt8) :
    run sh prompt ed (List.replicate n ch ++ rest) = run sh prompt (ed.addStr (List.replicate n ch)) rest := by
  induction n generalizing ed with
  | zero => rfl
  | succ n ih =>
    have noTab : ch ≠ '\t'.toUInt8 := by
      rintro rfl
      cases char
    have status : ed.status ch = .reading := by
      have other : ch ≠ ctlCh 'c' := by
        rintro rfl
        cases char
      rw [Editor.status, if_neg goes_on, if_neg fun both => other both.2]
    have typed : step sh prompt ed ch = ed.addChar ch := by
      rw [step, if_neg fun both => noTab both.2, Editor.step, if_neg nonzero, if_pos idle, char, Editor.key]
    have idle' : (ed.addChar ch).pending = [] := by
      have same := addChar_pending ed ch ed.pending
      rw [same]
      exact idle
    rw [List.replicate_succ, List.cons_append, run, if_pos status, typed, ih idle']
    rfl

/-- The line after so many letters. -/
private theorem letters_text (low : n ≤ sysCbsize) (hist : History) :
    (Editor.start [] hist).addStr (List.replicate n 0x61) =
      { Editor.start [] hist with text := List.replicate n 0x61, cursor := n } := by
  rw [addStr_end rfl rfl (by rw [List.length_replicate]; exact (Nat.zero_add n).symm ▸ low), List.length_replicate]
  exact congrArg (fun cursor => { Editor.start [] hist with text := List.replicate n 0x61, cursor }) (Nat.zero_add n)

private theorem run_letters (low : n ≤ sysCbsize) (hist : History) :
    (run sh prompt (Editor.start [] hist) (List.replicate n 0x61 ++ [0x0d])).1 = .entered ∧
      (run sh prompt (Editor.start [] hist) (List.replicate n 0x61 ++ [0x0d])).2.text.length = n := by
  have ends (ed : Editor) : ed.status 0x0d = .entered := if_pos (.inr rfl)
  rw [run_replicate sh prompt rfl rfl (by decide) (by decide), run, ends, if_neg (by decide), letters_text low]
  exact ⟨rfl, List.length_replicate⟩

private theorem run_backspace (idle : ed.pending = []) :
    run sh prompt ed [0x7f, 0x0d] = (.entered, ed.key .backspace) := by
  have status : ed.status 0x7f = .reading := by
    rw [Editor.status, if_neg (by decide), if_neg fun both => absurd both.2 (by decide)]
  have erases : step sh prompt ed 0x7f = ed.key .backspace := by
    rw [step, if_neg fun both => absurd both.2 (by decide), Editor.step, if_neg (by decide), if_pos idle]
    rfl
  have ends : (ed.key .backspace).status 0x0d = .entered := if_pos (.inr rfl)
  rw [run, if_pos status, erases, run, ends, if_neg (by decide)]

/-- The last letter is taken back. -/
theorem run_erased (low : n ≤ sysCbsize) (hist : History) :
    (run sh prompt (Editor.start [] hist) (List.replicate n 0x61 ++ [0x7f, 0x0d])).2.text.length = n - 1 := by
  rw [run_replicate sh prompt rfl rfl (by decide) (by decide), letters_text low, run_backspace sh prompt rfl, Editor.key]
  by_cases none : n = 0
  · rw [if_pos none, List.length_replicate, none]
  · rw [if_neg none]
    show ((List.replicate n 0x61).eraseIdx (n - 1)).length = n - 1
    rw [List.length_eraseIdx, List.length_replicate, if_pos (by omega)]

end

/-- No commands. -/
def emptyShell : Shell Unit where
  table := []
  complete := fun _ => none
  beyond := fun _ _ => []
  tmpBuf := emptyTmpBuf
  argv := ArgumentWords.usedArgv
  names := fun _ none => absurd none List.not_mem_nil
  completers := fun _ _ chosen => by cases chosen
  strings := fun _ _ => List.not_mem_nil
  tmpSize := List.length_replicate
  argvSize := rfl

/-- A line that was full fits when its last character has been taken back. -/
theorem lines_fit_erased :
    ∃ result r', cliReadline (completion emptyShell sysPrompt) sysPrompt (List.replicate sysCbsize 0x61 ++ [0x7f, 0x0d])
      firstReader = .ret result r' ∧ Fits result r' := by
  have ready : Ready (Editor.start [] histInit) := start_ready Recorded.init.ok (Nat.zero_le _) List.not_mem_nil
  have flag : False ↔ (Editor.start [] histInit).text.length = sysCbsize :=
      iff_of_false id (show ¬ 0 = sysCbsize by decide)
  have left : ¬ LeftFull emptyShell sysPrompt False (Editor.start [] histInit)
      (List.replicate sysCbsize 0x61 ++ [0x7f, 0x0d]) := by
    rw [leftFull_iff emptyShell sysPrompt ready flag, run_erased emptyShell sysPrompt le_rfl]
    exact fun full => absurd full.2 (by decide)
  exact (lines_fit_iff emptyShell sysPrompt (r := firstReader) Recorded.init _).mpr left

/-- `CONFIG_SYS_CBSIZE` characters are taken, and come back as a line of that length. -/
theorem lines_fit_full :
    ∃ result r', cliReadline (completion emptyShell sysPrompt) sysPrompt (List.replicate sysCbsize 0x61 ++ [0x0d])
      firstReader = .ret result r' ∧ ¬ Fits result r' := by
  have ready : Ready (Editor.start [] histInit) := start_ready Recorded.init.ok (Nat.zero_le _) List.not_mem_nil
  obtain ⟨result, r', returned, refined⟩ := cliReadline_refined emptyShell sysPrompt (r := firstReader)
    Recorded.init.ok (List.replicate sysCbsize 0x61 ++ [0x0d])
  refine ⟨result, r', returned, ?_⟩
  rw [fits_iff (run_ready emptyShell sysPrompt ready _) refined]
  exact not_not.mpr (run_letters emptyShell sysPrompt (Nat.le_refl _) histInit)

end RockOs.LineLimit
