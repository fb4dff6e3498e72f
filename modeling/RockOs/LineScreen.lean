import Mathlib.Data.List.Induction
import RockOs.LineReading
import RockOs.Screen

/-! What the console shows of the line being edited. Every key redraws a part of the
line through `printf`, which passes on `CONFIG_SYS_PBSIZE - 1` characters at most, so
the screen keeps up with the buffer as long as no key redraws more than that. -/
namespace RockOs.LineScreen
open CliReadline Config LineBuffer LineEditor LineReading LineRefinement Machine Screen

/-- The most characters a recall hands to one `printf`. -/
def recallRedrawn (ed : Editor) (found : Recalled × History) : Nat :=
  match Editor.recalled found.2 found.1 with
  | none => 0
  | some line => max ed.text.length line.length

/-- The most characters a typed character hands to one `printf`. -/
def charRedrawn (ed : Editor) : Nat :=
  if ed.insert ∨ ed.cursor = ed.text.length then
    if ed.text.length < sysCbsize then ed.text.length - ed.cursor + 1 else 0
  else 1

/-- The most characters a key hands to one `printf`. -/
def keyRedrawn (ed : Editor) : Key → Nat
  | .escape | .interrupt | .toggle | .tab | .home | .forward | .back => 0
  | .delete => ed.text.length - ed.cursor - 1
  | .kill => ed.text.length - ed.cursor
  | .last => ed.text.length - ed.cursor
  | .killLine => ed.text.length
  | .backspace => if ed.cursor = 0 then 0 else ed.text.length - ed.cursor
  | .prev => recallRedrawn ed (histPrev ed.hist)
  | .next => recallRedrawn ed (histNext ed.hist)
  | .char _ => charRedrawn ed

/-- The most characters a byte of input hands to one `printf`. -/
def redrawn (ed : Editor) (ch : UInt8) : Nat :=
  if ch = 0 then 0
  else if ed.pending = [] then keyRedrawn ed (keyOf ch)
  else
    match decode (ed.pending ++ [ch]) with
    | .save => 0
    | .reject => charRedrawn ed
    | .converted control => keyRedrawn ed (keyOf control)

/-- The characters a key types in. -/
def keyTyped : Key → List UInt8
  | .char ch => [ch]
  | _ => []

/-- The characters a byte of input types in. -/
def typed (ed : Editor) (ch : UInt8) : List UInt8 :=
  if ch = 0 then []
  else if ed.pending = [] then keyTyped (keyOf ch)
  else
    match decode (ed.pending ++ [ch]) with
    | .save => []
    | .reject => ed.pending ++ [ch]
    | .converted control => keyTyped (keyOf control)

/-- Nothing but printable characters can come into the line. -/
structure Plain (ed : Editor) : Prop where
  text : ∀ c ∈ ed.text, Printable c
  hist : ∀ i, ∀ c ∈ ed.hist.lines i, Printable c

/-- The terminal shows the prompt and the line, with the cursor where it is in the line. -/
def shown (prompt : List UInt8) (ed : Editor) : Terminal := showing prompt ed.text ed.cursor

private theorem cut_short {text : List UInt8} (short : text.length < sysPbsize) : Editor.cut text = text :=
  List.take_of_length_le (by omega)

private theorem cut_printable {text : List UInt8} (printable : ∀ c ∈ text, Printable c) :
    ∀ c ∈ Editor.cut text, Printable c :=
  fun c member => printable c (List.mem_of_mem_take member)

private theorem cut_length (text : List UInt8) : (Editor.cut text).length = min (sysPbsize - 1) text.length :=
  List.length_take

private theorem blanks_printable (n : Nat) : ∀ c ∈ List.replicate n (0x20 : UInt8), Printable c := by
  intro c member
  rw [List.eq_of_mem_replicate member]
  decide

private theorem drop_printable {text : List UInt8} (printable : ∀ c ∈ text, Printable c) (k : Nat) :
    ∀ c ∈ text.drop k, Printable c :=
  fun c member => printable c (List.mem_of_mem_drop member)

private theorem erase_eq (n : Nat) : Editor.erase n = Editor.cut (List.replicate n 0x20) ++ List.replicate n 8 := rfl

private theorem backs_eq (n : Nat) : Editor.backs n = List.replicate n 8 := rfl

/-- Blanks over the rest of the line. -/
theorem erase_shown {text : List UInt8} (short : text.length - c < sysPbsize) (inside : c ≤ text.length)
    (prompt : List UInt8) :
    (showing prompt text c).feed (Editor.erase (text.length - c)) = showing prompt (text.take c) c := by
  rw [erase_eq, Terminal.feed_append, cut_short (by rwa [List.length_replicate]),
    feed_showing (blanks_printable _) inside, List.length_replicate, feed_showing_backs (by omega),
    List.drop_eq_nil_of_le (by omega), List.append_nil, showing_blanks, Nat.add_sub_cancel]

private theorem cut_col {text : List UInt8} (printable : ∀ c ∈ text, Printable c) (t : Terminal) :
    (t.feed (Editor.cut text)).col = t.col + (min (sysPbsize - 1) text.length : Nat) := by
  rw [Terminal.feed_col (cut_printable printable), cut_length]

private theorem backs_col (t : Terminal) (n : Nat) : (t.feed (Editor.backs n)).col = t.col - n := by
  rw [backs_eq, Terminal.feed_backs]

private theorem erase_col (t : Terminal) (n : Nat) :
    (t.feed (Editor.erase n)).col = t.col + (min (sysPbsize - 1) n : Nat) - n := by
  rw [erase_eq, Terminal.feed_append, ← backs_eq, backs_col, cut_col (blanks_printable n), List.length_replicate]

/-- The part of the line behind the cursor drawn again. -/
theorem rest_shown {text : List UInt8} (printable : ∀ c ∈ text, Printable c) (short : text.length - c < sysPbsize)
    (inside : c ≤ text.length) (prompt : List UInt8) :
    (showing prompt text c).feed (Editor.cut (text.drop c)) = showing prompt text text.length := by
  rw [cut_short (by rwa [List.length_drop]), feed_showing (drop_printable printable c) inside, List.length_drop,
    List.take_append_drop, Nat.add_sub_cancel' inside, List.drop_length, List.append_nil]

/-- Text drawn from the cursor over the rest of the line, a blank in place of a character that is gone, and back. -/
theorem redraw_shown {text more : List UInt8} (printable : ∀ c ∈ more, Printable c) (inside : c ≤ text.length)
    (covers : text.length ≤ c + more.length) (n : Nat) (left : n ≤ c + more.length) (prompt : List UInt8) :
    (showing prompt text c).feed (more ++ Editor.backs n) =
      showing prompt (text.take c ++ more) (c + more.length - n) := by
  rw [Terminal.feed_append, feed_showing printable inside, backs_eq, feed_showing_backs left,
    List.drop_eq_nil_of_le covers, List.append_nil]

private theorem histPrev_lines (h : History) : (histPrev h).2.lines = h.lines := by
  unfold histPrev
  dsimp only
  split_ifs <;> rfl

private theorem histNext_lines (h : History) : (histNext h).2.lines = h.lines := by
  unfold histNext
  dsimp only
  split_ifs <;> rfl

/-! ## One key -/

section
variable {ed : Editor} (sound : Sound ed) (plain : Plain ed) (prompt : List UInt8)
include sound plain

private theorem addChar_shown (printable : Printable ch) :
    (shown prompt ed).feed (ed.addCharEcho ch) = shown prompt (ed.addChar ch) ↔
      charRedrawn ed < sysPbsize := by
  have size : sysCbsize = sysPbsize := rfl
  have small : 1 < sysPbsize := by decide
  have within := sound.within
  have typed : ∀ c ∈ ch :: ed.text.drop ed.cursor, Printable c := by
    intro c member
    rcases List.mem_cons.mp member with rfl | member
    · exact printable
    · exact drop_printable plain.text _ c member
  unfold Editor.addCharEcho Editor.addChar charRedrawn shown
  by_cases pushes : ed.insert ∨ ed.cursor = ed.text.length
  · rw [if_pos pushes, if_pos pushes, if_pos pushes]
    by_cases room : ed.text.length < sysCbsize
    · rw [if_pos room, if_pos room, if_pos room]
      have length : (ch :: ed.text.drop ed.cursor).length = ed.text.length - ed.cursor + 1 := by
        rw [List.length_cons, List.length_drop]
      by_cases short : ed.text.length - ed.cursor + 1 < sysPbsize
      · refine iff_of_true ?_ short
        rw [cut_short (by rwa [length]), redraw_shown typed within (by omega) _ (by omega), length,
          show ed.cursor + (ed.text.length - ed.cursor + 1) - (ed.text.length - ed.cursor) = ed.cursor + 1 by omega]
      · refine iff_of_false (showing_ne ?_) short
        rw [Terminal.feed_append, backs_col, cut_col typed, length]
        dsimp only [showing]
        omega
    · rw [if_neg room, if_neg room, if_neg room]
      exact iff_of_true rfl (by omega)
  · rw [if_neg pushes, if_neg pushes, if_neg pushes]
    refine iff_of_true ?_ small
    have inside : ed.cursor < ed.text.length := by
      rcases Nat.lt_or_ge ed.cursor ed.text.length with low | high
      · exact low
      · exact absurd (Or.inr (by omega)) pushes
    rw [feed_showing (by simpa using printable) within, List.length_singleton, List.set_eq_take_append_cons_drop,
      if_pos inside, List.append_assoc]
    rfl

omit sound plain in
private theorem recalled_printable {found : Recalled × History} {entry : List UInt8}
    (lines : ∀ i, ∀ c ∈ found.2.lines i, Printable c) (entry_eq : Editor.recalled found.2 found.1 = some entry) :
    ∀ c ∈ entry, Printable c := by
  obtain ⟨recalled, hist⟩ := found
  cases recalled with
  | null => cases entry_eq
  | empty =>
    cases entry_eq
    exact nofun
  | entry i =>
    cases entry_eq
    exact lines i

omit sound plain in
/-- Back to the start of the line and blanks over all of it. -/
theorem clear_shown (short : ed.text.length < sysPbsize) :
    (shown prompt ed).feed (Editor.backs ed.cursor ++ Editor.erase ed.text.length) = showing prompt [] 0 := by
  have erased := erase_shown (c := 0) (show ed.text.length - 0 < sysPbsize by omega) (Nat.zero_le _) prompt
  rw [Nat.sub_zero, List.take_zero] at erased
  rw [Terminal.feed_append, backs_eq, shown, feed_showing_backs (Nat.le_refl _), Nat.sub_self, erased]

omit sound plain in
private theorem clear_col :
    ((shown prompt ed).feed (Editor.backs ed.cursor ++ Editor.erase ed.text.length)).col =
      prompt.length + (min (sysPbsize - 1) ed.text.length : Nat) - ed.text.length := by
  rw [Terminal.feed_append, erase_col, backs_col]
  dsimp only [shown, showing]
  omega

omit plain sound in
private theorem replace_shown (found : Recalled × History) (lines : ∀ i, ∀ c ∈ found.2.lines i, Printable c) :
    (shown prompt ed).feed (ed.replaceEcho found) = shown prompt (ed.replace found) ↔
      recallRedrawn ed found < sysPbsize := by
  unfold Editor.replaceEcho Editor.replace recallRedrawn shown
  cases entry_eq : Editor.recalled found.2 found.1 with
  | none => exact iff_of_true rfl (show 0 < sysPbsize by decide)
  | some entry =>
    have printable := recalled_printable lines entry_eq
    have small : 1 < sysPbsize := by decide
    dsimp only
    by_cases short : max ed.text.length entry.length < sysPbsize
    · refine iff_of_true ?_ short
      rw [Terminal.feed_append, ← shown, clear_shown prompt (by omega), cut_short (by omega),
        feed_showing printable (Nat.zero_le _)]
      simp
    · refine iff_of_false (showing_ne ?_) short
      rw [Terminal.feed_append, ← shown, cut_col printable, clear_col]
      omega

private theorem delete_shown (inside : ed.cursor < ed.text.length) :
    (shown prompt ed).feed
        (Editor.cut (ed.text.drop (ed.cursor + 1)) ++ ' '.toUInt8 :: Editor.backs (ed.text.length - ed.cursor)) =
      showing prompt (ed.text.eraseIdx ed.cursor) ed.cursor := by
  have size : sysCbsize = sysPbsize := rfl
  have room := sound.room
  have drawn : ∀ c ∈ ed.text.drop (ed.cursor + 1) ++ [' '.toUInt8], Printable c := by
    intro c member
    rcases List.mem_append.mp member with member | member
    · exact drop_printable plain.text _ c member
    · rw [List.mem_singleton.mp member]
      decide
  have length : (ed.text.drop (ed.cursor + 1) ++ [' '.toUInt8]).length = ed.text.length - ed.cursor := by
    rw [List.length_append, List.length_drop, List.length_singleton]
    omega
  rw [shown, cut_short (by rw [List.length_drop]; omega), List.append_cons,
    redraw_shown drawn (by omega) (by omega) _ (by omega), length, Nat.add_sub_cancel, ← List.append_assoc,
    ← List.eraseIdx_eq_take_drop_succ]
  exact showing_blanks _ _ 1 _

private theorem backspace_shown (after : ed.cursor ≠ 0) :
    (shown prompt ed).feed
        (ctlBackspace :: Editor.cut (ed.text.drop ed.cursor) ++
          ' '.toUInt8 :: Editor.backs (ed.text.length - ed.cursor + 1)) =
      showing prompt (ed.text.eraseIdx (ed.cursor - 1)) (ed.cursor - 1) := by
  have within := sound.within
  have sound' : Sound { ed with cursor := ed.cursor - 1 } :=
    ⟨Nat.le_trans (Nat.sub_le ..) within, sound.room, sound.nonzero, sound.hist⟩
  have deleted := delete_shown sound' ⟨plain.text, plain.hist⟩ prompt (show ed.cursor - 1 < ed.text.length by omega)
  have back : (shown prompt ed).feed [ctlBackspace] = shown prompt { ed with cursor := ed.cursor - 1 } :=
    feed_showing_backs (n := 1) (by omega) prompt ed.text
  dsimp only at deleted
  rw [show ed.cursor - 1 + 1 = ed.cursor by omega,
    show ed.text.length - (ed.cursor - 1) = ed.text.length - ed.cursor + 1 by omega] at deleted
  rw [← deleted, ← back]
  rfl

omit sound plain in
private theorem forward_text (text : List UInt8) (c : Nat) :
    text.take c ++ (text.drop c).take 1 ++ text.drop (c + 1) = text := by
  rw [List.append_assoc, ← List.drop_drop, List.take_append_drop, List.take_append_drop]

private theorem key_shown (key : Key) (other : key ≠ .tab) (printable : ∀ c ∈ keyTyped key, Printable c) :
    (shown prompt ed).feed (ed.keyEcho key) = shown prompt (ed.key key) ↔ keyRedrawn ed key < sysPbsize := by
  have size : sysCbsize = sysPbsize := rfl
  have small : 1 < sysPbsize := by decide
  have within := sound.within
  have room := sound.room
  cases key with
  | escape => exact iff_of_true rfl (show 0 < _ by omega)
  | interrupt => exact iff_of_true rfl (show 0 < _ by omega)
  | toggle => exact iff_of_true rfl (show 0 < _ by omega)
  | tab => exact absurd rfl other
  | home =>
    refine iff_of_true ?_ (show 0 < _ by omega)
    exact (feed_showing_backs (Nat.le_refl _) prompt ed.text).trans (by rw [Nat.sub_self]; rfl)
  | forward =>
    refine iff_of_true ?_ (show 0 < _ by omega)
    rw [shown, Editor.keyEcho, feed_showing (fun c member => drop_printable plain.text _ c (List.mem_of_mem_take member))
      within, List.length_take, List.length_drop, shown, Editor.key]
    rcases Nat.lt_or_ge ed.cursor ed.text.length with inside | outside
    · rw [Nat.min_eq_left (by omega), forward_text, Nat.min_eq_left (by omega)]
    · rw [List.drop_eq_nil_of_le outside, List.take_of_length_le outside, List.drop_eq_nil_of_le (by omega),
        Nat.min_eq_right (show ed.text.length - ed.cursor ≤ 1 by omega), Nat.min_eq_right (by omega),
        Nat.add_sub_cancel' within]
      simp
  | back =>
    refine iff_of_true ?_ (show 0 < _ by omega)
    refine (feed_showing_backs (Nat.min_le_left _ _) prompt ed.text).trans ?_
    rw [show ed.cursor - min ed.cursor 1 = ed.cursor - 1 by omega]
    rfl
  | delete =>
    refine iff_of_true ?_ (show ed.text.length - ed.cursor - 1 < _ by omega)
    unfold Editor.keyEcho
    by_cases inside : ed.cursor < ed.text.length
    · rw [if_pos inside]
      exact delete_shown sound plain prompt inside
    · rw [if_neg inside, shown, shown, Editor.key, List.eraseIdx_of_length_le (by omega)]
      rfl
  | kill =>
    by_cases short : ed.text.length - ed.cursor < sysPbsize
    · exact iff_of_true (erase_shown short within prompt) short
    · refine iff_of_false (showing_ne ?_) short
      rw [Editor.keyEcho, erase_col]
      dsimp only [shown, showing, Editor.key]
      omega
  | last =>
    by_cases short : ed.text.length - ed.cursor < sysPbsize
    · exact iff_of_true (rest_shown plain.text short within prompt) short
    · refine iff_of_false (showing_ne ?_) short
      rw [Editor.keyEcho, cut_col (drop_printable plain.text _), List.length_drop]
      dsimp only [shown, showing, Editor.key]
      omega
  | killLine =>
    by_cases short : ed.text.length < sysPbsize
    · exact iff_of_true (clear_shown prompt short) short
    · refine iff_of_false (showing_ne ?_) short
      rw [Editor.keyEcho, clear_col]
      dsimp only [Editor.key]
      omega
  | backspace =>
    rw [Editor.keyEcho, keyRedrawn]
    by_cases start : ed.cursor = 0
    · rw [if_pos start, if_pos start, Editor.key, if_pos start]
      exact iff_of_true rfl (by omega)
    · rw [if_neg start, if_neg start, Editor.key, if_neg start]
      exact iff_of_true (backspace_shown sound plain prompt start) (by omega)
  | prev => exact replace_shown prompt _ (by rw [histPrev_lines]; exact plain.hist)
  | next => exact replace_shown prompt _ (by rw [histNext_lines]; exact plain.hist)
  | char ch => exact addChar_shown sound plain prompt (printable ch (List.mem_singleton_self ch))

end

private theorem addChar_plain (plain : Plain ed) (printable : Printable ch) : Plain (ed.addChar ch) := by
  unfold Editor.addChar
  split
  · split
    · refine ⟨fun c member => ?_, plain.hist⟩
      rcases List.mem_append.mp member with before | member
      · exact plain.text c (List.mem_of_mem_take before)
      · rcases List.mem_cons.mp member with rfl | after
        · exact printable
        · exact plain.text c (List.mem_of_mem_drop after)
    · exact plain
  · refine ⟨fun c member => ?_, plain.hist⟩
    rcases List.mem_or_eq_of_mem_set member with old | rfl
    · exact plain.text c old
    · exact printable

private theorem replace_plain (plain : Plain ed) (lines : ∀ i, ∀ c ∈ found.2.lines i, Printable c) :
    Plain (ed.replace found) := by
  unfold Editor.replace
  split
  · exact ⟨plain.text, lines⟩
  · next entry_eq => exact ⟨recalled_printable lines entry_eq, lines⟩

private theorem key_plain (plain : Plain ed) (printable : ∀ c ∈ keyTyped key, Printable c) : Plain (ed.key key) := by
  cases key with
  | escape | home | interrupt | forward | back | last | toggle | tab => exact ⟨plain.text, plain.hist⟩
  | delete => exact ⟨fun c member => plain.text c (List.mem_of_mem_eraseIdx member), plain.hist⟩
  | kill => exact ⟨fun c member => plain.text c (List.mem_of_mem_take member), plain.hist⟩
  | killLine => exact ⟨nofun, plain.hist⟩
  | backspace =>
    rw [Editor.key]
    split
    · exact plain
    · exact ⟨fun c member => plain.text c (List.mem_of_mem_eraseIdx member), plain.hist⟩
  | prev => exact replace_plain plain (by rw [histPrev_lines]; exact plain.hist)
  | next => exact replace_plain plain (by rw [histNext_lines]; exact plain.hist)
  | char ch => exact addChar_plain plain (printable ch (List.mem_singleton_self ch))

/-! ## One byte, and whole lines -/

private theorem beginnings_escape : ∀ pending ∈ beginnings, pending ≠ [] → 0x1b ∈ pending := by decide

private theorem keyRedrawn_pending (ed : Editor) (pending : List UInt8) (key : Key) :
    keyRedrawn { ed with pending } key = keyRedrawn ed key := by
  cases key <;> rfl

/-- A byte keeps the screen in step exactly if it redraws no more than `printf` passes on. -/
theorem step_shown (ready : Ready ed) (plain : Plain ed) (no_tab : ch ≠ '\t'.toUInt8)
    (printable : ∀ c ∈ typed ed ch, Printable c) (prompt : List UInt8) :
    Plain (ed.step ch) ∧
      ((shown prompt ed).feed (ed.echo ch) = shown prompt (ed.step ch) ↔ redrawn ed ch < sysPbsize) := by
  have small : 0 < sysPbsize := by decide
  unfold Editor.step Editor.echo redrawn
  unfold typed at printable
  by_cases zero : ch = 0
  · rw [if_pos zero, if_pos zero, if_pos zero]
    exact ⟨plain, iff_of_true rfl small⟩
  rw [if_neg zero, if_neg zero, if_neg zero]
  rw [if_neg zero] at printable
  by_cases idle : ed.pending = []
  · rw [if_pos idle, if_pos idle, if_pos idle]
    rw [if_pos idle] at printable
    have other : keyOf ch ≠ .tab := fun tab => no_tab ((keyOf_only ch).2.2 tab)
    exact ⟨key_plain plain printable, key_shown ready.toSound plain prompt _ other printable⟩
  rw [if_neg idle, if_neg idle, if_neg idle]
  rw [if_neg idle] at printable
  cases act : decode (ed.pending ++ [ch]) with
  | save => exact ⟨⟨plain.text, plain.hist⟩, iff_of_true rfl small⟩
  | reject =>
    rw [act] at printable
    have escape := printable 0x1b (List.mem_append_left _ (beginnings_escape _ ready.pending idle))
    exact absurd escape (by decide)
  | converted control =>
    rw [act] at printable
    have other : keyOf control ≠ .tab := (escapeSequences_keys _ (decode_converted act)).2.2.1
    have sound : Sound { ed with pending := [] } := ⟨ready.within, ready.room, ready.nonzero, ready.hist⟩
    have plain' : Plain { ed with pending := [] } := ⟨plain.text, plain.hist⟩
    have shows := key_shown sound plain' prompt (keyOf control) other printable
    rw [keyRedrawn_pending] at shows
    exact ⟨key_plain plain' printable, shows⟩

/-- The list editor after the bytes of a prompt so far. -/
def after (hist : History) (before : List UInt8) : Editor := ((Editor.start [] hist).run before).2

private theorem reads_before (ed : Editor) (reads : (ed.run (before ++ rest)).1 = .reading) :
    (ed.run before).1 = .reading := by
  induction before generalizing ed with
  | nil => rfl
  | cons ch before ih =>
    rw [List.cons_append, Editor.run] at reads
    by_cases goes_on : ed.status ch = .reading
    · rw [if_pos goes_on] at reads
      rw [Editor.run, if_pos goes_on]
      exact ih (ed.step ch) reads
    · rw [if_neg goes_on] at reads
      exact absurd reads goes_on

theorem run_append (ed : Editor) (reads : (ed.run before).1 = .reading) (rest : List UInt8) :
    ed.run (before ++ rest) = (ed.run before).2.run rest ∧
      ed.runEcho (before ++ rest) = ed.runEcho before ++ (ed.run before).2.runEcho rest := by
  induction before generalizing ed with
  | nil => exact ⟨rfl, rfl⟩
  | cons ch before ih =>
    rw [Editor.run] at reads
    by_cases goes_on : ed.status ch = .reading
    · rw [if_pos goes_on] at reads
      rw [List.cons_append, Editor.run, Editor.run, if_pos goes_on, if_pos goes_on, Editor.runEcho, Editor.runEcho,
        List.append_assoc]
      obtain ⟨run, echo⟩ := ih (ed.step ch) reads
      exact ⟨run, congrArg (ed.echo ch ++ ·) echo⟩
    · rw [if_neg goes_on] at reads
      exact absurd reads goes_on

/-- A prompt at which only printable characters are typed. -/
def TypesPlain (hist : History) (input : List UInt8) : Prop :=
  ∀ before ch, before ++ [ch] <+: input → ∀ c ∈ typed (after hist before) ch, Printable c

/-- What the list editor would have written leaves its line on the screen. -/
def InStep (prompt : List UInt8) (hist : History) (before : List UInt8) : Prop :=
  (showing prompt [] 0).feed ((Editor.start [] hist).runEcho before) = shown prompt (after hist before)

/-- After the bytes `before` the terminal on which the prompt stood shows the prompt,
the characters in the buffer and blanks, with the cursor where `num` is. -/
def Shows (complete : (Nat → UInt8) → Nat → Completion) (prompt : List UInt8) (r : Reader) (before : List UInt8) :
    Prop :=
  ∃ r' written, cliReadline complete prompt before r = .ret .reading r' ∧ r'.output = r.output ++ prompt ++ written ∧
    (showing prompt [] 0).feed written = showing prompt (bytes r'.buf 0 r'.eolNum) r'.num

private theorem after_snoc (reads : ((Editor.start [] hist).run (before ++ [ch])).1 = .reading) :
    after hist (before ++ [ch]) = (after hist before).step ch ∧
      (Editor.start [] hist).runEcho (before ++ [ch]) =
        (Editor.start [] hist).runEcho before ++ (after hist before).echo ch := by
  obtain ⟨run, echo⟩ := run_append _ (reads_before _ reads) [ch]
  rw [run, Editor.run] at reads
  by_cases goes_on : (after hist before).status ch = .reading
  · refine ⟨?_, ?_⟩
    · rw [after, run, Editor.run]
      exact congrArg Prod.snd (if_pos goes_on)
    · rw [echo, Editor.runEcho, Editor.runEcho, List.append_nil]
      rfl
  · exact absurd ((congrArg Prod.fst (if_neg goes_on)).symm.trans reads) goes_on

private theorem reads_start (reads : ((Editor.start [] hist).run input).1 = .reading) (begins : before <+: input) :
    ((Editor.start [] hist).run before).1 = .reading := by
  obtain ⟨rest, rfl⟩ := begins
  exact reads_before _ reads

section
variable {hist : History} {input : List UInt8} (ok : HistOk hist) (lines : ∀ i, ∀ c ∈ hist.lines i, Printable c)
  (reads : ((Editor.start [] hist).run input).1 = .reading) (no_tab : '\t'.toUInt8 ∉ input)
  (types : TypesPlain hist input)
include ok lines reads no_tab types

private theorem after_plain (begins : before <+: input) : Plain (after hist before) := by
  induction before using List.reverseRecOn with
  | nil => exact ⟨nofun, lines⟩
  | append_singleton before ch ih =>
    have earlier : before <+: input := (List.prefix_append before [ch]).trans begins
    have other : ch ≠ '\t'.toUInt8 := fun tab =>
      no_tab (begins.subset (tab ▸ List.mem_append_right _ List.mem_cons_self))
    have ready := run_ready (start_ready ok (Nat.zero_le _) List.not_mem_nil) before
    rw [(after_snoc (reads_start reads begins)).1]
    exact (step_shown ready (ih earlier) other (types before ch begins) []).1

private theorem inStep_snoc (begins : before ++ [ch] <+: input) (in_step : InStep prompt hist before) :
    InStep prompt hist (before ++ [ch]) ↔ redrawn (after hist before) ch < sysPbsize := by
  have earlier : before <+: input := (List.prefix_append before [ch]).trans begins
  have other : ch ≠ '\t'.toUInt8 := fun tab => no_tab (begins.subset (tab ▸ List.mem_append_right _ List.mem_cons_self))
  have ready := run_ready (start_ready ok (Nat.zero_le _) List.not_mem_nil) before
  have plain := after_plain ok lines reads no_tab types earlier
  obtain ⟨stepped, echo⟩ := after_snoc (reads_start reads begins)
  unfold InStep at in_step ⊢
  rw [stepped, echo, Terminal.feed_append, in_step]
  exact (step_shown ready plain other (types before ch begins) prompt).2

/-- The screen is in step as long as no byte redraws more than `printf` passes on. -/
theorem inStep_of_short (begins : before <+: input)
    (short : ∀ earlier ch, earlier ++ [ch] <+: before → redrawn (after hist earlier) ch < sysPbsize) :
    InStep prompt hist before := by
  induction before using List.reverseRecOn with
  | nil => rfl
  | append_singleton before ch ih =>
    have kept : before <+: before ++ [ch] := List.prefix_append before [ch]
    have in_step := ih (kept.trans begins) fun earlier c more => short earlier c (more.trans kept)
    exact (inStep_snoc ok lines reads no_tab types begins in_step).mpr (short before ch (List.prefix_refl _))

end

/-- What `cread_line` has written while it reads. -/
theorem cliReadline_reading (ok : HistOk r.hist) (no_tab : '\t'.toUInt8 ∉ input)
    (reads : ((Editor.start [] r.hist).run input).1 = .reading) (complete : (Nat → UInt8) → Nat → Completion)
    (prompt : List UInt8) :
    ∃ r', cliReadline complete prompt input r = .ret .reading r' ∧ editor r' = after r.hist input ∧
      r'.output = r.output ++ prompt ++ (Editor.start [] r.hist).runEcho input := by
  have empty : cString (Function.update r.buf 0 0) = [] := cString_empty (Function.update_self ..)
  let r₀ : Reader := { r with buf := Function.update r.buf 0 0, output := r.output ++ prompt }
  have stands : editor r₀.fresh = Editor.start [] r.hist := rfl
  have ready : Ready (editor r₀.fresh) := stands ▸ start_ready ok (Nat.zero_le _) List.not_mem_nil
  obtain ⟨r', returns, -, -, line, -, written⟩ := creadLoop_loops ready no_tab complete
  rw [stands] at returns line written
  rw [reads] at returns
  have begins : cliReadline complete prompt input r =
      (creadAddStr (cString r₀.buf) true >>= fun _ => creadLoop complete input >>= creadFinish) r₀.fresh := by
    unfold cliReadline creadLine
    rw [bind_of_ret (storeBuf_apply (Nat.zero_le _) 0 r), bind_of_ret (putcs_apply prompt _), bind_of_ret (read_apply _),
      bind_of_ret (write_apply _ _)]
  have none : creadAddStr (cString r₀.buf) true r₀.fresh = .ret () r₀.fresh := by
    rw [show cString r₀.buf = [] from empty]
    rfl
  refine ⟨r', ?_, line (by rw [reads]; exact nofun), written reads⟩
  rw [begins, bind_of_ret none, bind_of_ret returns]
  rfl

private theorem shows_iff (ok : HistOk r.hist) (no_tab : '\t'.toUInt8 ∉ before)
    (reads : ((Editor.start [] r.hist).run before).1 = .reading) :
    Shows complete prompt r before ↔ InStep prompt r.hist before := by
  obtain ⟨r', returned, stands, output⟩ := cliReadline_reading ok no_tab reads complete prompt
  have same : shown prompt (after r.hist before) = showing prompt (bytes r'.buf 0 r'.eolNum) r'.num := by
    rw [← stands]
    rfl
  constructor
  · rintro ⟨r'', written, returned', output', shows⟩
    obtain rfl : r' = r'' := by
      rw [returned] at returned'
      cases returned'
      rfl
    rw [output] at output'
    rw [InStep, List.append_cancel_left output', shows, same]
  · intro in_step
    exact ⟨r', _, returned, output, in_step.trans same⟩

private theorem reads_of_ret (ok : HistOk r.hist) (no_tab : '\t'.toUInt8 ∉ input)
    (returned : cliReadline complete prompt input r = .ret .reading r') :
    ((Editor.start [] r.hist).run input).1 = .reading := by
  obtain ⟨result, r'', returned', refined, -⟩ := cliReadline_refined ok no_tab complete prompt rfl
  obtain rfl : result = .reading := by
    rw [returned] at returned'
    cases returned'
    rfl
  cases status : ((Editor.start [] r.hist).run input).1 with
  | reading => rfl
  | entered => cases (refined.entered status).1
  | interrupted => cases (refined.interrupted status).1

/-- At a prompt where only printable characters are typed and there are only such lines to recall, the screen
shows the buffer after every byte exactly if no byte redraws as much as `CONFIG_SYS_PBSIZE` characters. -/
theorem screen_shows_iff (complete : (Nat → UInt8) → Nat → Completion) (prompt : List UInt8) (r : Reader)
    (input : List UInt8) (recorded : Recorded r.hist) (lines : ∀ i, ∀ c ∈ r.hist.lines i, Printable c)
    (reads : ∃ r', cliReadline complete prompt input r = .ret .reading r') (no_tab : '\t'.toUInt8 ∉ input)
    (types : TypesPlain r.hist input) :
    (∀ before, before <+: input → Shows complete prompt r before) ↔
      ∀ before ch, before ++ [ch] <+: input → redrawn (after r.hist before) ch < sysPbsize := by
  have ok := recorded.ok
  obtain ⟨r', returned⟩ := reads
  have reading := reads_of_ret ok no_tab returned
  have in_step : ∀ before, before <+: input → (Shows complete prompt r before ↔ InStep prompt r.hist before) := by
    intro before begins
    exact shows_iff ok (fun tab => no_tab (begins.subset tab)) (reads_start reading begins)
  constructor
  · intro shows before ch begins
    have earlier : before <+: input := (List.prefix_append before [ch]).trans begins
    apply (inStep_snoc ok lines reading no_tab types begins ((in_step _ earlier).mp (shows _ earlier))).mp
    exact (in_step _ begins).mp (shows _ begins)
  · intro short before begins
    apply (in_step before begins).mpr
    apply inStep_of_short ok lines reading no_tab types begins
    exact fun earlier ch more => short earlier ch (more.trans begins)

/-! ## Plain typing -/

private theorem printable_key (printable : Printable c) :
    c ≠ 0 ∧ keyOf c = .char c ∧ ∀ ed : Editor, ed.status c = .reading := by
  have all : ∀ n < 256, Printable (UInt8.ofNat n) → UInt8.ofNat n ≠ 0 ∧ keyOf (UInt8.ofNat n) = .char (UInt8.ofNat n) ∧
      ¬ (UInt8.ofNat n = '\n'.toUInt8 ∨ UInt8.ofNat n = '\r'.toUInt8) ∧ UInt8.ofNat n ≠ ctlCh 'c' := by
    decide +kernel
  have this := all c.toNat c.toNat_lt
  rw [UInt8.ofNat_toNat] at this
  obtain ⟨nonzero, key, goes_on, other⟩ := this printable
  refine ⟨nonzero, key, fun ed => ?_⟩
  rw [Editor.status, if_neg goes_on, if_neg fun interrupt => other interrupt.2]

/-- Printable characters typed at the end of a line are appended and echoed. -/
theorem type_run {ed : Editor} (inserts : ed.insert = true) (at_end : ed.cursor = ed.text.length)
    (idle : ed.pending = []) (room : ed.text.length + str.length ≤ sysCbsize) (printable : ∀ c ∈ str, Printable c) :
    ed.run str = (.reading, { ed with text := ed.text ++ str, cursor := ed.text.length + str.length }) ∧
      ed.runEcho str = str := by
  induction str generalizing ed with
  | nil =>
    rw [List.append_nil, List.length_nil, Nat.add_zero, ← at_end]
    exact ⟨rfl, rfl⟩
  | cons c str ih =>
    obtain ⟨nonzero, key, reading⟩ := printable_key (printable c (List.mem_cons_self ..))
    rw [List.length_cons] at room ⊢
    have step : ed.step c = { ed with text := ed.text ++ [c], cursor := ed.text.length + 1 } := by
      rw [Editor.step, if_neg nonzero, if_pos idle, key, Editor.key, Editor.addChar, if_pos (Or.inl inserts),
        if_pos (by omega), at_end, List.take_length, List.drop_length]
    have one : Editor.cut [c] = [c] := cut_short (show 1 < sysPbsize by decide)
    have echo : ed.echo c = [c] := by
      rw [Editor.echo, if_neg nonzero, if_pos idle, key, Editor.keyEcho, Editor.addCharEcho, if_pos (Or.inl inserts),
        if_pos (by omega), at_end, List.drop_length, Nat.sub_self, one]
      rfl
    obtain ⟨ran, echoed⟩ := @ih (ed.step c) (by rw [step]; exact inserts) (by rw [step]; simp) (by rw [step]; exact idle)
      (by rw [step]; simp only [List.length_append, List.length_singleton]; omega)
      fun c member => printable c (List.mem_cons_of_mem _ member)
    rw [Editor.run, if_pos (reading ed), ran, Editor.runEcho, echoed, echo, step]
    refine ⟨?_, rfl⟩
    simp only [List.append_assoc, List.singleton_append, List.length_append, List.length_singleton, Nat.add_assoc,
      Nat.add_comm 1]

private theorem key_pending (other : key ≠ .escape) (ed : Editor) : (ed.key key).pending = ed.pending := by
  cases key with
  | escape => exact absurd rfl other
  | home | interrupt | forward | back | delete | kill | last | toggle | killLine | tab => rfl
  | backspace =>
    rw [Editor.key]
    split <;> rfl
  | prev | next =>
    rw [Editor.key, Editor.replace]
    split <;> rfl
  | char ch =>
    rw [Editor.key, Editor.addChar]
    split
    · split <;> rfl
    · rfl

private theorem keyOf_escape (escape : keyOf ch = .escape) : ch = 0x1b := by
  have all : ∀ n < 256, keyOf (UInt8.ofNat n) = .escape → UInt8.ofNat n = 0x1b := by decide +kernel
  have this := all ch.toNat ch.toNat_lt
  rw [UInt8.ofNat_toNat] at this
  exact this escape

/-- Without ESC no escape sequence begins. -/
theorem after_idle (reads : ((Editor.start [] hist).run before).1 = .reading) (no_escape : 0x1b ∉ before) :
    (after hist before).pending = [] := by
  induction before using List.reverseRecOn with
  | nil => rfl
  | append_singleton before ch ih =>
    have idle := ih (reads_start reads (List.prefix_append before [ch]))
      fun escape => no_escape (List.mem_append_left _ escape)
    rw [(after_snoc reads).1, Editor.step, if_pos idle]
    split
    · exact idle
    · rw [key_pending, idle]
      intro escape
      exact no_escape (List.mem_append_right _ (List.mem_singleton.mpr (keyOf_escape escape).symm))

private theorem typesPlain_of_keys (reads : ((Editor.start [] hist).run input).1 = .reading) (no_escape : 0x1b ∉ input)
    (keys : ∀ ch ∈ input, ∀ c ∈ keyTyped (keyOf ch), Printable c) : TypesPlain hist input := by
  intro before ch begins c member
  have earlier : before <+: input := (List.prefix_append before [ch]).trans begins
  have idle := after_idle (reads_start reads earlier) fun escape => no_escape (earlier.subset escape)
  rw [typed, if_pos idle] at member
  split at member
  · cases member
  · exact keys ch (begins.subset (List.mem_append_right _ List.mem_cons_self)) c member

/-- A character typed at the start of a line that is one short of full. -/
theorem home_run {ed : Editor} (inserts : ed.insert = true) (idle : ed.pending = []) (room : ed.text.length < sysCbsize)
    (printable : Printable c) :
    ed.run [ctlCh 'a', c] = (.reading, { ed with text := c :: ed.text, cursor := 1 }) ∧
      ed.runEcho [ctlCh 'a', c] =
        Editor.backs ed.cursor ++ (Editor.cut (c :: ed.text) ++ Editor.backs ed.text.length) := by
  obtain ⟨nonzero, key, reading⟩ := printable_key printable
  have home : ed.status (ctlCh 'a') = .reading := by
    rw [Editor.status, if_neg (by decide), if_neg fun interrupt => absurd interrupt.2 (by decide)]
  have step : ed.step (ctlCh 'a') = { ed with cursor := 0 } := by
    rw [Editor.step, if_neg (by decide), if_pos idle]
    rfl
  have echo : ed.echo (ctlCh 'a') = Editor.backs ed.cursor := by
    rw [Editor.echo, if_neg (by decide), if_pos idle]
    rfl
  rw [Editor.run, if_pos home, Editor.run, if_pos (reading _), Editor.run, Editor.runEcho, Editor.runEcho,
    Editor.runEcho, List.append_nil, step, echo]
  constructor
  · rw [Editor.step, if_neg nonzero, if_pos (by exact idle), key, Editor.key, Editor.addChar,
      if_pos (Or.inl (by exact inserts)), if_pos (by exact room)]
    rfl
  · rw [Editor.echo, if_neg nonzero, if_pos (by exact idle), key, Editor.keyEcho, Editor.addCharEcho,
      if_pos (Or.inl (by exact inserts)), if_pos (by exact room)]
    rfl

/-- `n` times `x`, and one more typed at the start of the line. -/
def frontLine (n : Nat) : List UInt8 := List.replicate n 0x78 ++ [ctlCh 'a', 0x78]

private theorem frontLine_run (n : Nat) (room : n < sysCbsize) :
    (Editor.start [] histInit).run (frontLine n) =
        (.reading, ⟨0x78 :: List.replicate n 0x78, 1, true, [], histInit⟩) ∧
      (Editor.start [] histInit).runEcho (frontLine n) = List.replicate n 0x78 ++
        (Editor.backs n ++ (Editor.cut (0x78 :: List.replicate n 0x78) ++ Editor.backs n)) := by
  have printable : Printable 0x78 := by decide
  have length : (List.replicate n (0x78 : UInt8)).length = n := List.length_replicate
  have typed : (Editor.start [] histInit).run (List.replicate n 0x78) = _ ∧ _ := type_run rfl rfl rfl
    (by rw [length]; exact (Nat.zero_add n).trans_le (by omega)) fun c member =>
      List.eq_of_mem_replicate member ▸ printable
  have stands : ((Editor.start [] histInit).run (List.replicate n 0x78)) =
      (.reading, ⟨List.replicate n 0x78, n, true, [], histInit⟩) := by
    rw [typed.1]
    simp [Editor.start]
  obtain ⟨run, echo⟩ := run_append (Editor.start [] histInit) (congrArg Prod.fst stands) [ctlCh 'a', 0x78]
  rw [frontLine, run, echo, stands, typed.2]
  have home : Editor.run ⟨List.replicate n 0x78, n, true, [], histInit⟩ [ctlCh 'a', 0x78] = _ ∧ _ :=
    home_run rfl rfl (by rw [length]; exact room) printable
  rw [length] at home
  exact ⟨home.1, congrArg (List.replicate n 0x78 ++ ·) home.2⟩

private theorem frontLine_plain (n : Nat) (room : n < sysCbsize) :
    '\t'.toUInt8 ∉ frontLine n ∧ TypesPlain histInit (frontLine n) := by
  have bytes : ∀ c ∈ frontLine n, c = 0x78 ∨ c = ctlCh 'a' := by
    intro c member
    rcases List.mem_append.mp member with xs | member
    · exact Or.inl (List.eq_of_mem_replicate xs)
    · rcases List.mem_cons.mp member with home | member
      · exact Or.inr home
      · exact Or.inl (List.mem_singleton.mp member)
  refine ⟨?_, typesPlain_of_keys (congrArg Prod.fst (frontLine_run n room).1) ?_ ?_⟩
  · intro tab
    rcases bytes _ tab with same | same <;> exact absurd same (by decide)
  · intro escape
    rcases bytes _ escape with same | same <;> exact absurd same (by decide)
  · intro ch member c typed
    rcases bytes _ member with rfl | rfl
    · rw [List.mem_singleton.mp (show c ∈ [0x78] from typed)]
      decide
    · exact absurd (show c ∈ [] from typed) List.not_mem_nil

/-- On a line that becomes as long as the buffer of `printf`, the cursor on the screen
stays where it was. -/
theorem frontLine_col (n : Nat) (full : n + 1 = sysPbsize) (prompt : List UInt8) :
    ¬ InStep prompt histInit (frontLine n) := by
  have size : sysCbsize = sysPbsize := rfl
  have xs : ∀ k, ∀ c ∈ List.replicate k (0x78 : UInt8), Printable c := by
    intro k c member
    rw [List.eq_of_mem_replicate member]
    decide
  obtain ⟨ran, echo⟩ := frontLine_run n (by omega)
  rw [InStep, after, ran, echo]
  apply showing_ne
  rw [Terminal.feed_append, Terminal.feed_append, Terminal.feed_append, backs_col, ← List.replicate_succ, cut_col (xs _),
    backs_col, Terminal.feed_col (xs n), List.length_replicate, List.length_replicate]
  dsimp only [showing]
  omega

/-- A character, and one in front of it. -/
theorem screen_shows_front :
    Shows (fun buf num => ⟨false, buf, num, []⟩) (Ctype.ascii ['>', ' ']) firstReader (frontLine 1) := by
  have ok : HistOk firstReader.hist := Recorded.init.ok
  obtain ⟨no_tab, plain⟩ := frontLine_plain 1 (by decide)
  obtain ⟨r', returned, -⟩ := cliReadline_reading ok no_tab (congrArg Prod.fst (frontLine_run 1 (by decide)).1)
    (fun buf num => ⟨false, buf, num, []⟩) (Ctype.ascii ['>', ' '])
  refine (screen_shows_iff _ _ firstReader _ .init (fun _ => nofun) ⟨r', returned⟩ no_tab plain).mpr ?_ _
    (List.prefix_refl _)
  rintro before ch ⟨rest, whole⟩
  rcases before with _ | ⟨a, _ | ⟨b, _ | ⟨c, before⟩⟩⟩
  · cases whole
    decide
  · cases whole
    decide
  · cases whole
    decide
  · cases before <;> cases whole

/-- 1023 characters and one more in front of them: the screen does not show where the cursor is. -/
theorem screen_lags : '\t'.toUInt8 ∉ frontLine 1023 ∧ TypesPlain histInit (frontLine 1023) ∧
    (∃ r', cliReadline (fun buf num => ⟨false, buf, num, []⟩) (Ctype.ascii ['>', ' ']) (frontLine 1023) firstReader =
      .ret .reading r') ∧
      ¬ Shows (fun buf num => ⟨false, buf, num, []⟩) (Ctype.ascii ['>', ' ']) firstReader (frontLine 1023) := by
  have reads := congrArg Prod.fst (frontLine_run 1023 (by decide)).1
  obtain ⟨no_tab, plain⟩ := frontLine_plain 1023 (by decide)
  have ok : HistOk firstReader.hist := Recorded.init.ok
  refine ⟨no_tab, plain, ?_, ?_⟩
  · obtain ⟨r', returned, -⟩ := cliReadline_reading ok no_tab reads
      (fun buf num => ⟨false, buf, num, []⟩) (Ctype.ascii ['>', ' '])
    exact ⟨r', returned⟩
  · rw [shows_iff ok no_tab reads]
    exact frontLine_col 1023 rfl _

end RockOs.LineScreen
