import RockOs.LineBuffer

/-! `cread_line` refines the list editor: buffer, cursor and console output after
every byte are those of `LineEditor.Editor`, no store misses the buffer, and Enter
hands back the text. -/
namespace RockOs.LineRefinement
open CliReadline Config LineBuffer LineEditor Machine

/-- The beginnings of the escape sequences. -/
def beginnings : List (List UInt8) :=
  [[], [0x1b], [0x1b, '['.toUInt8], [0x1b, 'O'.toUInt8]] ++
    (Ctype.ascii ['1', '3', '4', '7', '8']).map fun digit => [0x1b, '['.toUInt8, digit]

/-- What holds of the list editor between two bytes. -/
structure Ready (ed : Editor) : Prop extends Sound ed where
  pending : ed.pending ∈ beginnings

theorem histPrev_ok (ok : HistOk h) :
    HistOk (histPrev h).2 ∧ ∀ i, (histPrev h).1 = .entry i → i < histMax := by
  obtain ⟨max_lt, add_le, cur_le, short, nonzero⟩ := ok
  unfold histPrev
  dsimp only
  split_ifs
  · exact ⟨⟨max_lt, add_le, cur_le, short, nonzero⟩, fun i found => by cases found⟩
  · exact ⟨⟨max_lt, add_le, cur_le, short, nonzero⟩, fun i found => by cases found⟩
  · exact ⟨⟨max_lt, add_le, Int.le_refl _, short, nonzero⟩, fun i found => by cases found; simpa using max_lt⟩
  · exact ⟨⟨max_lt, add_le, cur_le, short, nonzero⟩, fun i found => by cases found⟩
  · exact ⟨⟨max_lt, add_le, by dsimp only; omega, short, nonzero⟩, fun i found => by cases found; omega⟩

theorem histNext_ok (ok : HistOk h) :
    HistOk (histNext h).2 ∧ ∀ i, (histNext h).1 = .entry i → i < histMax := by
  obtain ⟨max_lt, add_le, cur_le, short, nonzero⟩ := ok
  have positive : 0 < histMax := by decide
  unfold histNext
  dsimp only
  split_ifs
  · exact ⟨⟨max_lt, add_le, cur_le, short, nonzero⟩, fun i found => by cases found⟩
  · exact ⟨⟨max_lt, add_le, cur_le, short, nonzero⟩, fun i found => by cases found⟩
  · exact ⟨⟨max_lt, add_le, by dsimp only; omega, short, nonzero⟩, fun i found => by cases found⟩
  · exact ⟨⟨max_lt, add_le, by dsimp only; omega, short, nonzero⟩, fun i found => by cases found; exact positive⟩
  · exact ⟨⟨max_lt, add_le, by dsimp only; omega, short, nonzero⟩, fun i found => by cases found⟩
  · exact ⟨⟨max_lt, add_le, by dsimp only; omega, short, nonzero⟩, fun i found => by cases found; omega⟩

/-- A recall inside the ring is the line it names. -/
theorem recalledLine_apply (inside : ∀ i, recalled = .entry i → i < histMax) (hist : History) (r : Reader) :
    recalledLine hist recalled r = .ret (Editor.recalled hist recalled) r := by
  cases recalled with
  | null => rfl
  | empty => rfl
  | entry i =>
    rw [recalledLine, if_pos (inside i rfl)]
    rfl

theorem recalled_line (ok : HistOk h) (found : Editor.recalled h recalled = some line) :
    line.length ≤ sysCbsize ∧ 0 ∉ line := by
  cases recalled with
  | null => cases found
  | empty =>
    cases found
    exact ⟨Nat.zero_le _, List.not_mem_nil⟩
  | entry i =>
    cases found
    exact ⟨ok.short i, ok.nonzero i⟩

private theorem strcpyBuf_apply (room : line.length ≤ sysCbsize) (r : Reader) :
    strcpyBuf line r =
      .ret () { r with buf := fun i => if i ≤ line.length then line.getD i 0 else r.buf i } := by
  unfold strcpyBuf
  rw [bind_of_ret (read_apply r), if_pos room]
  rfl

theorem bytes_copied (line : List UInt8) (buf : Nat → UInt8) :
    bytes (fun i => if i ≤ line.length then line.getD i 0 else buf i) 0 line.length = line := by
  apply List.ext_getElem?
  intro i
  rw [getElem?_bytes]
  by_cases inside : i < line.length
  · rw [if_pos inside, Nat.zero_add, if_pos (Nat.le_of_lt inside), List.getD_eq_getElem _ _ inside,
      List.getElem?_eq_getElem inside]
  · rw [if_neg inside, List.getElem?_eq_none (Nat.le_of_not_lt inside)]

/-- A line of the history takes the place of the line, whatever was there. -/
theorem replaceLine_does (room : r.eolNum ≤ sysCbsize) (fits : line.length ≤ sysCbsize)
    (clean : 0 ∉ line) :
    Does (do
      beginningOfLine
      eraseToEol
      strcpyBuf line
      let r ← read
      write { r with eolNum := line.length }
      refreshToEol) r () { editor r with text := line, cursor := line.length }
      (Editor.backs r.num ++ Editor.erase r.eolNum ++ Editor.cut line) := by
  have copied := bytes_copied line r.buf
  unfold Does
  rw [bind_of_ret (beginningOfLine_apply r),
    bind_of_ret (eraseToEol_apply (by exact Nat.zero_le _) (by exact room)), bind_of_ret (strcpyBuf_apply fits _),
    bind_of_ret (read_apply _), bind_of_ret (write_apply _ _),
    refreshToEol_apply (by exact Nat.zero_le _) (by exact fits) (by exact copied) clean]
  refine ⟨_, rfl, editor_eq copied rfl rfl rfl rfl, ?_⟩
  show r.output ++ Editor.backs r.num ++ Editor.erase (r.eolNum - 0) ++ Editor.cut line = _
  rw [Nat.sub_zero, List.append_assoc, List.append_assoc, List.append_assoc]

/-- `^P` and `^N`. -/
theorem recallLine_does (sound : Sound (editor r)) (idle : r.escLen = 0)
    (step : (if ch = ctlCh 'p' then histPrev r.hist else histNext r.hist) = found) (ok : HistOk found.2)
    (inside : ∀ i, found.1 = .entry i → i < histMax) :
    Does (recallLine ch) r () ((editor r).replace found) ((editor r).replaceEcho found) := by
  have within : r.num ≤ r.eolNum := (text_length r) ▸ sound.within
  have room : r.eolNum ≤ sysCbsize := (text_length r) ▸ sound.room
  obtain ⟨recalled, hist⟩ := found
  have named := recalledLine_apply inside hist { r with escLen := 0, hist }
  have idle' : bytes r.escSave 0 0 = (editor r).pending := (congrArg (bytes r.escSave 0) idle).symm
  unfold recallLine Editor.replace Editor.replaceEcho
  cases line_eq : Editor.recalled hist recalled with
  | none =>
    rw [line_eq] at named
    refine ⟨{ r with escLen := 0, hist, output := r.output ++ [7] }, ?_, editor_eq rfl rfl rfl idle' rfl, rfl⟩
    rw [bind_of_ret (read_apply r), step]
    exact (bind_of_ret (write_apply _ _)).trans ((bind_of_ret named).trans rfl)
  | some line =>
    rw [line_eq] at named
    obtain ⟨fits, clean⟩ := recalled_line ok line_eq
    obtain ⟨r', returned, stands, written⟩ :=
      replaceLine_does (r := { r with escLen := 0, hist }) (by exact room) fits clean
    refine ⟨r', ?_, ?_, ?_⟩
    · rw [bind_of_ret (read_apply r), step]
      exact (bind_of_ret (write_apply _ _)).trans ((bind_of_ret named).trans returned)
    · rw [stands]
      show Editor.mk line line.length r.insert (bytes r.escSave 0 0) hist = _
      rw [idle']
      rfl
    · rw [written, text_length]
      rfl

/-- The `switch` of `cread_line`, one case for each key. -/
def keyCode (complete : (Nat → UInt8) → Nat → Completion) (r : Reader) : Key → Cread Status
  | .escape => do
    write { r with escSave := Function.update r.escSave 0 0x1b, escLen := 1 }
    return .reading
  | .home => do
    beginningOfLine
    return .reading
  | .interrupt => do
    storeBuf 0 0
    return .interrupted
  | .forward => do
    if r.num < r.eolNum then
      getcmdPutch (r.buf r.num)
      let r ← read
      write { r with num := r.num + 1 }
    return .reading
  | .back => do
    if r.num ≠ 0 then
      getcmdPutch ctlBackspace
      let r ← read
      write { r with num := r.num - 1 }
    return .reading
  | .delete => do
    if r.num < r.eolNum then deleteChar
    return .reading
  | .kill => do
    eraseToEol
    return .reading
  | .last => do
    refreshToEol
    return .reading
  | .toggle => do
    write { r with insert := !r.insert }
    return .reading
  | .killLine => do
    beginningOfLine
    eraseToEol
    return .reading
  | .backspace => do
    if r.num ≠ 0 then backspaceChar
    return .reading
  | .prev => do
    recallLine (ctlCh 'p')
    return .reading
  | .next => do
    recallLine (ctlCh 'n')
    return .reading
  | .tab => do
    tabKey complete
    return .reading
  | .char ch => do
    creadAddChar ch r.insert
    return .reading

theorem keyAction_eq (complete : (Nat → UInt8) → Nat → Completion) (ch : UInt8) (r : Reader) :
    keyAction complete ch r = keyCode complete r (keyOf ch) r := by
  unfold keyAction keyOf
  rw [bind_of_ret (read_apply r)]
  by_cases escape : ch = 0x1b
  · rw [if_pos escape, if_pos escape, escape]
    rfl
  rw [if_neg escape, if_neg escape]
  by_cases home : ch = ctlCh 'a'
  · rw [if_pos home, if_pos home]
    rfl
  rw [if_neg home, if_neg home]
  by_cases interrupt : ch = ctlCh 'c'
  · rw [if_pos interrupt, if_pos interrupt]
    rfl
  rw [if_neg interrupt, if_neg interrupt]
  by_cases forward : ch = ctlCh 'f'
  · rw [if_pos forward, if_pos forward]
    rfl
  rw [if_neg forward, if_neg forward]
  by_cases back : ch = ctlCh 'b'
  · rw [if_pos back, if_pos back]
    rfl
  rw [if_neg back, if_neg back]
  by_cases delete : ch = ctlCh 'd'
  · rw [if_pos delete, if_pos delete]
    rfl
  rw [if_neg delete, if_neg delete]
  by_cases kill : ch = ctlCh 'k'
  · rw [if_pos kill, if_pos kill]
    rfl
  rw [if_neg kill, if_neg kill]
  by_cases last : ch = ctlCh 'e'
  · rw [if_pos last, if_pos last]
    rfl
  rw [if_neg last, if_neg last]
  by_cases toggle : ch = ctlCh 'o'
  · rw [if_pos toggle, if_pos toggle]
    rfl
  rw [if_neg toggle, if_neg toggle]
  by_cases killLine : ch = ctlCh 'x' ∨ ch = ctlCh 'u'
  · rw [if_pos killLine, if_pos killLine]
    rfl
  rw [if_neg killLine, if_neg killLine]
  by_cases backspace : ch = 255 ∨ ch = 127 ∨ ch = 8
  · rw [if_pos backspace, if_pos backspace]
    rfl
  rw [if_neg backspace, if_neg backspace]
  by_cases prev : ch = ctlCh 'p'
  · rw [if_pos (Or.inl prev), if_pos prev, prev]
    rfl
  by_cases next : ch = ctlCh 'n'
  · rw [if_pos (Or.inr next), if_neg prev, if_pos next, next]
    rfl
  rw [if_neg (not_or.mpr ⟨prev, next⟩), if_neg prev, if_neg next]
  by_cases tab : ch = '\t'.toUInt8
  · rw [if_pos tab, if_pos tab]
    rfl
  rw [if_neg tab, if_neg tab]
  rfl

/-- The keys that neither end the line nor complete a command. -/
theorem keyCode_does (sound : Sound (editor r)) (idle : r.escLen = 0) (nonzero : key ≠ .char 0)
    (goes_on : key ≠ .interrupt) (no_tab : key ≠ .tab) :
    Does (keyCode complete r key) r .reading ((editor r).key key) ((editor r).keyEcho key) := by
  have within : r.num ≤ r.eolNum := (text_length r) ▸ sound.within
  have room : r.eolNum ≤ sysCbsize := (text_length r) ▸ sound.room
  have whole : (editor r).text.length = r.eolNum := text_length r
  have nothing : Does (pure Status.reading) r .reading (editor r) [] := does_nothing _ r
  cases key with
  | interrupt => exact absurd rfl goes_on
  | tab => exact absurd rfl no_tab
  | escape => exact ⟨_, rfl, rfl, (List.append_nil _).symm⟩
  | home => exact ⟨_, rfl, rfl, rfl⟩
  | toggle => exact ⟨_, rfl, rfl, (List.append_nil _).symm⟩
  | forward =>
    rw [keyCode, Editor.key, Editor.keyEcho]
    rw [whole, show (editor r).cursor = r.num from rfl, text_drop]
    by_cases more : r.num < r.eolNum
    · rw [if_pos more, Nat.min_eq_left more, take_bytes (by omega)]
      exact ⟨_, rfl, rfl, rfl⟩
    · rw [if_neg more, show r.eolNum - r.num = 0 by omega, Nat.min_eq_right (by omega)]
      rw [show r.eolNum = r.num by omega]
      exact nothing
  | back =>
    rw [keyCode, Editor.key, Editor.keyEcho]
    rw [show (editor r).cursor = r.num from rfl]
    by_cases after : r.num ≠ 0
    · rw [if_pos after, Nat.min_eq_right (by omega)]
      exact ⟨_, rfl, rfl, rfl⟩
    · rw [if_neg after, Classical.not_not.mp after]
      exact ⟨r, rfl, editor_eq rfl (Classical.not_not.mp after) rfl rfl rfl, (List.append_nil _).symm⟩
  | delete =>
    rw [keyCode, Editor.key, Editor.keyEcho]
    rw [whole, show (editor r).cursor = r.num from rfl]
    by_cases more : r.num < r.eolNum
    · rw [if_pos more, if_pos more]
      exact (deleteChar_does sound more).then_return _
    · rw [if_neg more, if_neg more, List.eraseIdx_of_length_le (by omega)]
      exact nothing
  | kill =>
    refine Does.then_return ⟨_, eraseToEol_apply within room, editor_eq ?_ rfl rfl rfl rfl, ?_⟩ _
    · exact (take_bytes within).symm
    · rw [Editor.keyEcho, whole]
      rfl
  | last =>
    refine Does.then_return ⟨_, refreshToEol_apply within room rfl (drop_nonzero sound r.num), ?_, ?_⟩ _
    · rw [Editor.key, whole]
      rfl
    · rw [Editor.keyEcho, text_drop]
      rfl
  | killLine =>
    rw [keyCode, Editor.key, Editor.keyEcho, whole]
    unfold Does
    rw [bind_of_ret (beginningOfLine_apply r),
      bind_of_ret (eraseToEol_apply (by exact Nat.zero_le _) (by exact room))]
    exact ⟨_, rfl, rfl, List.append_assoc ..⟩
  | backspace =>
    rw [keyCode, Editor.key, Editor.keyEcho]
    rw [whole, show (editor r).cursor = r.num from rfl]
    by_cases after : r.num ≠ 0
    · rw [if_pos after, if_neg after, if_neg after]
      exact (backspaceChar_does sound after).then_return _
    · rw [if_neg after, if_pos (Classical.not_not.mp after), if_pos (Classical.not_not.mp after)]
      exact nothing
  | prev =>
    obtain ⟨ok, inside⟩ := histPrev_ok sound.hist
    exact (recallLine_does sound idle (if_pos rfl) ok inside).then_return _
  | next =>
    obtain ⟨ok, inside⟩ := histNext_ok sound.hist
    exact (recallLine_does sound idle (if_neg (by decide)) ok inside).then_return _
  | char ch =>
    exact (creadAddChar_does sound fun zero => nonzero (by rw [zero])).then_return _

private theorem replace_sound (sound : Sound ed) (ok : HistOk found.2) : Sound (ed.replace found) := by
  unfold Editor.replace
  split
  · exact ⟨sound.within, sound.room, sound.nonzero, ok⟩
  · next line line_eq =>
    obtain ⟨fits, clean⟩ := recalled_line ok line_eq
    exact ⟨Nat.le_refl _, fits, clean, ok⟩

private theorem key_sound (sound : Sound ed) (nonzero : key ≠ .char 0) : Sound (ed.key key) := by
  obtain ⟨within, room, clean, hist⟩ := sound
  cases key with
  | escape | interrupt | tab | toggle => exact ⟨within, room, clean, hist⟩
  | home => exact ⟨Nat.zero_le _, room, clean, hist⟩
  | forward => exact ⟨Nat.min_le_right _ _, room, clean, hist⟩
  | back => exact ⟨Nat.le_trans (Nat.sub_le _ _) within, room, clean, hist⟩
  | delete =>
    have clean' : 0 ∉ ed.text.eraseIdx ed.cursor := fun member => clean (List.mem_of_mem_eraseIdx member)
    have shorter := List.length_eraseIdx_le ed.text ed.cursor
    refine ⟨?_, Nat.le_trans shorter room, clean', hist⟩
    show ed.cursor ≤ (ed.text.eraseIdx ed.cursor).length
    rw [List.length_eraseIdx]
    split <;> omega
  | kill =>
    have clean' : 0 ∉ ed.text.take ed.cursor := fun member => clean (List.mem_of_mem_take member)
    have length : (ed.text.take ed.cursor).length = ed.cursor := by simpa using within
    exact ⟨Nat.le_of_eq length.symm, length.symm ▸ Nat.le_trans within room, clean', hist⟩
  | last => exact ⟨Nat.le_refl _, room, clean, hist⟩
  | killLine => exact ⟨Nat.le_refl _, Nat.zero_le _, List.not_mem_nil, hist⟩
  | backspace =>
    rw [Editor.key]
    split
    · exact ⟨within, room, clean, hist⟩
    · have clean' : 0 ∉ ed.text.eraseIdx (ed.cursor - 1) := fun member => clean (List.mem_of_mem_eraseIdx member)
      have shorter := List.length_eraseIdx_le ed.text (ed.cursor - 1)
      refine ⟨?_, Nat.le_trans shorter room, clean', hist⟩
      show ed.cursor - 1 ≤ (ed.text.eraseIdx (ed.cursor - 1)).length
      rw [List.length_eraseIdx_of_lt (by omega)]
      omega
  | prev => exact replace_sound ⟨within, room, clean, hist⟩ (histPrev_ok hist).1
  | next => exact replace_sound ⟨within, room, clean, hist⟩ (histNext_ok hist).1
  | char ch => exact addChar_sound ⟨within, room, clean, hist⟩ fun zero => nonzero (by rw [zero])

private theorem key_ready (ready : Ready ed) (nonzero : key ≠ .char 0) : Ready (ed.key key) := by
  refine ⟨key_sound ready.toSound nonzero, ?_⟩
  have kept : ed.pending ∈ beginnings := ready.pending
  cases key with
  | escape =>
    show [0x1b] ∈ beginnings
    decide
  | interrupt | tab | toggle | home | forward | back | delete | kill | last | killLine => exact kept
  | backspace =>
    rw [Editor.key]
    split <;> exact kept
  | prev | next =>
    rw [Editor.key, Editor.replace]
    split <;> exact kept
  | char ch =>
    rw [Editor.key, Editor.addChar]
    split_ifs <;> exact kept

/-- The characters of escape sequences. -/
def sequenceChars : List UInt8 :=
  0x1b :: Ctype.ascii ['[', 'O', 'D', 'C', 'H', 'F', 'A', 'B', '1', '3', '4', '7', '8', '~']

private theorem escapeSequences_chars : ∀ entry ∈ escapeSequences, ∀ c ∈ entry.1, c ∈ sequenceChars := by
  decide +kernel

private theorem lookup_mem {table : List (List UInt8 × UInt8)} (found : table.lookup key = some value) :
    (key, value) ∈ table := by
  induction table with
  | nil => cases found
  | cons entry table ih =>
    obtain ⟨name, control⟩ := entry
    rw [List.lookup_cons] at found
    split at found
    · next same =>
      cases found
      rw [eq_of_beq same]
      exact List.mem_cons_self ..
    · exact List.mem_cons_of_mem _ (ih found)

/-- A byte that is in no sequence ends the recognition. -/
theorem decode_other (other : ch ∉ sequenceChars) (pending : List UInt8) : decode (pending ++ [ch]) = .reject := by
  have absent : escapeSequences.lookup (pending ++ [ch]) = none := by
    cases found : escapeSequences.lookup (pending ++ [ch]) with
    | none => rfl
    | some key => exact absurd (escapeSequences_chars _ (lookup_mem found) ch (by simp)) other
  have no_way : (escapeSequences.any fun entry => (pending ++ [ch]).isPrefixOf entry.1) = false := by
    refine List.any_eq_false.mpr fun entry member begins => ?_
    have part := List.isPrefixOf_iff_prefix.mp begins
    exact other (escapeSequences_chars entry member ch (part.subset (by simp)))
  unfold decode
  rw [absent, no_way]
  rfl

private theorem escAct_other (other : ch ∉ sequenceChars) (escSave : Nat → UInt8) : escAct n escSave ch = .reject := by
  simp only [sequenceChars, Ctype.ascii, List.map_cons, List.map_nil, List.mem_cons, List.not_mem_nil, not_or] at other
  unfold escAct
  simp [other, Ctype.ascii]

private theorem escAct_known : ∀ pending ∈ beginnings, pending ≠ [] → ∀ ch ∈ sequenceChars,
    escAct pending.length (fun i => pending.getD i 0) ch = decode (pending ++ [ch]) := by
  decide +kernel

private theorem escAct_congr (same : ∀ i < n, escSave i = escSave' i) : escAct n escSave ch = escAct n escSave' ch := by
  unfold escAct
  by_cases one : n = 1
  · rw [if_pos one, if_pos one]
  by_cases two : n = 2
  · rw [if_neg one, if_neg one, if_pos two, if_pos two, same 1 (by omega)]
  by_cases three : n = 3
  · rw [if_neg one, if_neg one, if_neg two, if_neg two, if_pos three, if_pos three, same 2 (by omega)]
  · rw [if_neg one, if_neg one, if_neg two, if_neg two, if_neg three, if_neg three]

/-- The three stages of `cread_line` recognise the table. -/
theorem escAct_eq (begun : (editor r).pending ∈ beginnings) (active : r.escLen ≠ 0) (ch : UInt8) :
    escAct r.escLen r.escSave ch = decode ((editor r).pending ++ [ch]) := by
  by_cases known : ch ∈ sequenceChars
  · have started : (editor r).pending ≠ [] := by
      intro empty
      rw [← pending_length, empty] at active
      exact active rfl
    have saved : ∀ i < r.escLen, r.escSave i = (editor r).pending.getD i 0 := by
      intro i inside
      have byte := getElem?_bytes r.escSave 0 r.escLen i
      rw [if_pos inside, Nat.zero_add] at byte
      rw [List.getD_eq_getElem?_getD, show (editor r).pending = bytes r.escSave 0 r.escLen from rfl, byte]
      rfl
    rw [escAct_congr saved, ← escAct_known _ begun started ch known, pending_length]
  · rw [escAct_other known, decode_other known]

private theorem bytes_succ : bytes buf 0 (n + 1) = bytes buf 0 n ++ [buf n] := by
  unfold bytes
  rw [List.range_succ, List.map_append]
  simp

theorem bytes_update_after : bytes (Function.update buf n ch) 0 n = bytes buf 0 n := by
  apply List.map_congr_left
  intro i member
  have before := List.mem_range.mp member
  exact Function.update_of_ne (by omega) ..

private theorem bytes_update_end : bytes (Function.update buf n ch) 0 (n + 1) = bytes buf 0 n ++ [ch] := by
  rw [bytes_succ, Function.update_self, bytes_update_after]

private theorem beginnings_nonzero : ∀ pending ∈ beginnings, 0 ∉ pending := by decide

private theorem beginnings_short : ∀ pending ∈ beginnings, pending.length < 8 := by decide

/-- `esc_save` has room for the byte after every beginning. -/
theorem storeEsc_does (begun : (editor r).pending ∈ beginnings) (ch : UInt8) :
    Does (storeEsc ch) r () { editor r with pending := (editor r).pending ++ [ch] } [] := by
  have room : r.escLen < 8 := pending_length r ▸ beginnings_short _ begun
  refine ⟨{ r with escSave := Function.update r.escSave r.escLen ch, escLen := r.escLen + 1 }, ?_,
    editor_eq rfl rfl rfl bytes_update_end rfl, (List.append_nil _).symm⟩
  unfold storeEsc
  rw [bind_of_ret (read_apply r), if_pos room]
  rfl

theorem addChar_pending (ed : Editor) (ch : UInt8) (pending : List UInt8) :
    { ed with pending }.addChar ch = { ed.addChar ch with pending } := by
  unfold Editor.addChar
  split
  · split <;> rfl
  · rfl

theorem addStr_pending (ed : Editor) (str pending : List UInt8) :
    { ed with pending }.addStr str = { ed.addStr str with pending } := by
  induction str generalizing ed with
  | nil => rfl
  | cons ch str ih =>
    show ({ ed with pending }.addChar ch).addStr str = _
    rw [addChar_pending, ih]
    rfl

private theorem addStrEcho_pending (ed : Editor) (str pending : List UInt8) :
    { ed with pending }.addStrEcho str = ed.addStrEcho str := by
  induction str generalizing ed with
  | nil => rfl
  | cons ch str ih =>
    show { ed with pending }.addCharEcho ch ++ ({ ed with pending }.addChar ch).addStrEcho str = _
    rw [addChar_pending, ih]
    rfl

theorem sequence_nonzero (ready : Ready ed) (nonzero : ch ≠ 0) : 0 ∉ ed.pending ++ [ch] := by
  intro member
  rcases List.mem_append.mp member with member | member
  · exact beginnings_nonzero _ ready.pending member
  · exact nonzero (List.mem_singleton.mp member).symm

/-- A sequence that cannot be completed is typed in. -/
theorem reject_does (ready : Ready (editor r)) (nonzero : ch ≠ 0) :
    Does (do
      storeEsc ch
      let r ← read
      creadAddStr (bytes r.escSave 0 r.escLen) r.insert
      let r ← read
      write { r with escLen := 0 }
      return Status.reading) r .reading
      ({ editor r with pending := [] }.addStr ((editor r).pending ++ [ch]))
      ({ editor r with pending := [] }.addStrEcho ((editor r).pending ++ [ch])) := by
  have clean := sequence_nonzero ready nonzero
  obtain ⟨r₁, saved, stands₁, written₁⟩ := storeEsc_does ready.pending ch
  have sound₁ : Sound (editor r₁) := by
    rw [stands₁]
    exact ⟨ready.within, ready.room, ready.nonzero, ready.hist⟩
  have sequence : bytes r₁.escSave 0 r₁.escLen = (editor r).pending ++ [ch] := congrArg Editor.pending stands₁
  obtain ⟨r₂, typed, stands₂, written₂⟩ := creadAddStr_does sound₁ clean
  rw [stands₁] at stands₂ written₂
  refine ⟨{ r₂ with escLen := 0 }, ?_, ?_, ?_⟩
  · rw [bind_of_ret saved, bind_of_ret (read_apply r₁), sequence, bind_of_ret typed]
    rfl
  · rw [addStr_pending] at stands₂
    show { editor r₂ with pending := [] } = _
    rw [stands₂]
    exact (addStr_pending (editor r) _ []).symm
  · rw [addStrEcho_pending] at written₂ ⊢
    show r₂.output = _
    rw [written₂, written₁, List.append_nil]

/-- Only `^C` interrupts, only TAB completes and only NUL is typed as NUL. -/
theorem keyOf_only (ch : UInt8) :
    (keyOf ch = .char 0 → ch = 0) ∧ (keyOf ch = .interrupt → ch = ctlCh 'c') ∧
      (keyOf ch = .tab → ch = '\t'.toUInt8) := by
  have all : ∀ n < 256, (keyOf (UInt8.ofNat n) = .char 0 → UInt8.ofNat n = 0) ∧
      (keyOf (UInt8.ofNat n) = .interrupt → UInt8.ofNat n = ctlCh 'c') ∧
        (keyOf (UInt8.ofNat n) = .tab → UInt8.ofNat n = '\t'.toUInt8) := by
    decide +kernel
  have this := all ch.toNat ch.toNat_lt
  rwa [UInt8.ofNat_toNat] at this

theorem escapeSequences_keys : ∀ entry ∈ escapeSequences,
    keyOf entry.2 ≠ .char 0 ∧ keyOf entry.2 ≠ .interrupt ∧ keyOf entry.2 ≠ .tab ∧ keyOf entry.2 ≠ .escape := by
  decide

theorem decode_converted {sequence : List UInt8} (act : decode sequence = .converted key) :
    (sequence, key) ∈ escapeSequences := by
  unfold decode at act
  split at act
  · next found =>
    cases act
    exact lookup_mem found
  · split at act <;> cases act

/-- What one pass of the loop does to the list editor, for a byte that goes on and does not complete a command. -/
theorem turn_does (ready : Ready (editor r)) (no_tab : (editor r).pending = [] → ch ≠ '\t'.toUInt8)
    (goes_on : (editor r).status ch = .reading) :
    Does (turn complete ch) r .reading ((editor r).step ch) ((editor r).echo ch) := by
  have line_goes_on : ¬ (ch = '\n'.toUInt8 ∨ ch = '\r'.toUInt8) := by
    intro ends
    rw [Editor.status, if_pos ends] at goes_on
    cases goes_on
  unfold turn Editor.step Editor.echo
  by_cases zero : ch = 0
  · rw [if_pos zero, if_pos zero]
    refine ⟨r, ?_, rfl, (List.append_nil _).symm⟩
    rw [bind_of_ret (read_apply r), if_pos zero]
    rfl
  rw [if_neg zero, if_neg zero]
  by_cases active : r.escLen ≠ 0
  · have begun : (editor r).pending ≠ [] := by
      intro empty
      rw [← pending_length, empty] at active
      exact active rfl
    have recognised := escAct_eq ready.pending active ch
    rw [if_neg begun, if_neg begun]
    cases act : decode ((editor r).pending ++ [ch]) with
    | save =>
      obtain ⟨r', saved, stands, written⟩ := (storeEsc_does ready.pending ch).then_return Status.reading
      refine ⟨r', ?_, stands, written⟩
      rw [bind_of_ret (read_apply r), if_neg zero, if_neg line_goes_on, if_pos active, recognised, act]
      exact saved
    | reject =>
      obtain ⟨r', typed, stands, written⟩ := reject_does ready zero
      refine ⟨r', ?_, stands, written⟩
      rw [bind_of_ret (read_apply r), if_neg zero, if_neg line_goes_on, if_pos active, recognised, act]
      exact typed
    | converted key =>
      obtain ⟨typed, interrupt, tab, -⟩ := escapeSequences_keys _ (decode_converted act)
      have sound : Sound (editor { r with escLen := 0 }) := ⟨ready.within, ready.room, ready.nonzero, ready.hist⟩
      obtain ⟨r', acts, stands, written⟩ :
          Does (keyCode complete { r with escLen := 0 } (keyOf key)) { r with escLen := 0 } .reading _ _ :=
        keyCode_does sound rfl typed interrupt tab
      refine ⟨r', ?_, stands, written⟩
      rw [← keyAction_eq] at acts
      rw [bind_of_ret (read_apply r), if_neg zero, if_neg line_goes_on, if_pos active, recognised, act]
      exact (bind_of_ret (write_apply _ _)).trans acts
  · have idle : r.escLen = 0 := Classical.not_not.mp active
    have none : (editor r).pending = [] := List.length_eq_zero_iff.mp ((pending_length r).trans idle)
    have other : ch ≠ ctlCh 'c' := by
      intro interrupt
      rw [Editor.status, if_neg line_goes_on, if_pos ⟨none, interrupt⟩] at goes_on
      cases goes_on
    rw [if_pos none, if_pos none]
    obtain ⟨r', acts, stands, written⟩ : Does (keyCode complete r (keyOf ch)) r .reading _ _ :=
      keyCode_does ready.toSound idle (fun is => zero ((keyOf_only ch).1 is))
        (fun is => other ((keyOf_only ch).2.1 is)) fun is => no_tab none ((keyOf_only ch).2.2 is)
    refine ⟨r', ?_, stands, written⟩
    rw [bind_of_ret (read_apply r), if_neg zero, if_neg line_goes_on, if_neg active, keyAction_eq]
    exact acts

private theorem escapeSequences_begin : ∀ entry ∈ escapeSequences, ∀ n < entry.1.length,
    entry.1.take n ∈ beginnings := by
  decide

private theorem escapeSequences_lookup : ∀ entry ∈ escapeSequences, escapeSequences.lookup entry.1 ≠ none := by decide

/-- A sequence that is kept can still be completed. -/
theorem decode_save {sequence : List UInt8} (act : decode sequence = .save) : sequence ∈ beginnings := by
  unfold decode at act
  split at act
  · cases act
  · next absent =>
    split at act
    · next can_go_on =>
      obtain ⟨entry, member, begins⟩ := List.any_eq_true.mp can_go_on
      have part := List.isPrefixOf_iff_prefix.mp begins
      have front := List.prefix_iff_eq_take.mp part
      have shorter : sequence.length ≠ entry.1.length := by
        intro same
        rw [part.eq_of_length same] at absent
        exact escapeSequences_lookup entry member absent
      rw [front]
      exact escapeSequences_begin entry member _ (Nat.lt_of_le_of_ne part.length_le shorter)
    · cases act

/-- Between two bytes the editor is ready again. -/
theorem step_ready (ready : Ready ed) (ch : UInt8) : Ready (ed.step ch) := by
  unfold Editor.step
  by_cases zero : ch = 0
  · rw [if_pos zero]
    exact ready
  rw [if_neg zero]
  by_cases idle : ed.pending = []
  · rw [if_pos idle]
    exact key_ready ready fun is => zero ((keyOf_only ch).1 is)
  rw [if_neg idle]
  cases act : decode (ed.pending ++ [ch]) with
  | save => exact ⟨⟨ready.within, ready.room, ready.nonzero, ready.hist⟩, decode_save act⟩
  | reject =>
    have fresh : Sound { ed with pending := [] } := ⟨ready.within, ready.room, ready.nonzero, ready.hist⟩
    refine ⟨addStr_sound fresh (sequence_nonzero ready zero), ?_⟩
    rw [addStr_pending]
    show [] ∈ beginnings
    decide
  | converted key =>
    have fresh : Ready { ed with pending := [] } :=
      ⟨⟨ready.within, ready.room, ready.nonzero, ready.hist⟩, by show [] ∈ beginnings; decide⟩
    exact key_ready fresh (escapeSequences_keys _ (decode_converted act)).1

end RockOs.LineRefinement
