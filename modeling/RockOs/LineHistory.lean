import RockOs.LineReading

/-! The history over the prompts of a session: which lines the ring holds, and what
`^P` and `^N` recall of them at the start of a prompt. Enter puts the recall position
back to the newest line, but `^C` leaves it where it was. -/
namespace RockOs.LineHistory
open CliReadline Config LineBuffer LineEditor LineReading LineRefinement Machine

/-- The lines stored so far, the newest first, after one more line is entered. -/
def keep (line : List UInt8) (stored : List (List UInt8)) : List (List UInt8) :=
  if line = [] ∨ line.head? = some '!'.toUInt8 then stored else line :: stored

/-- How many of the stored lines can be recalled. -/
def recalls (stored : List (List UInt8)) : Nat := min stored.length (histMax - 1)

/-- The line recalled `p` back, where 0 is the empty line. -/
def lineBack (stored : List (List UInt8)) : (p : Nat) → List UInt8
  | 0 => []
  | p + 1 => stored.getD p []

/-! ## The ring -/

/-- Line `k` back of `n` stored ones stands at `(n - 1 - k) % HIST_MAX`. -/
structure Ring (h : History) (stored : List (List UInt8)) : Prop where
  add : h.addIdx = stored.length % histMax
  max : h.max = recalls stored
  line : ∀ k < histMax, k < stored.length → h.lines ((stored.length - 1 - k) % histMax) = stored.getD k []

private theorem ring_init : Ring histInit [] := ⟨rfl, rfl, nofun⟩

private theorem Ring.of_lines (ring : Ring h stored) (add : h'.addIdx = h.addIdx) (max : h'.max = h.max)
    (lines : h'.lines = h.lines) : Ring h' stored :=
  ⟨add.trans ring.add, max.trans ring.max, lines ▸ ring.line⟩

private theorem creadAddToHist_ring (ring : Ring h stored) (room : line.length ≤ sysCbsize) :
    ∃ h', creadAddToHist line h = some h' ∧ Ring h' (line :: stored) := by
  obtain ⟨add, max, lines⟩ := ring
  have inside : h.addIdx < histMax := add ▸ Nat.mod_lt _ (by decide)
  unfold creadAddToHist
  rw [if_pos ⟨inside, room⟩]
  simp only [histMax, recalls] at *
  refine ⟨_, rfl, ?_, ?_, ?_⟩
  · simp only [histMax, List.length_cons, add]
    split <;> omega
  · simp only [recalls, histMax, List.length_cons, max, add]
    split <;> split <;> omega
  · simp only [histMax, List.length_cons]
    intro k low held
    cases k with
    | zero =>
      rw [show (stored.length + 1 - 1 - 0) % 20 = h.addIdx from add.symm, Function.update_self]
      rfl
    | succ k =>
      rw [Function.update_of_ne (by omega), show stored.length + 1 - 1 - (k + 1) = stored.length - 1 - k by omega,
        lines k (by omega) (by omega)]
      rfl

private theorem storeLine_cur : (storeLine h line).cur = (storeLine h line).addIdx := rfl

private theorem storeLine_ring (ring : Ring h stored) (room : line.length ≤ sysCbsize) :
    Ring (storeLine h line) (keep line stored) := by
  obtain ⟨h', added, ring'⟩ := creadAddToHist_ring ring room
  unfold storeLine keep
  rw [added]
  split
  · exact ring.of_lines rfl rfl rfl
  · exact ring'.of_lines rfl rfl rfl

/-! ## The recall position -/

/-- The history stands `p` lines back. Before the first Enter it stands nowhere. -/
def At (h : History) (stored : List (List UInt8)) (p : Nat) : Prop :=
  h.cur = ((stored.length - p) % histMax : Nat) ∨ stored = [] ∧ h.cur < 0

private theorem prev_null (ring : Ring h stored) (stands : At h stored (recalls stored)) : histPrev h = (.null, h) := by
  obtain ⟨add, max, -⟩ := ring
  unfold histPrev
  simp only [At, recalls, histMax] at add max stands
  rcases stands with cur | ⟨-, none⟩
  · rw [if_neg (by omega)]
    dsimp only
    rw [if_pos (by split <;> omega)]
  · rw [if_pos none]

private theorem prev_entry (ring : Ring h stored) (stands : At h stored p) (more : p < recalls stored) :
    histPrev h = (.entry ((stored.length - (p + 1)) % histMax),
      { h with cur := ((stored.length - (p + 1)) % histMax : Nat) }) := by
  obtain ⟨add, max, -⟩ := ring
  simp only [At, recalls, histMax] at add max stands more ⊢
  have cur : h.cur = ((stored.length - p) % 20 : Nat) := by
    rcases stands with cur | ⟨rfl, -⟩
    · exact cur
    · simp at more
  have back : (if h.cur - 1 < 0 then (h.max : Int) else h.cur - 1) =
      ((stored.length - (p + 1)) % 20 : Nat) := by
    split <;> omega
  unfold histPrev
  rw [if_neg (by omega)]
  dsimp only
  rw [back, if_neg (by omega), Int.toNat_natCast]

private theorem next_null (ring : Ring h stored) (stands : At h stored 0) : histNext h = (.null, h) := by
  unfold histNext
  rcases stands with cur | ⟨-, none⟩
  · rw [if_neg (by omega), if_pos (by rw [cur, ring.add, Nat.sub_zero])]
  · rw [if_pos none]

private theorem next_step (ring : Ring h stored) (stands : At h stored (p + 1)) (low : p + 1 ≤ recalls stored) :
    histNext h = (if p = 0 then .empty else .entry ((stored.length - p) % histMax),
      { h with cur := ((stored.length - p) % histMax : Nat) }) := by
  obtain ⟨add, max, -⟩ := ring
  simp only [At, recalls, histMax] at add max stands low ⊢
  have cur : h.cur = ((stored.length - (p + 1)) % 20 : Nat) := by
    rcases stands with cur | ⟨rfl, -⟩
    · exact cur
    · simp at low
  have forth : (if h.max < h.cur + 1 then 0 else h.cur + 1) = ((stored.length - p) % 20 : Nat) := by
    split <;> omega
  unfold histNext
  rw [if_neg (by omega), if_neg (by omega)]
  dsimp only
  rw [forth]
  cases p with
  | zero => rw [if_pos (by omega), if_pos rfl]
  | succ p => rw [if_neg (by omega), if_neg (by omega), Int.toNat_natCast]

/-! ## Recalls at a prompt -/

/-- A list editor that has gone `p` lines back and shows that line. -/
structure Showing (stored : List (List UInt8)) (p : Nat) (ed : Editor) : Prop where
  ring : Ring ed.hist stored
  stands : At ed.hist stored p
  low : p ≤ recalls stored
  text : ed.text = lineBack stored p
  idle : ed.pending = []

private theorem start_showing (ring : Ring h stored) (newest : At h stored 0) : Showing stored 0 (Editor.start [] h) :=
  ⟨ring, newest, Nat.zero_le _, rfl, rfl⟩

/-- `^P` goes one line back as long as there is one. -/
theorem prev_showing (showing : Showing stored p ed) :
    Showing stored (min (p + 1) (recalls stored)) (ed.step (ctlCh 'p')) := by
  obtain ⟨ring, stands, low, text, idle⟩ := showing
  have key : ed.step (ctlCh 'p') = ed.replace (histPrev ed.hist) := by
    rw [Editor.step, if_neg (by decide), if_pos idle]
    rfl
  rw [key]
  by_cases more : p < recalls stored
  · rw [prev_entry ring stands more, Nat.min_eq_left more]
    refine ⟨ring.of_lines rfl rfl rfl, Or.inl rfl, more, ?_, idle⟩
    simp only [recalls, histMax] at more
    have line := ring.line p (by simp only [histMax]; omega) (by omega)
    rw [show stored.length - 1 - p = stored.length - (p + 1) by omega] at line
    exact line
  · obtain rfl : p = recalls stored := by omega
    rw [prev_null ring stands, Nat.min_eq_right (Nat.le_succ _)]
    exact ⟨ring, stands, low, text, idle⟩

/-- `^N` goes one line forth, down to the empty line. -/
theorem next_showing (showing : Showing stored p ed) : Showing stored (p - 1) (ed.step (ctlCh 'n')) := by
  obtain ⟨ring, stands, low, text, idle⟩ := showing
  have key : ed.step (ctlCh 'n') = ed.replace (histNext ed.hist) := by
    rw [Editor.step, if_neg (by decide), if_pos idle]
    rfl
  rw [key]
  cases p with
  | zero =>
    rw [next_null ring stands]
    exact ⟨ring, stands, low, text, idle⟩
  | succ p =>
    rw [next_step ring stands low, Nat.add_sub_cancel]
    cases p with
    | zero => exact ⟨ring.of_lines rfl rfl rfl, Or.inl rfl, Nat.zero_le _, rfl, idle⟩
    | succ p =>
      refine ⟨ring.of_lines rfl rfl rfl, Or.inl rfl, by omega, ?_, idle⟩
      simp only [recalls, histMax] at low
      have line := ring.line p (by simp only [histMax]; omega) (by omega)
      rw [show stored.length - 1 - p = stored.length - (p + 1) by omega] at line
      exact line

private theorem run_prev (showing : Showing stored p ed) (i : Nat) (rest : List UInt8) :
    ∃ ed', ed.run (List.replicate i (ctlCh 'p') ++ rest) = ed'.run rest ∧
      Showing stored (min (p + i) (recalls stored)) ed' := by
  induction i generalizing p ed with
  | zero =>
    rw [Nat.add_zero, Nat.min_eq_left showing.low]
    exact ⟨ed, rfl, showing⟩
  | succ i ih =>
    obtain ⟨ed', ran, shows⟩ := ih (prev_showing showing)
    refine ⟨ed', ?_, ?_⟩
    · rw [List.replicate_succ, List.cons_append, Editor.run, if_pos (by rw [Editor.status, showing.idle]; decide)]
      exact ran
    · rw [show min (p + (i + 1)) (recalls stored) = min (min (p + 1) (recalls stored) + i) (recalls stored) by omega]
      exact shows

private theorem run_next (showing : Showing stored p ed) (j : Nat) :
    ∃ ed', ed.run (List.replicate j (ctlCh 'n')) = (.reading, ed') ∧ Showing stored (p - j) ed' := by
  induction j generalizing p ed with
  | zero => exact ⟨ed, rfl, showing⟩
  | succ j ih =>
    obtain ⟨ed', ran, shows⟩ := ih (next_showing showing)
    refine ⟨ed', ?_, ?_⟩
    · rw [List.replicate_succ, Editor.run, if_pos (by rw [Editor.status, showing.idle]; decide)]
      exact ran
    · rw [show p - (j + 1) = p - 1 - j by omega]
      exact shows

/-! ## What a prompt does to the history -/

/-- The histories that recalls lead to from `h`. -/
inductive Moved (h : History) : History → Prop
  | start : Moved h h
  | prev : Moved h h' → Moved h (histPrev h').2
  | next : Moved h h' → Moved h (histNext h').2

theorem Moved.ok (moved : Moved h h') (ok : HistOk h) : HistOk h' := by
  induction moved with
  | start => exact ok
  | prev _ ih => exact (histPrev_ok ih).1
  | next _ ih => exact (histNext_ok ih).1

/-- Recalls keep the lines and stay among those that can be recalled. -/
theorem Moved.ring (moved : Moved h h') (ring : Ring h stored) (stands : At h stored 0) :
    Ring h' stored ∧ ∃ p ≤ recalls stored, At h' stored p := by
  induction moved with
  | start => exact ⟨ring, 0, Nat.zero_le _, stands⟩
  | prev _ ih =>
    obtain ⟨ring', p, low, stands'⟩ := ih
    by_cases more : p < recalls stored
    · rw [prev_entry ring' stands' more]
      exact ⟨ring'.of_lines rfl rfl rfl, p + 1, more, Or.inl rfl⟩
    · obtain rfl : p = recalls stored := by omega
      rw [prev_null ring' stands']
      exact ⟨ring', _, low, stands'⟩
  | next _ ih =>
    obtain ⟨ring', p, low, stands'⟩ := ih
    cases p with
    | zero =>
      rw [next_null ring' stands']
      exact ⟨ring', 0, low, stands'⟩
    | succ p =>
      rw [next_step ring' stands' low]
      exact ⟨ring'.of_lines rfl rfl rfl, p, by omega, Or.inl rfl⟩

section
variable {h : History}

/-- The code does nothing to the history but recall from it. -/
abbrev Recalls (h : History) (code : Cread α) : Prop := Preserves (fun r => Moved h r.hist) code

private theorem write_recalls {r : Reader} (moved : Moved h r.hist) : Recalls h (write r) := .write moved

private theorem putcs_recalls (text : List UInt8) : Recalls h (putcs text) := .read fun _ moved => write_recalls moved

private theorem printf_recalls (fmt : List UInt8) (args : List Vsprintf.Arg) :
    Recalls h (CliReadline.printf fmt args) := by
  unfold CliReadline.printf
  split
  · exact putcs_recalls _
  · exact .fault

private theorem putnstr_recalls (start n : Nat) : Recalls h (putnstr start n) := by
  unfold putnstr
  refine .read fun r _ => ?_
  apply printf_recalls

private theorem storeBuf_recalls (i : Nat) (ch : UInt8) : Recalls h (storeBuf i ch) := by
  unfold storeBuf
  refine .read fun r moved => ?_
  split
  · exact write_recalls moved
  · exact .fault

private theorem memmoveBuf_recalls (dst src n : Nat) : Recalls h (memmoveBuf dst src n) := by
  unfold memmoveBuf
  refine .read fun r moved => ?_
  split
  · exact write_recalls moved
  · exact .fault

private theorem strcpyBuf_recalls (line : List UInt8) : Recalls h (strcpyBuf line) := by
  unfold strcpyBuf
  refine .read fun r moved => ?_
  split
  · exact write_recalls moved
  · exact .fault

private theorem storeEsc_recalls (ch : UInt8) : Recalls h (storeEsc ch) := by
  unfold storeEsc
  refine .read fun r moved => ?_
  split
  · exact write_recalls moved
  · exact .fault

private theorem beginningOfLine_recalls : Recalls h beginningOfLine :=
  .read fun _ _ => (putcs_recalls _).bind fun _ => .read fun _ moved => write_recalls moved

private theorem eraseToEol_recalls : Recalls h eraseToEol := by
  unfold eraseToEol
  refine .read fun r _ => ?_
  split
  · exact (printf_recalls _ _).bind fun _ => (putcs_recalls _).bind fun _ => .read fun _ moved => write_recalls moved
  · exact .ret ()

private theorem refreshToEol_recalls : Recalls h refreshToEol := by
  unfold refreshToEol
  refine .read fun r _ => ?_
  split
  · exact (putnstr_recalls _ _).bind fun _ => .read fun _ moved => write_recalls moved
  · exact .ret ()

private theorem creadPutChar_recalls (ch : UInt8) (insert : Bool) : Recalls h (creadPutChar ch insert) := by
  unfold creadPutChar
  refine .read fun r _ => ?_
  split
  · have shown : Recalls h (do
        storeBuf r.num ch
        putnstr r.num (r.eolNum - r.num)
        let r' ← read
        write { r' with num := r'.num + 1 }
        putcs (List.replicate (r.eolNum - r.num - 1) ctlBackspace)) := by
      refine (storeBuf_recalls _ _).bind fun _ => (putnstr_recalls _ _).bind fun _ => .read fun _ moved => ?_
      exact (write_recalls (by exact moved)).bind fun _ => putcs_recalls _
    refine .ite (fun _ => ?_) fun _ => ?_
    · exact (memmoveBuf_recalls _ _ _).bind fun _ => shown
    · exact shown
  · refine (storeBuf_recalls _ _).bind fun _ => (putnstr_recalls _ _).bind fun _ => .read fun _ moved => ?_
    exact write_recalls moved

private theorem creadAddChar_recalls (ch : UInt8) (insert : Bool) : Recalls h (creadAddChar ch insert) := by
  unfold creadAddChar
  refine .read fun r moved => ?_
  split
  · split
    · exact putcs_recalls _
    · exact (write_recalls (by exact moved)).bind fun _ => creadPutChar_recalls ch insert
  · exact creadPutChar_recalls ch insert

private theorem creadAddStr_recalls (str : List UInt8) (insert : Bool) : Recalls h (creadAddStr str insert) := by
  induction str with
  | nil => exact .ret ()
  | cons ch str ih => exact (creadAddChar_recalls ch insert).bind fun _ => ih

private theorem deleteChar_recalls : Recalls h deleteChar := by
  unfold deleteChar
  refine .read fun r _ => ?_
  have blanked : ∀ n, Recalls h (do
      putcs (' '.toUInt8 :: List.replicate n ctlBackspace)
      let r ← read
      write { r with eolNum := r.eolNum - 1 }) :=
    fun n => (putcs_recalls _).bind fun _ => .read fun _ moved => write_recalls moved
  refine .ite (fun _ => ?_) fun _ => blanked _
  exact (memmoveBuf_recalls _ _ _).bind fun _ => (putnstr_recalls _ _).bind fun _ => blanked _

private theorem backspaceChar_recalls : Recalls h backspaceChar := by
  unfold backspaceChar
  refine .read fun r moved => ?_
  refine (write_recalls (by exact moved)).bind fun _ => ?_
  refine (memmoveBuf_recalls _ _ _).bind fun _ => (putcs_recalls _).bind fun _ => ?_
  refine (putnstr_recalls _ _).bind fun _ => (putcs_recalls _).bind fun _ => ?_
  exact .read fun _ moved => write_recalls moved

private theorem recallLine_recalls (ch : UInt8) : Recalls h (recallLine ch) := by
  unfold recallLine
  refine .read fun r moved => ?_
  have recalled : Moved h (if ch = ctlCh 'p' then histPrev r.hist else histNext r.hist).2 := by
    split
    · exact .prev moved
    · exact .next moved
  generalize (if ch = ctlCh 'p' then histPrev r.hist else histNext r.hist) = found at recalled
  obtain ⟨line, hist⟩ := found
  refine (write_recalls (by exact recalled)).bind fun _ => .bind ?_ fun hline => ?_
  · cases line with
    | null => exact .ret none
    | empty => exact .ret (some [])
    | entry i => exact .ite (fun _ => .ret _) fun _ => .fault
  · cases hline with
    | none => exact putcs_recalls _
    | some hline =>
      exact beginningOfLine_recalls.bind fun _ => eraseToEol_recalls.bind fun _ => (strcpyBuf_recalls _).bind fun _ =>
        .read fun _ moved => (write_recalls (by exact moved)).bind fun _ => refreshToEol_recalls

variable (complete : (Nat → UInt8) → Nat → Completion)

private theorem tabKey_recalls : Recalls h (tabKey complete) := by
  unfold tabKey
  refine .read fun r _ => ?_
  split
  · exact putcs_recalls _
  · exact (storeBuf_recalls _ _).bind fun _ => .read fun _ moved => write_recalls moved

private theorem keyCode_recalls (moved : Moved h r.hist) (key : Key) : Recalls h (keyCode complete r key) := by
  have when : ∀ {condition : Prop} [Decidable condition] {code : Cread Unit}, Recalls h code →
      Recalls h (do
        if condition then code
        return Status.reading) := by
    intro condition _ code keeps
    exact .ite (fun _ => keeps.bind fun _ => .ret _) fun _ => .ret _
  cases key with
  | escape => exact (write_recalls (by exact moved)).bind fun _ => .ret _
  | home => exact beginningOfLine_recalls.bind fun _ => .ret _
  | interrupt => exact (storeBuf_recalls _ _).bind fun _ => .ret _
  | forward =>
    refine .ite (fun _ => (putcs_recalls _).bind fun _ => .read fun _ moved => ?_) fun _ => .ret _
    exact (write_recalls (by exact moved)).bind fun _ => .ret _
  | back =>
    refine .ite (fun _ => (putcs_recalls _).bind fun _ => .read fun _ moved => ?_) fun _ => .ret _
    exact (write_recalls (by exact moved)).bind fun _ => .ret _
  | delete => exact when deleteChar_recalls
  | kill => exact eraseToEol_recalls.bind fun _ => .ret _
  | last => exact refreshToEol_recalls.bind fun _ => .ret _
  | toggle => exact (write_recalls (by exact moved)).bind fun _ => .ret _
  | killLine => exact beginningOfLine_recalls.bind fun _ => eraseToEol_recalls.bind fun _ => .ret _
  | backspace => exact when backspaceChar_recalls
  | prev => exact (recallLine_recalls _).bind fun _ => .ret _
  | next => exact (recallLine_recalls _).bind fun _ => .ret _
  | tab => exact (tabKey_recalls complete).bind fun _ => .ret _
  | char ch => exact (creadAddChar_recalls _ _).bind fun _ => .ret _

private theorem keyAction_recalls (ch : UInt8) : Recalls h (keyAction complete ch) := by
  constructor
  intro r moved
  rw [keyAction_eq]
  exact (keyCode_recalls complete moved (keyOf ch)).guards r moved

private theorem turn_recalls (ch : UInt8) : Recalls h (turn complete ch) := by
  unfold turn
  refine .read fun r moved => ?_
  refine .ite (fun _ => .ret _) fun _ => .ite (fun _ => (putcs_recalls _).bind fun _ => .ret _) fun _ => ?_
  refine .ite (fun _ => ?_) fun _ => keyAction_recalls complete ch
  cases escAct r.escLen r.escSave ch with
  | save => exact (storeEsc_recalls _).bind fun _ => .ret _
  | reject =>
    refine (storeEsc_recalls _).bind fun _ => .read fun _ _ => (creadAddStr_recalls _ _).bind fun _ => ?_
    exact .read fun _ moved => (write_recalls (by exact moved)).bind fun _ => .ret _
  | converted key => exact (write_recalls (by exact moved)).bind fun _ => keyAction_recalls complete key

private theorem creadLoop_recalls (input : List UInt8) : Recalls h (creadLoop complete input) := by
  induction input with
  | nil => exact .ret _
  | cons ch input ih =>
    refine (turn_recalls complete ch).bind fun status => ?_
    cases status with
    | reading => exact ih
    | entered => exact .ret _
    | interrupted => exact .ret _

end

/-! ## Sessions -/

/-- A prompt that is over made recalls, and then Enter stored the string it left in the
buffer or `^C` changed nothing. -/
theorem cliReadline_hist (ok : HistOk r.hist) (returned : cliReadline complete prompt input r = .ret result r') :
    (result = .interrupted → Moved r.hist r'.hist) ∧
      ∀ len, result = .line len → (cString r'.buf).length ≤ sysCbsize ∧
        ∃ h, Moved r.hist h ∧ r'.hist = storeLine h (cString r'.buf) := by
  unfold cliReadline creadLine at returned
  rw [bind_of_ret (storeBuf_apply (Nat.zero_le _) 0 r), bind_of_ret (putcs_apply prompt _), bind_of_ret (read_apply _),
    bind_of_ret (write_apply _ _)] at returned
  generalize cString _ = str at returned
  obtain ⟨-, r₃, moved₃, returned⟩ :=
    (creadAddStr_recalls (h := r.hist) str true).rest_ret (by exact .start) returned
  obtain ⟨status, r₄, moved₄, returned⟩ := (creadLoop_recalls complete input).rest_ret moved₃ returned
  cases status with
  | reading =>
    cases returned
    exact ⟨(fun other => by cases other), fun _ other => by cases other⟩
  | interrupted =>
    cases returned
    exact ⟨fun _ => moved₄, fun _ other => by cases other⟩
  | entered =>
    have ok₄ := moved₄.ok ok
    rw [creadFinish, bind_of_ret (read_apply r₄)] at returned
    by_cases room : r₄.eolNum ≤ sysCbsize
    · rw [bind_of_ret (creadEnter_eq ok₄ room)] at returned
      cases returned
      refine ⟨(fun other => by cases other), fun _ _ => ⟨?_, r₄.hist, moved₄, rfl⟩⟩
      exact cString_short (Function.update_self r₄.eolNum 0 r₄.buf) room
    · have outside : (creadEnter >>= fun _ => (pure (.line r₄.eolNum) : Cread Result)) r₄ = .fault r₄ := by
        unfold creadEnter storeBuf
        rw [bind_assoc, bind_of_ret (read_apply r₄), bind_assoc, bind_assoc, bind_of_ret (read_apply r₄), if_neg room]
        rfl
      rw [outside] at returned
      cases returned

/-- A session so far: the prompts since `hist_init`, each ended by Enter or given up
with `^C` in a history that `Left` allows, and the lines stored, newest first. -/
inductive Session (Left : History → Prop) : List (List UInt8) → Reader → Prop
  | first : r.hist = histInit → Session Left [] r
  | entered : Session Left stored r → cliReadline complete prompt input r = .ret (.line len) r' →
      Session Left (keep (cString r'.buf) stored) r'
  | abandoned : Session Left stored r → cliReadline complete prompt input r = .ret .interrupted r' → Left r'.hist →
      Session Left stored r'

/-- No line of the history is selected. -/
def Newest (h : History) : Prop := h.cur = h.addIdx ∨ h.cur < 0

theorem Session.ok (session : Session Left stored r) : HistOk r.hist := by
  induction session with
  | first start =>
    rw [start]
    exact Recorded.init.ok
  | entered _ returned ok =>
    obtain ⟨short, h, moved, hist⟩ := (cliReadline_hist ok returned).2 _ rfl
    rw [hist]
    exact storeLine_ok (moved.ok ok) short (cString_nonzero _)
  | abandoned _ returned _ ok => exact ((cliReadline_hist ok returned).1 rfl).ok ok

theorem Session.ring (session : Session Newest stored r) : Ring r.hist stored ∧ At r.hist stored 0 := by
  induction session with
  | first start =>
    rw [start]
    exact ⟨ring_init, Or.inr ⟨rfl, by decide⟩⟩
  | entered before returned ih =>
    obtain ⟨ring, stands⟩ := ih
    obtain ⟨short, h, moved, hist⟩ := (cliReadline_hist before.ok returned).2 _ rfl
    have ring' := storeLine_ring (moved.ring ring stands).1 short
    rw [hist]
    refine ⟨ring', Or.inl ?_⟩
    rw [Nat.sub_zero, ← ring'.add]
    exact storeLine_cur
  | abandoned before returned left ih =>
    obtain ⟨ring, stands⟩ := ih
    obtain ⟨ring', p, low, stands'⟩ := ((cliReadline_hist before.ok returned).1 rfl).ring ring stands
    refine ⟨ring', ?_⟩
    rcases left with newest | none
    · exact Or.inl (by rw [newest, ring'.add, Nat.sub_zero])
    · rcases stands' with cur | nothing
      · omega
      · exact Or.inr nothing

/-- A prompt at which a line is typed and entered. -/
theorem Session.enter (session : Session Left stored r) (input : List UInt8) (no_tab : '\t'.toUInt8 ∉ input)
    (typed : (Editor.start [] r.hist).run input = (.entered, ed)) :
    ∃ r', Session Left (keep ed.text stored) r' ∧ r'.hist = storeLine ed.hist ed.text := by
  obtain ⟨result, r', returned, refined, hist⟩ :=
    cliReadline_refined session.ok no_tab (fun buf num => ⟨false, buf, num, []⟩) [] typed
  obtain ⟨rfl, length, text, ended⟩ := refined.entered rfl
  have clean : 0 ∉ bytes r'.buf 0 r'.eolNum := by
    have ready := run_ready (start_ready session.ok (Nat.zero_le _) List.not_mem_nil) input
    rw [typed] at ready
    rw [text]
    exact ready.nonzero
  have line : cString r'.buf = ed.text := by
    rw [← Function.update_eq_self r'.eolNum r'.buf, ended, cString_ended refined.bounds.2 clean, text]
  exact ⟨r', line ▸ .entered session returned, hist⟩

/-- A prompt that is given up. -/
theorem Session.abandon (session : Session Left stored r) (input : List UInt8) (no_tab : '\t'.toUInt8 ∉ input)
    (typed : (Editor.start [] r.hist).run input = (.interrupted, ed)) (left : Left ed.hist) :
    ∃ r', Session Left stored r' ∧ r'.hist = ed.hist := by
  obtain ⟨result, r', returned, refined, hist⟩ :=
    cliReadline_refined session.ok no_tab (fun buf num => ⟨false, buf, num, []⟩) [] typed
  obtain ⟨rfl, -⟩ := refined.interrupted rfl
  exact ⟨r', .abandoned session returned (hist ▸ left), hist⟩

/-- In every session in which no prompt is given up with `^C` while a line of the history is selected, `i` times `^P`
and then `j` times `^N` at a new prompt show the line that many back, as far as lines can be recalled. -/
theorem history_recalls (session : Session Newest stored r) (complete : (Nat → UInt8) → Nat → Completion)
    (prompt : List UInt8) (i j : Nat) :
    ∃ r', cliReadline complete prompt (List.replicate i (ctlCh 'p') ++ List.replicate j (ctlCh 'n')) r =
        .ret .reading r' ∧
      bytes r'.buf 0 r'.eolNum = lineBack stored (min i (recalls stored) - j) := by
  obtain ⟨ring, newest⟩ := session.ring
  obtain ⟨ed₁, went_back, back⟩ := run_prev (start_showing ring newest) i (List.replicate j (ctlCh 'n'))
  obtain ⟨ed₂, went_forth, shows⟩ := run_next back j
  have no_tab : '\t'.toUInt8 ∉ List.replicate i (ctlCh 'p') ++ List.replicate j (ctlCh 'n') := by
    intro tab
    rcases List.mem_append.mp tab with back | forth
    · exact absurd (List.eq_of_mem_replicate back) (by decide)
    · exact absurd (List.eq_of_mem_replicate forth) (by decide)
  obtain ⟨result, r', returned, refined, -⟩ :=
    cliReadline_refined session.ok no_tab complete prompt (went_back.trans went_forth)
  obtain ⟨rfl, text, -⟩ := refined.reading rfl
  refine ⟨r', returned, ?_⟩
  rw [text, shows.text, Nat.zero_add]

/-- `a` and `b` have been entered. -/
theorem entered_two (Left : History → Prop) : ∃ r, Session Left [[0x62], [0x61]] r ∧
    r.hist = storeLine (storeLine histInit [0x61]) [0x62] := by
  have session₀ : Session Left [] firstReader := .first rfl
  obtain ⟨r₁, session₁, hist₁⟩ := session₀.enter [0x61, 0x0d] (by decide) rfl
  obtain ⟨r₂, session₂, hist₂⟩ := session₁.enter [0x62, 0x0d] (by decide) (by rw [hist₁]; rfl)
  exact ⟨r₂, session₂, hist₂⟩

/-- After `^P`, `^N` and `^C`, two `^P` show the second newest line. -/
theorem history_recalls_second : ∃ r r', Session Newest [[0x62], [0x61]] r ∧
    cliReadline (fun buf num => ⟨false, buf, num, []⟩) [] [ctlCh 'p', ctlCh 'p'] r = .ret .reading r' ∧
      bytes r'.buf 0 r'.eolNum = [0x61] := by
  obtain ⟨r, session, hist⟩ := entered_two Newest
  obtain ⟨r₁, session₁, -⟩ := session.abandon [ctlCh 'p', ctlCh 'n', ctlCh 'c'] (by decide) (by rw [hist]; rfl)
    (Or.inl rfl)
  obtain ⟨r', returned, shown⟩ := history_recalls session₁ (fun buf num => ⟨false, buf, num, []⟩) [] 2 0
  exact ⟨r₁, r', session₁, returned, shown⟩

/-- After `^P` and `^C`, the first `^P` shows the second newest line. -/
theorem history_skips : ∃ r r', Session (fun _ => True) [[0x62], [0x61]] r ∧
    cliReadline (fun buf num => ⟨false, buf, num, []⟩) [] [ctlCh 'p'] r = .ret .reading r' ∧
      bytes r'.buf 0 r'.eolNum = [0x61] ∧ lineBack [[0x62], [0x61]] 1 = [0x62] := by
  obtain ⟨r, session, hist⟩ := entered_two fun _ => True
  obtain ⟨r₁, session₁, hist₁⟩ := session.abandon [ctlCh 'p', ctlCh 'c'] (by decide) (by rw [hist]; rfl) trivial
  obtain ⟨result, r', returned, refined, -⟩ := cliReadline_refined session₁.ok
    (show '\t'.toUInt8 ∉ [ctlCh 'p'] by decide) (fun buf num => ⟨false, buf, num, []⟩) [] rfl
  have back : (Editor.start [] r₁.hist).run [ctlCh 'p'] =
      (.reading, ⟨[0x61], 1, true, [], { r₁.hist with cur := 0 }⟩) := by
    rw [hist₁]
    rfl
  rw [back] at refined
  obtain ⟨rfl, text, -⟩ := refined.reading rfl
  exact ⟨r₁, r', session₁, returned, text, rfl⟩

end RockOs.LineHistory
