import RockOs.LineEditor

/-! The buffer of `cread_line` as a list of characters with a cursor: what each
primitive that stores, moves or shows characters does to the list, and what it
writes to the console. -/
namespace RockOs.LineBuffer
open CliReadline Config LineEditor Machine

private theorem bytes_length : (bytes buf start n).length = n := by simp [bytes]

theorem getElem?_bytes (buf : Nat → UInt8) (start n i : Nat) :
    (bytes buf start n)[i]? = if i < n then some (buf (start + i)) else none := by
  unfold bytes
  by_cases inside : i < n
  · simp [inside]
  · rw [if_neg inside, List.getElem?_eq_none (by simp; omega)]

private theorem drop_bytes : (bytes buf start n).drop k = bytes buf (start + k) (n - k) := by
  apply List.ext_getElem?
  intro i
  rw [List.getElem?_drop, getElem?_bytes, getElem?_bytes]
  by_cases inside : k + i < n
  · rw [if_pos inside, if_pos (by omega), Nat.add_assoc]
  · rw [if_neg inside, if_neg (by omega)]

theorem take_bytes (low : k ≤ n) : (bytes buf start n).take k = bytes buf start k := by
  apply List.ext_getElem?
  intro i
  rw [List.getElem?_take, getElem?_bytes, getElem?_bytes]
  by_cases inside : i < k
  · rw [if_pos inside, if_pos inside, if_pos (by omega)]
  · rw [if_neg inside, if_neg inside]

/-- The list with a character put in at `c`. -/
theorem getElem?_insert {text : List UInt8} (within : c ≤ text.length) (i : Nat) :
    (text.take c ++ ch :: text.drop c)[i]? =
      if i < c then text[i]? else if i = c then some ch else text[i - 1]? := by
  have front : (text.take c).length = c := by simpa using within
  by_cases before : i < c
  · rw [if_pos before, List.getElem?_append_left (by omega), List.getElem?_take_of_lt before]
  rw [if_neg before, List.getElem?_append_right (by omega), front]
  by_cases here : i = c
  · rw [if_pos here, here, Nat.sub_self]
    rfl
  · rw [if_neg here, show i - c = i - c - 1 + 1 by omega, List.getElem?_cons_succ, List.getElem?_drop]
    congr 1
    omega

/-- History entries are strings that fit the buffer, and the indices are inside the
ring. -/
structure HistOk (h : History) : Prop where
  max_lt : h.max < histMax
  add_le : h.addIdx ≤ h.max
  cur_le : h.cur ≤ h.max
  short : ∀ i, (h.lines i).length ≤ sysCbsize
  nonzero : ∀ i, 0 ∉ h.lines i

/-- What holds of the list editor's line at all times. -/
structure Sound (ed : Editor) : Prop where
  within : ed.cursor ≤ ed.text.length
  room : ed.text.length ≤ sysCbsize
  nonzero : 0 ∉ ed.text
  hist : HistOk ed.hist

/-- The editor a reader stands for. -/
def editor (r : Reader) : Editor :=
  ⟨bytes r.buf 0 r.eolNum, r.num, r.insert, bytes r.escSave 0 r.escLen, r.hist⟩

theorem text_length (r : Reader) : (editor r).text.length = r.eolNum := bytes_length

theorem pending_length (r : Reader) : (editor r).pending.length = r.escLen := bytes_length

theorem editor_eq {r : Reader} (text_eq : bytes r.buf 0 r.eolNum = text) (cursor_eq : r.num = cursor)
    (insert_eq : r.insert = mode) (pending_eq : bytes r.escSave 0 r.escLen = pending) (hist_eq : r.hist = hist) :
    editor r = ⟨text, cursor, mode, pending, hist⟩ := by
  subst text_eq cursor_eq insert_eq pending_eq hist_eq
  rfl

theorem text_drop (r : Reader) (k : Nat) : (editor r).text.drop k = bytes r.buf k (r.eolNum - k) := by
  rw [show (editor r).text = bytes r.buf 0 r.eolNum from rfl, drop_bytes, Nat.zero_add]

/-- The code returns from `r` with the reader standing for `ed` and `echo` added to
the output. -/
def Does (code : Cread α) (r : Reader) (value : α) (ed : Editor) (echo : List UInt8) : Prop :=
  ∃ r', code r = .ret value r' ∧ editor r' = ed ∧ r'.output = r.output ++ echo

private theorem takeWhile_nonzero {text : List UInt8} (nonzero : 0 ∉ text) : text.takeWhile (· ≠ 0) = text := by
  refine List.takeWhile_eq_self_iff.mpr fun c member => decide_eq_true fun zero => ?_
  exact nonzero (zero ▸ member)

theorem putcs_apply (text : List UInt8) (r : Reader) :
    putcs text r = .ret () { r with output := r.output ++ text } := rfl

private theorem printf_apply (shown : Console.printf fmt args = some text) (r : Reader) :
    printf fmt args r = .ret () { r with output := r.output ++ text } := by
  unfold printf
  rw [shown]
  exact putcs_apply text r

/-- `putnstr` of bytes of the buffer without a NUL among them. -/
theorem putnstr_apply (fits : start + n ≤ sysCbsize + 1) (nonzero : 0 ∉ bytes r.buf start n) :
    putnstr start n r = .ret () { r with output := r.output ++ Editor.cut (bytes r.buf start n) } := by
  have small : n < 2 ^ 31 := Nat.lt_of_le_of_lt (Nat.le_trans (Nat.le_add_left n start) fits) (by decide)
  have shown := Console.printf_putnstr (s := bytes r.buf start (sysCbsize + 1 - start)) small
  rw [take_bytes (by omega), takeWhile_nonzero nonzero] at shown
  unfold putnstr
  rw [bind_of_ret (read_apply r)]
  exact printf_apply shown r

private theorem blanks_apply (small : n < 2 ^ 31) (r : Reader) :
    printf Console.blanksFormat [.num n, .str (some [])] r =
      .ret () { r with output := r.output ++ Editor.cut (List.replicate n ' '.toUInt8) } := by
  have shown := Console.printf_blanks small
  rw [Nat.min_comm, ← List.take_replicate] at shown
  exact printf_apply shown r

theorem beginningOfLine_apply (r : Reader) :
    beginningOfLine r = .ret () { r with output := r.output ++ Editor.backs r.num, num := 0 } := rfl

theorem eraseToEol_apply (within : r.num ≤ r.eolNum) (room : r.eolNum ≤ sysCbsize) :
    eraseToEol r = .ret () { r with output := r.output ++ Editor.erase (r.eolNum - r.num), eolNum := r.num } := by
  have small : r.eolNum - r.num < 2 ^ 31 :=
    Nat.lt_of_le_of_lt (Nat.le_trans (Nat.sub_le _ _) room) (by decide)
  unfold eraseToEol
  rw [bind_of_ret (read_apply r)]
  by_cases some_left : r.num < r.eolNum
  · rw [if_pos some_left, bind_of_ret (blanks_apply small r), bind_of_ret (putcs_apply _ _),
      bind_of_ret (read_apply _), Editor.erase, List.append_assoc]
    rfl
  · have same : r.eolNum = r.num := by omega
    have unchanged : r = { r with output := r.output ++ Editor.erase 0, eolNum := r.num } := by
      cases r
      simp_all [Editor.erase, Editor.cut, Editor.backs]
    rw [if_neg some_left, same, Nat.sub_self, ← unchanged]
    rfl

theorem refreshToEol_apply (within : r.num ≤ r.eolNum) (room : r.eolNum ≤ sysCbsize)
    (shown : bytes r.buf r.num (r.eolNum - r.num) = rest) (nonzero : 0 ∉ rest) :
    refreshToEol r = .ret () { r with output := r.output ++ Editor.cut rest, num := r.eolNum } := by
  subst shown
  unfold refreshToEol
  rw [bind_of_ret (read_apply r)]
  by_cases some_left : r.num < r.eolNum
  · rw [if_pos some_left, bind_of_ret (putnstr_apply (by omega) nonzero), bind_of_ret (read_apply _)]
    rfl
  · have same : r.eolNum = r.num := by omega
    have unchanged : r = { r with output := r.output ++ Editor.cut (bytes r.buf r.num 0), num := r.eolNum } := by
      cases r
      simp_all [bytes, Editor.cut]
    rw [if_neg some_left, show r.eolNum - r.num = 0 by omega, ← unchanged]
    rfl

theorem storeBuf_apply (inside : i ≤ sysCbsize) (ch : UInt8) (r : Reader) :
    storeBuf i ch r = .ret () { r with buf := Function.update r.buf i ch } := by
  unfold storeBuf
  rw [bind_of_ret (read_apply r), if_pos inside]
  rfl

private theorem memmoveBuf_apply (dst_inside : dst + n ≤ sysCbsize + 1) (src_inside : src + n ≤ sysCbsize + 1)
    (r : Reader) :
    memmoveBuf dst src n r =
      .ret () { r with buf := fun i => if dst ≤ i ∧ i < dst + n then r.buf (src + (i - dst)) else r.buf i } := by
  unfold memmoveBuf
  rw [bind_of_ret (read_apply r), if_pos ⟨dst_inside, src_inside⟩]
  rfl

/-- The buffer with a character put in at `c` and the `n` characters there moved up. -/
def insertBuf (buf : Nat → UInt8) (c n : Nat) (ch : UInt8) : Nat → UInt8 :=
  Function.update (fun i => if c + 1 ≤ i ∧ i < c + 1 + n then buf (c + (i - (c + 1))) else buf i) c ch

private theorem insertBuf_zero : insertBuf buf c 0 ch = Function.update buf c ch := by
  unfold insertBuf
  congr 1
  funext i
  exact if_neg (by omega)

private theorem bytes_insertBuf (within : c ≤ n) :
    bytes (insertBuf buf c (n - c) ch) 0 (n + 1) = (bytes buf 0 n).take c ++ ch :: (bytes buf 0 n).drop c := by
  apply List.ext_getElem?
  intro i
  rw [getElem?_insert (by rw [bytes_length]; exact within), getElem?_bytes, getElem?_bytes, getElem?_bytes]
  unfold insertBuf
  by_cases here : i = c
  · subst here
    simp
    omega
  rw [if_neg here, Nat.zero_add, Function.update_of_ne here]
  by_cases before : i < c
  · rw [if_pos before, if_pos (show i < n + 1 by omega), if_neg (by omega), if_pos (show i < n by omega)]
  · rw [if_neg before]
    by_cases inside : i < n + 1
    · rw [if_pos inside, if_pos (by omega), if_pos (show i - 1 < n by omega)]
      congr 2
      omega
    · rw [if_neg inside, if_neg (by omega)]

/-- A character stored at the cursor and shown with what follows it. -/
theorem storeShown_apply (inside : c ≤ sysCbsize) (fits : c + w ≤ sysCbsize + 1)
    (nonzero : 0 ∉ bytes (Function.update r.buf c ch) c w) (next : Unit → Cread α) :
    (storeBuf c ch >>= fun _ => putnstr c w >>= next) r =
      next () { r with
        buf := Function.update r.buf c ch
        output := r.output ++ Editor.cut (bytes (Function.update r.buf c ch) c w) } := by
  rw [bind_of_ret (storeBuf_apply inside ch r), bind_of_ret (putnstr_apply fits nonzero)]

private theorem creadPutChar_insert (within : r.num < r.eolNum) (room : r.eolNum ≤ sysCbsize)
    (buf_eq : insertBuf r.buf r.num (r.eolNum - r.num - 1) ch = buf)
    (nonzero : 0 ∉ bytes buf r.num (r.eolNum - r.num)) :
    creadPutChar ch true r =
      .ret () { r with
        buf
        num := r.num + 1
        output := r.output ++ (Editor.cut (bytes buf r.num (r.eolNum - r.num)) ++
          Editor.backs (r.eolNum - r.num - 1)) } := by
  subst buf_eq
  unfold creadPutChar
  rw [bind_of_ret (read_apply r), if_pos rfl, ← List.append_assoc]
  by_cases rest : 1 < r.eolNum - r.num
  · simp only [if_pos rest]
    rw [bind_of_ret (memmoveBuf_apply (by omega) (by omega) r)]
    refine (storeShown_apply (by omega) (by omega) ?_ _).trans rfl
    exact nonzero
  · have one : r.eolNum - r.num - 1 = 0 := by omega
    rw [one, insertBuf_zero] at nonzero ⊢
    simp only [if_neg rest]
    exact storeShown_apply (by omega) (by omega) nonzero _

private theorem creadPutChar_overwrite (within : r.num < r.eolNum) (room : r.eolNum ≤ sysCbsize) (nonzero : ch ≠ 0) :
    creadPutChar ch false r =
      .ret () { r with
        buf := Function.update r.buf r.num ch
        num := r.num + 1
        output := r.output ++ [ch] } := by
  have one : bytes (Function.update r.buf r.num ch) r.num 1 = [ch] := by simp [bytes]
  unfold creadPutChar
  rw [bind_of_ret (read_apply r), if_neg Bool.false_ne_true]
  refine (storeShown_apply (by omega) (by omega) ?_ _).trans ?_
  · rw [one]
    simpa using Ne.symm nonzero
  · rw [one]
    rfl

private theorem bytes_update (inside : c < n) :
    bytes (Function.update buf c ch) 0 n = (bytes buf 0 n).set c ch := by
  apply List.ext_getElem?
  intro i
  rw [getElem?_bytes, List.getElem?_set, bytes_length, getElem?_bytes, Nat.zero_add]
  by_cases here : c = i
  · subst here
    rw [if_pos inside, if_pos rfl, if_pos inside, Function.update_self]
  · rw [if_neg here, Function.update_of_ne (Ne.symm here)]

/-- The line with a character put in, and the part of it that is shown. -/
theorem text_inserted (sound : Sound (editor r)) (nonzero : ch ≠ 0)
    (buf_eq : insertBuf r.buf r.num (r.eolNum - r.num) ch = buf) :
    bytes buf 0 (r.eolNum + 1) = (editor r).text.take r.num ++ ch :: (editor r).text.drop r.num ∧
      bytes buf r.num (r.eolNum + 1 - r.num) = ch :: (editor r).text.drop r.num ∧
        0 ∉ ch :: (editor r).text.drop r.num := by
  have within : r.num ≤ r.eolNum := (text_length r) ▸ sound.within
  have line : bytes buf 0 (r.eolNum + 1) = (editor r).text.take r.num ++ ch :: (editor r).text.drop r.num := by
    rw [← buf_eq, bytes_insertBuf within]
    rfl
  refine ⟨line, ?_, ?_⟩
  · have front : ((editor r).text.take r.num).length = r.num := by
      rw [List.length_take, text_length]
      exact Nat.min_eq_left within
    have tail : (bytes buf 0 (r.eolNum + 1)).drop r.num = ch :: (editor r).text.drop r.num := by
      rw [line, List.drop_append_of_le_length (Nat.le_of_eq front.symm), List.drop_eq_nil_of_le (Nat.le_of_eq front)]
      rfl
    rwa [drop_bytes, Nat.zero_add] at tail
  · intro member
    rcases List.mem_cons.mp member with zero | member
    · exact nonzero zero.symm
    · exact sound.nonzero (List.mem_of_mem_drop member)

/-- A typed character. -/
theorem creadAddChar_does (sound : Sound (editor r)) (nonzero : ch ≠ 0) :
    Does (creadAddChar ch r.insert) r () ((editor r).addChar ch) ((editor r).addCharEcho ch) := by
  have within : r.num ≤ r.eolNum := (text_length r) ▸ sound.within
  have room : r.eolNum ≤ sysCbsize := (text_length r) ▸ sound.room
  have size : 0 < sysCbsize := by decide
  unfold Does creadAddChar Editor.addChar Editor.addCharEcho
  rw [bind_of_ret (read_apply r), text_length]
  by_cases grows : r.insert ∨ r.num = r.eolNum
  · have grows' : (editor r).insert ∨ (editor r).cursor = r.eolNum := grows
    rw [if_pos grows, if_pos grows', if_pos grows']
    by_cases full : r.eolNum < sysCbsize
    · rw [if_neg (by omega), if_pos full, if_pos full, bind_of_ret (write_apply _ _)]
      obtain ⟨line, shown, clean⟩ := text_inserted sound nonzero rfl
      have count : r.eolNum + 1 - r.num - 1 = r.eolNum - r.num := by omega
      cases mode : r.insert with
      | true =>
        refine ⟨_, creadPutChar_insert (by dsimp only; omega) (by dsimp only; omega) rfl ?_, ?_, ?_⟩
        · dsimp only
          rw [count, shown]
          exact clean
        · dsimp only
          rw [count]
          refine editor_eq ?_ rfl mode.symm rfl rfl
          exact line
        · dsimp only
          rw [count, shown]
          rfl
      | false =>
        have same : r.num = r.eolNum := by
          rcases grows with on | same
          · rw [mode] at on
            cases on
          · exact same
        refine ⟨_, creadPutChar_overwrite (by dsimp only; omega) (by dsimp only; omega) nonzero, ?_, ?_⟩
        · refine editor_eq ?_ rfl mode.symm rfl rfl
          rw [show r.eolNum - r.num = 0 by omega, insertBuf_zero] at line
          exact line
        · have none : (editor r).text.drop (editor r).cursor = [] := by
            rw [show (editor r).cursor = r.num from rfl, text_drop, show r.eolNum - r.num = 0 by omega]
            rfl
          rw [none, show r.eolNum - (editor r).cursor = 0 by show r.eolNum - r.num = 0; omega]
          rfl
    · rw [if_pos (by omega), if_neg full, if_neg full]
      exact ⟨_, rfl, rfl, rfl⟩
  · have grows' : ¬ ((editor r).insert ∨ (editor r).cursor = r.eolNum) := grows
    have mode : r.insert = false := by simpa using fun on => grows (Or.inl on)
    rw [if_neg grows, if_neg grows', if_neg grows', mode]
    have inside : r.num < r.eolNum := by
      have apart : r.num ≠ r.eolNum := fun same => grows (Or.inr same)
      omega
    exact ⟨_, creadPutChar_overwrite inside room nonzero, editor_eq (bytes_update inside) rfl rfl rfl rfl, rfl⟩

theorem addChar_sound (sound : Sound ed) (nonzero : ch ≠ 0) : Sound (ed.addChar ch) := by
  obtain ⟨within, room, clean, hist⟩ := sound
  unfold Editor.addChar
  split
  · split
    · refine ⟨?_, ?_, ?_, hist⟩
      · simp only [List.length_append, List.length_take, List.length_cons, List.length_drop]
        omega
      · simp only [List.length_append, List.length_take, List.length_cons, List.length_drop]
        omega
      · intro member
        rcases List.mem_append.mp member with member | member
        · exact clean (List.mem_of_mem_take member)
        · rcases List.mem_cons.mp member with zero | member
          · exact nonzero zero.symm
          · exact clean (List.mem_of_mem_drop member)
    · exact ⟨within, room, clean, hist⟩
  · next short =>
    refine ⟨?_, by simpa using room, ?_, hist⟩
    · have apart : ed.cursor ≠ ed.text.length := fun same => short (Or.inr same)
      simp only [List.length_set]
      omega
    · intro member
      rcases List.mem_or_eq_of_mem_set member with member | zero
      · exact clean member
      · exact nonzero zero.symm

theorem addChar_insert (ed : Editor) (ch : UInt8) : (ed.addChar ch).insert = ed.insert := by
  unfold Editor.addChar
  split
  · split <;> rfl
  · rfl

theorem addStr_sound (sound : Sound ed) (nonzero : 0 ∉ str) : Sound (ed.addStr str) := by
  induction str generalizing ed with
  | nil => exact sound
  | cons ch str ih =>
    exact ih (addChar_sound sound fun zero => nonzero (zero ▸ List.mem_cons_self ..))
      fun member => nonzero (List.mem_cons_of_mem _ member)

/-- Characters typed one after the other. -/
theorem creadAddStr_does (sound : Sound (editor r)) (nonzero : 0 ∉ str) :
    Does (creadAddStr str r.insert) r () ((editor r).addStr str) ((editor r).addStrEcho str) := by
  induction str generalizing r with
  | nil => exact ⟨r, rfl, rfl, (List.append_nil _).symm⟩
  | cons ch str ih =>
    have typed : ch ≠ 0 := fun zero => nonzero (zero ▸ List.mem_cons_self ..)
    obtain ⟨r₁, returned, stands, written⟩ := creadAddChar_does sound typed
    have mode : r₁.insert = r.insert := (congrArg Editor.insert stands).trans (addChar_insert (editor r) ch)
    have sound₁ : Sound (editor r₁) := stands ▸ addChar_sound sound typed
    obtain ⟨r₂, returned₂, stands₂, written₂⟩ := ih sound₁ fun member => nonzero (List.mem_cons_of_mem _ member)
    rw [mode] at returned₂
    rw [stands] at stands₂ written₂
    refine ⟨r₂, ?_, stands₂, ?_⟩
    · rw [creadAddStr, bind_of_ret returned]
      exact returned₂
    · rw [written₂, written, List.append_assoc]
      rfl

/-- The buffer with the character at `c` taken out and `n` characters moved down. -/
def eraseBuf (buf : Nat → UInt8) (c n : Nat) : Nat → UInt8 :=
  fun i => if c ≤ i ∧ i < c + n then buf (c + 1 + (i - c)) else buf i

private theorem eraseBuf_zero : eraseBuf buf c 0 = buf := by
  funext i
  exact if_neg (by omega)

private theorem memmoveBuf_down (inside : c + 1 + n ≤ sysCbsize + 1) (r : Reader) :
    memmoveBuf c (c + 1) n r = .ret () { r with buf := eraseBuf r.buf c n } :=
  memmoveBuf_apply (by omega) inside r

private theorem bytes_eraseBuf (inside : c < n) :
    bytes (eraseBuf buf c (n - c - 1)) 0 (n - 1) = (bytes buf 0 n).eraseIdx c := by
  apply List.ext_getElem?
  intro i
  unfold eraseBuf
  rw [getElem?_bytes, List.getElem?_eraseIdx, getElem?_bytes, getElem?_bytes]
  by_cases before : i < c
  · rw [if_pos before, if_pos (show i < n - 1 by omega), if_pos (show i < n by omega), if_neg (by omega)]
  · rw [if_neg before]
    by_cases last : i < n - 1
    · rw [if_pos last, if_pos (by omega), if_pos (show i + 1 < n by omega)]
      congr 2
      omega
    · rw [if_neg last, if_neg (by omega)]

private theorem bytes_eraseBuf_rest : bytes (eraseBuf buf c n) c n = bytes buf (c + 1) n := by
  apply List.ext_getElem?
  intro i
  unfold eraseBuf
  rw [getElem?_bytes, getElem?_bytes]
  by_cases inside : i < n
  · rw [if_pos inside, if_pos inside, if_pos (by omega), Nat.add_sub_cancel_left]
  · rw [if_neg inside, if_neg inside]

theorem drop_nonzero (sound : Sound (editor r)) (k : Nat) : 0 ∉ bytes r.buf k (r.eolNum - k) := by
  rw [← text_drop]
  exact fun member => sound.nonzero (List.mem_of_mem_drop member)

/-- `^D` on a character. -/
theorem deleteChar_does (sound : Sound (editor r)) (inside : r.num < r.eolNum) :
    Does deleteChar r () { editor r with text := (editor r).text.eraseIdx r.num }
      (Editor.cut ((editor r).text.drop (r.num + 1)) ++ ' '.toUInt8 :: Editor.backs (r.eolNum - r.num)) := by
  have room : r.eolNum ≤ sysCbsize := (text_length r) ▸ sound.room
  have line : bytes (eraseBuf r.buf r.num (r.eolNum - r.num - 1)) 0 (r.eolNum - 1) =
      (editor r).text.eraseIdx r.num := bytes_eraseBuf inside
  have count : r.eolNum - r.num - 1 + 1 = r.eolNum - r.num := by omega
  have rest_eq : r.eolNum - (r.num + 1) = r.eolNum - r.num - 1 := by omega
  have clean := drop_nonzero sound (r.num + 1)
  rw [rest_eq] at clean
  unfold Does deleteChar
  rw [bind_of_ret (read_apply r), text_drop, rest_eq, count]
  by_cases rest : r.eolNum - r.num - 1 ≠ 0
  · rw [if_pos rest, bind_of_ret (memmoveBuf_down (by omega) r),
      bind_of_ret (putnstr_apply (by omega) (by rw [bytes_eraseBuf_rest]; exact clean)), bytes_eraseBuf_rest]
    exact ⟨_, rfl, editor_eq line rfl rfl rfl rfl, List.append_assoc ..⟩
  · rw [Classical.not_not.mp rest, eraseBuf_zero] at line
    rw [if_neg rest, Classical.not_not.mp rest]
    exact ⟨_, rfl, editor_eq line rfl rfl rfl rfl, rfl⟩

/-- The backspace key after a character. -/
theorem backspaceChar_does (sound : Sound (editor r)) (after : r.num ≠ 0) :
    Does backspaceChar r ()
      { editor r with text := (editor r).text.eraseIdx (r.num - 1), cursor := r.num - 1 }
      (ctlBackspace :: Editor.cut ((editor r).text.drop r.num) ++
        ' '.toUInt8 :: Editor.backs (r.eolNum - r.num + 1)) := by
  have within : r.num ≤ r.eolNum := (text_length r) ▸ sound.within
  have room : r.eolNum ≤ sysCbsize := (text_length r) ▸ sound.room
  obtain ⟨c, num_eq⟩ : ∃ c, r.num = c + 1 := ⟨r.num - 1, by omega⟩
  have rest_eq : r.eolNum - c - 1 = r.eolNum - (c + 1) := by omega
  have line : bytes (eraseBuf r.buf c (r.eolNum - (c + 1))) 0 (r.eolNum - 1) = (editor r).text.eraseIdx c := by
    rw [← rest_eq]
    exact bytes_eraseBuf (by omega)
  have clean := drop_nonzero sound (c + 1)
  unfold Does backspaceChar
  rw [bind_of_ret (read_apply r), num_eq, text_drop, Nat.add_sub_cancel, bind_of_ret (write_apply _ _),
    bind_of_ret (memmoveBuf_down (by omega) _), getcmdPutch, bind_of_ret (putcs_apply _ _),
    bind_of_ret (putnstr_apply (by omega) (by rw [bytes_eraseBuf_rest]; exact clean)), bytes_eraseBuf_rest]
  refine ⟨_, rfl, editor_eq line rfl rfl rfl rfl, ?_⟩
  show r.output ++ [ctlBackspace] ++ _ ++ _ = _
  rw [List.append_assoc, List.append_assoc]
  rfl

theorem Does.then_return (does : Does code r () ed echo) (value : α) :
    Does (code >>= fun _ => pure value) r value ed echo := by
  obtain ⟨r', returned, stands, written⟩ := does
  refine ⟨r', ?_, stands, written⟩
  rw [bind_of_ret returned]
  rfl

theorem does_nothing (value : α) (r : Reader) : Does (pure value) r value (editor r) [] :=
  ⟨r, rfl, rfl, (List.append_nil _).symm⟩

end RockOs.LineBuffer
