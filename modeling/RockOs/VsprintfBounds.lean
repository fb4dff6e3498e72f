import RockOs.VsprintfText

/-! Bounded formatting. Whatever the size of the buffer, `vsnprintf` counts the
whole output and leaves the part of it that fits, ended by NUL; nothing outside
the buffer is touched. -/
namespace RockOs.VsprintfBounds
open ByteMemory BoundedText Vsprintf VsprintfText

private theorem stores_eq (piece : Piece) (buf : Nat) (out : Out) (before : buf ≤ out.str) :
    piece.stores buf out = pieceStores (out.str - buf) piece := by
  have passed : ((out.str - buf : Nat) : Int) = (out.str : Int) - buf := by omega
  cases piece with
  | count ip long =>
    cases long with
    | true => rw [Piece.stores, pieceStores, passed]
    | false => rw [Piece.stores, pieceStores, passed]
  | _ => rfl

/-- The loop hands the output of the format to `ADDCH`. No pointer it computes
looks like an error as long as the output ends below the last 4095 addresses. -/
theorem vsnprintfLoop_eq (matching : outputLoop turns fmt args = some text) (before : buf ≤ out.str)
    (below : out.str + text.length < 2 ^ 64 - 4095) :
    vsnprintfLoop buf fin turns fmt args out stores =
      some ⟨none, addchs fin text out, stores ++ countedLoop turns fmt args (out.str - buf)⟩ := by
  induction turns generalizing fmt args text out stores with
  | zero => cases matching
  | succ turns ih =>
    cases fmt with
    | nil =>
      cases matching
      rw [countedLoop, List.append_nil]
      rfl
    | cons c fmt =>
      rw [outputLoop] at matching
      rw [vsnprintfLoop, countedLoop]
      by_cases ended : c = 0
      · rw [if_pos ended] at matching ⊢
        cases matching
        rw [if_pos ended, List.append_nil]
        rfl
      rw [if_neg ended] at matching ⊢
      rw [if_neg ended]
      by_cases plain : c ≠ '%'.toUInt8
      · rw [if_pos plain] at matching ⊢
        rw [if_pos plain]
        obtain ⟨rest, printed, rfl⟩ := Option.map_eq_some_iff.mp matching
        rw [List.length_cons] at below
        have next : (addch fin c out).str = out.str + 1 := Nat.mod_eq_of_lt (by omega)
        have passed : out.str - buf + 1 = (addch fin c out).str - buf := by omega
        rw [passed]
        exact ih printed (by omega) (by omega)
      · rw [if_neg plain] at matching ⊢
        rw [if_neg plain]
        simp only [Option.bind_eq_bind, Option.bind_eq_some_iff, Prod.exists] at matching
        obtain ⟨piece, fmt', args', found, front, printed, rest, following, joined⟩ := matching
        cases joined
        rw [List.length_append] at below
        have moved : (addchs fin front out).str = out.str + front.length := addchs_str (by omega)
        have passed : out.str - buf + front.length = (addchs fin front out).str - buf := by omega
        have goes : piece.stops (addchs fin front out) = false := by
          cases piece
          case ptr => exact decide_eq_false (by omega)
          all_goals rfl
        have tail : vsnprintfLoop buf fin turns fmt' args' (addchs fin front out)
            (stores ++ pieceStores (out.str - buf) piece) = _ := ih following (by omega) (by omega)
        simp only [found, Option.bind_eq_bind, Option.bind_some, emit_eq, printed, Option.map_some, goes,
          Bool.false_eq_true, if_false, addchs_append, Option.getD_some, passed, stores_eq piece buf out before]
        rw [tail, List.append_assoc]

/-- What a buffer of `size` bytes at `buf` holds of a text, and that nothing else
has changed. -/
structure Holds (mem mem' : Mem) (buf size : Nat) (text : List UInt8) : Prop where
  outside : ∀ cell, cell < buf ∨ buf + size ≤ cell → mem' cell = mem cell
  written : ∀ i, i < min text.length (size - 1) → text[i]? = some (mem' (buf + i))
  ended : 0 < size → mem' (buf + min text.length (size - 1)) = 0

/-- Text and NUL that stay below the end are left whole. -/
theorem holds_whole (fits : buf + text.length + 1 < 2 ^ 64) (room : buf + text.length < fin)
    (large : text.length < size) : Holds mem (addchs fin (text ++ [0]) ⟨mem, buf⟩).mem buf size text := by
  have length : (text ++ [0]).length = text.length + 1 := by simp
  have fits' : (Out.mk mem buf).str + (text ++ [0]).length < 2 ^ 64 := by rw [length]; exact fits
  constructor
  · intro cell outside
    exact addchs_mem_outside fits' (by rw [length]; dsimp only; omega)
  · intro i inside
    have stored : (text ++ [0])[i]? = some ((addchs fin (text ++ [0]) ⟨mem, buf⟩).mem (buf + i)) :=
      addchs_mem_inside fits' (by omega) (by dsimp only; omega)
    rwa [List.getElem?_append_left (by omega)] at stored
  · intro _
    have stored : (text ++ [0])[text.length]? =
        some ((addchs fin (text ++ [0]) ⟨mem, buf⟩).mem (buf + text.length)) :=
      addchs_mem_inside fits' (by omega) (by dsimp only; omega)
    rw [List.getElem?_append_right (Nat.le_refl _), Nat.sub_self] at stored
    rw [Nat.min_eq_left (by omega)]
    exact (Option.some.inj stored).symm

/-- Text that runs past the end is cut there, and its last cell becomes NUL. -/
theorem holds_cut (fits : buf + text.length + 1 < 2 ^ 64) (small : size ≤ text.length) (positive : 0 < size) :
    Holds mem (Function.update (addchs (buf + size) (text ++ [0]) ⟨mem, buf⟩).mem (buf + size - 1) 0) buf size
      text := by
  have length : (text ++ [0]).length = text.length + 1 := by simp
  have fits' : (Out.mk mem buf).str + (text ++ [0]).length < 2 ^ 64 := by rw [length]; exact fits
  have last : min text.length (size - 1) = size - 1 := by omega
  constructor
  · intro cell outside
    rw [Function.update_of_ne (by omega)]
    exact addchs_mem_outside fits' (by dsimp only; omega)
  · intro i inside
    have stored : (text ++ [0])[i]? = some ((addchs (buf + size) (text ++ [0]) ⟨mem, buf⟩).mem (buf + i)) :=
      addchs_mem_inside fits' (by omega) (by dsimp only; omega)
    rw [Function.update_of_ne (by omega)]
    rwa [List.getElem?_append_left (by omega)] at stored
  · intro _
    rw [last, ← Nat.add_sub_assoc positive, Function.update_self]

/-- A buffer of no bytes is left alone. -/
theorem holds_empty (fits : buf + text.length < 2 ^ 64) :
    Holds mem (addchs buf text ⟨mem, buf⟩).mem buf 0 text := by
  constructor
  · intro cell outside
    exact addchs_mem_outside fits (by dsimp only; omega)
  · intro i inside
    omega
  · intro positive
    omega

theorem int32_of_lt (small : (value : Nat) < 2 ^ 31) : int32 value = value := by
  unfold int32
  rw [Int.bmod_eq_of_le] <;> omega

/-- The end of the buffer as `vsnprintf_internal` computes it. A size that runs
past the end of the address space is cut one byte short of it. -/
theorem vsnprintfInternal_eq (matching : output fmt args = some text)
    (placed : buf + text.length < 2 ^ 64 - 4095)
    (bounds : (if (buf + size) % 2 ^ 64 < buf then (2 ^ 64 - 1, 2 ^ 64 - 1 - buf) else ((buf + size) % 2 ^ 64, size)) =
      (fin, size')) :
    vsnprintfInternal mem buf size fmt args =
      some (if 0 < size' then
        ⟨int32 text.length,
          if fin < buf + text.length + 1 then
            Function.update (addchs fin (text ++ [0]) ⟨mem, buf⟩).mem (fin - 1) 0
          else (addchs fin (text ++ [0]) ⟨mem, buf⟩).mem, counted fmt args⟩
      else ⟨int32 text.length, (addchs fin text ⟨mem, buf⟩).mem, counted fmt args⟩) := by
  have looped : vsnprintfLoop buf fin (fmt.length + 1) fmt args ⟨mem, buf⟩ [] = _ :=
    vsnprintfLoop_eq matching (Nat.le_refl buf) placed
  rw [List.nil_append, show (Out.mk mem buf).str - buf = 0 from Nat.sub_self buf, ← counted] at looped
  have moved : (addchs fin text ⟨mem, buf⟩).str = buf + text.length := addchs_str (by dsimp only; omega)
  have closed : (addch fin 0 (addchs fin text ⟨mem, buf⟩)).str = buf + text.length + 1 := by
    rw [addch, moved]
    exact Nat.mod_eq_of_lt (by omega)
  have length : ((buf + text.length + 1 : Nat) : Int) - 1 - buf = text.length := by omega
  have length' : ((buf + text.length : Nat) : Int) - buf = text.length := by omega
  unfold vsnprintfInternal
  simp only [bounds, looped, Option.bind_eq_bind, Option.bind_some, closed, moved, length, length', addchs_append,
    addchs_singleton]
  split <;> rfl

/-- For every format, matching arguments and size, `vsnprintf` returns the length
of the whole output and leaves its first characters and NUL. -/
theorem vsnprintf_output (mem : Mem) (matching : output fmt args = some text) (short : text.length < 2 ^ 31)
    (word : size < 2 ^ 64) (placed : buf + text.length < 2 ^ 64 - 4095) :
    ∃ mem', vsnprintf mem buf size fmt args = some ⟨text.length, mem', counted fmt args⟩ ∧
      Holds mem mem' buf size text := by
  have fits : buf + text.length + 1 < 2 ^ 64 := by omega
  unfold vsnprintf
  by_cases wraps : 2 ^ 64 ≤ buf + size
  · rw [vsnprintfInternal_eq matching placed (if_pos (show (buf + size) % 2 ^ 64 < buf by omega)), if_pos (by omega),
      if_neg (by omega), int32_of_lt short]
    exact ⟨_, rfl, holds_whole fits (by omega) (by omega)⟩
  · have inside : (buf + size) % 2 ^ 64 = buf + size := Nat.mod_eq_of_lt (by omega)
    rw [vsnprintfInternal_eq matching placed (if_neg (show ¬ (buf + size) % 2 ^ 64 < buf by omega)), inside,
      int32_of_lt short]
    by_cases empty : size = 0
    · subst empty
      rw [if_neg (by omega)]
      exact ⟨_, rfl, holds_empty (by omega)⟩
    rw [if_pos (by omega)]
    by_cases small : size ≤ text.length
    · rw [if_pos (by omega)]
      exact ⟨_, rfl, holds_cut fits small (by omega)⟩
    · rw [if_neg (by omega)]
      exact ⟨_, rfl, holds_whole fits (by omega) (by omega)⟩

/-- `vscnprintf` returns the characters that fit. -/
theorem vscnprintf_of_vsnprintf (printed : vsnprintf mem buf size fmt args = some ⟨(length : Nat), mem', stores⟩)
    (short : length < 2 ^ 31) (word : size < 2 ^ 64) :
    vscnprintf mem buf size fmt args = some ⟨(min length (size - 1) : Nat), mem', stores⟩ := by
  have value : ((length : Int) % 2 ^ 64).toNat = length := by omega
  unfold vscnprintf
  rw [printed]
  simp only [Option.bind_eq_bind, Option.bind_some, value]
  by_cases fits : length < size
  · rw [if_pos fits, Nat.min_eq_left (by omega)]
    rfl
  · rw [if_neg fits, Nat.min_eq_right (by omega)]
    by_cases empty : size = 0
    · subst empty
      rfl
    · have cut : (size : Int) - 1 = ((size - 1 : Nat) : Int) := by omega
      rw [if_pos empty, cut, int32_of_lt (by omega)]
      rfl

/-- Bounded formatting is a prefix of unbounded formatting, for every buffer that
the whole output would not carry into the last 4095 addresses: `vsnprintf` returns
the length of the whole output, the buffer holds what fits of it and NUL, and
`vscnprintf` leaves the same and returns how much fits. Nothing else is stored but
by `%n`, which counts the characters of the whole output. -/
theorem vsnprintf_bounded (mem : Mem) (buf size : Nat) (fmt : List UInt8) (args : List Arg) (text : List UInt8)
    (matching : output fmt args = some text) (short : text.length < 2 ^ 31) (word : size < 2 ^ 64)
    (placed : buf + text.length < 2 ^ 64 - 4095) :
    ∃ mem', vsnprintf mem buf size fmt args = some ⟨text.length, mem', counted fmt args⟩ ∧
      vscnprintf mem buf size fmt args = some ⟨(min text.length (size - 1) : Nat), mem', counted fmt args⟩ ∧
        Holds mem mem' buf size text := by
  obtain ⟨mem', printed, holds⟩ := vsnprintf_output mem matching short word placed
  exact ⟨mem', printed, vscnprintf_of_vsnprintf printed short word, holds⟩

/-- `%5d%n` with 42 in a buffer of four bytes: the fifth character is counted. -/
theorem vsnprintf_bounded_number :
    ∃ mem',
      vsnprintf (fun _ => 0) 0x1000 4 [0x25, 0x35, 0x64, 0x25, 0x6e] [.num 42, .ptr 0x2000 []] =
          some ⟨5, mem', [(0x2000, 5)]⟩ ∧
        vscnprintf (fun _ => 0) 0x1000 4 [0x25, 0x35, 0x64, 0x25, 0x6e] [.num 42, .ptr 0x2000 []] =
            some ⟨3, mem', [(0x2000, 5)]⟩ ∧
          Holds (fun _ => 0) mem' 0x1000 4 [0x20, 0x20, 0x20, 0x34, 0x32] := by
  obtain ⟨mem', printed, cut, holds⟩ := vsnprintf_bounded (fun _ => 0) 0x1000 4 [0x25, 0x35, 0x64, 0x25, 0x6e]
    [.num 42, .ptr 0x2000 []] [0x20, 0x20, 0x20, 0x34, 0x32] (by decide +kernel) (by decide) (by decide) (by decide)
  have stored : counted [0x25, 0x35, 0x64, 0x25, 0x6e] [.num 42, .ptr 0x2000 []] = [(0x2000, 5)] := by decide +kernel
  rw [stored] at printed cut
  exact ⟨mem', printed, cut, holds⟩

/-- No buffer at all, four bytes before the end of the address space: the position
runs past the end of it, wraps to address zero, which is below the end of the
buffer again, and the rest of the output is stored there. -/
theorem vsnprintf_wraps :
    output [0x61, 0x62, 0x63, 0x64, 0x65] [] = some [0x61, 0x62, 0x63, 0x64, 0x65] ∧
      (vsnprintf (fun _ => 0) (2 ^ 64 - 4) 0 [0x61, 0x62, 0x63, 0x64, 0x65] []).map (·.mem 0) = some 0x65 := by
  decide +kernel

end RockOs.VsprintfBounds
