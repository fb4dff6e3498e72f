import Mathlib.Algebra.Group.Nat.Defs
import Mathlib.Data.List.Chain
import RockOs.CliSimple
import RockOs.TextBuffers

/-! `cli_simple_process_macros` in its buffers: it reads no further than the string
it is given and writes no further than its output, which is a part of the string.
A text quoted with backslashes comes out as it went in, unless a backslash of it
stands before a character that is quoted too. -/
namespace RockOs.MacroExpansion
open CliSimple Config TextBuffers

/-! ## The code in its buffers -/

/-- The locals of `cli_simple_process_macros` and the output. -/
structure Expander where
  state : MacroState
  prev : UInt8
  outputcnt : Nat
  out : Nat
  output : List UInt8

namespace Expander

/-- `*(output++) = c; outputcnt--;` -/
def emit (e : Expander) (c : UInt8) : Option Expander := do
  let output ← put e.output e.out c
  return { e with output, out := e.out + 1, outputcnt := e.outputcnt - 1 }

/-- The `switch` on the state. -/
def switch (e : Expander) (c : UInt8) : Option Expander :=
  match e.state with
  | .plain =>
    if c = quote ∧ e.prev ≠ backslash then some { e with state := .quoted }
    else if c = '$'.toUInt8 ∧ e.prev ≠ backslash then some { e with state := .dollar }
    else e.emit c
  | .dollar =>
    if c = '('.toUInt8 ∨ c = '\x7b'.toUInt8 then some { e with state := .name }
    else do
      let e ← { e with state := .plain }.emit '$'.toUInt8
      if e.outputcnt ≠ 0 then e.emit c else some e
  | .name => some (if c = ')'.toUInt8 ∨ c = '\x7d'.toUInt8 then { e with state := .plain } else e)
  | .quoted => if c = quote ∧ e.prev ≠ backslash then some { e with state := .plain } else e.emit c

/-- The loop, with so many characters left from `pos` on. -/
def loop (e : Expander) (input : List UInt8) : (inputcnt pos : Nat) → Option Expander
  | 0, _ => some e
  | inputcnt + 1, pos =>
    if e.outputcnt = 0 then some e
    else do
      let c ← input[pos]?
      if e.state ≠ .quoted ∧ c = backslash ∧ e.prev ≠ backslash then
        match inputcnt with
        | 0 => some e
        | inputcnt + 1 => do
          let c' ← input[pos + 1]?
          let e ← { e with prev := c }.switch c'
          { e with prev := c' }.loop input inputcnt (pos + 2)
      else do
        let e ← e.switch c
        { e with prev := c }.loop input inputcnt (pos + 1)

end Expander

/-- `cli_simple_process_macros` on the string at `pos`. The counter of its characters
is an `int`, which wraps. -/
def cliSimpleProcessMacrosBuf (input : List UInt8) (pos : Nat) (output : List UInt8) : Option (List UInt8) := do
  let stop ← scan (· ≠ 0) input pos
  let e ← Expander.loop ⟨.plain, 0, sysCbsize, 0, output⟩ input ((stop - pos) % 2 ^ 32) pos
  if e.outputcnt ≠ 0 then put e.output e.out 0 else put e.output (e.out - 1) 0

/-! ## The buffers hold what the lists hold -/

/-- The expander has put out what `m` has, into the first bytes of `before`. -/
structure Stands (before : List UInt8) (e : Expander) (m : Macro) : Prop where
  state : e.state = m.state
  prev : e.prev = m.prev
  count : e.outputcnt = m.outputcnt
  text : e.output.take e.out = m.output
  room : e.out + e.outputcnt = sysCbsize
  inside : sysCbsize ≤ e.output.length
  length : e.output.length = before.length
  kept : e.output.drop sysCbsize = before.drop sysCbsize

section
variable {before : List UInt8} {e : Expander} {m : Macro}

theorem Stands.emit (stands : Stands before e m) (more : m.outputcnt ≠ 0) (c : UInt8) :
    ∃ e', e.emit c = some e' ∧ Stands before e' (m.emit c) := by
  obtain ⟨state, prev, count, text, room, inside, length, kept⟩ := stands
  have within : e.out < e.output.length := by omega
  refine ⟨{ e with output := e.output.set e.out c, out := e.out + 1, outputcnt := e.outputcnt - 1 }, ?_,
    state, prev, ?_, ?_, ?_, ?_, ?_, ?_⟩
  · rw [Expander.emit, put_eq within]
    rfl
  · show e.outputcnt - 1 = m.outputcnt - 1
    rw [count]
  · show (e.output.set e.out c).take (e.out + 1) = m.output ++ [c]
    rw [List.take_add_one, List.take_set_of_le (Nat.le_refl _), text, List.getElem?_set_self within]
    rfl
  · show e.out + 1 + (e.outputcnt - 1) = sysCbsize
    omega
  · rw [List.length_set]
    exact inside
  · rw [List.length_set]
    exact length
  · rw [← kept, List.drop_set_of_lt (by omega)]

/-- A change of state puts nothing out. -/
theorem Stands.goes (stands : Stands before e m) (state : MacroState) :
    Stands before { e with state } { m with state } :=
  { stands with state := rfl }

theorem Stands.sees (stands : Stands before e m) (prev : UInt8) :
    Stands before { e with prev } { m with prev } :=
  { stands with prev := rfl }

theorem Stands.switch (stands : Stands before e m) (more : m.outputcnt ≠ 0) (c : UInt8) :
    ∃ e', e.switch c = some e' ∧ Stands before e' (m.switch c) := by
  obtain ⟨state, prev, outputcnt, out, output⟩ := e
  obtain ⟨state', prev', outputcnt', output'⟩ := m
  obtain rfl : state = state' := stands.state
  obtain rfl : prev = prev' := stands.prev
  unfold Expander.switch Macro.switch
  cases state with
  | plain =>
    dsimp only
    split
    · exact ⟨_, rfl, stands.goes .quoted⟩
    · split
      · exact ⟨_, rfl, stands.goes .dollar⟩
      · exact stands.emit more c
  | dollar =>
    dsimp only
    split
    · exact ⟨_, rfl, stands.goes .name⟩
    · obtain ⟨e₁, put, stands₁⟩ := (stands.goes .plain).emit more '$'.toUInt8
      rw [put, Option.bind_eq_bind, Option.bind_some, stands₁.count]
      split
      · next again => exact stands₁.emit again c
      · exact ⟨e₁, rfl, stands₁⟩
  | name =>
    dsimp only
    split
    · exact ⟨_, rfl, stands.goes .plain⟩
    · exact ⟨_, rfl, stands⟩
  | quoted =>
    dsimp only
    split
    · exact ⟨_, rfl, stands.goes .plain⟩
    · exact stands.emit more c

end

/-- The loop reads the text and nothing behind it. -/
theorem Stands.loop (stands : Stands before e m) (front text rest : List UInt8) :
    ∃ e', e.loop (front ++ text ++ rest) text.length front.length = some e' ∧ Stands before e' (m.loop text) := by
  induction m, text using Macro.loop.induct generalizing front e with
  | case1 m =>
    rw [Macro.loop, List.length_nil, Expander.loop]
    exact ⟨e, rfl, stands⟩
  | case2 m c input full =>
    rw [Macro.loop.eq_def, List.length_cons, Expander.loop, if_pos (stands.count.trans full)]
    dsimp only
    rw [if_pos full]
    exact ⟨e, rfl, stands⟩
  | case3 m c more escape =>
    have escapes : e.state ≠ .quoted ∧ c = backslash ∧ e.prev ≠ backslash := by
      rw [stands.state, stands.prev]
      exact escape
    have first : (front ++ [c] ++ rest)[front.length]? = some c := by simp
    rw [Macro.loop, if_neg more, if_pos escape, List.length_cons, Expander.loop, if_neg (stands.count ▸ more), first,
      Option.bind_eq_bind, Option.bind_some, if_pos escapes]
    exact ⟨e, rfl, stands⟩
  | case4 m c more escape c' input ih =>
    have escapes : e.state ≠ .quoted ∧ c = backslash ∧ e.prev ≠ backslash := by
      rw [stands.state, stands.prev]
      exact escape
    have first : (front ++ c :: c' :: input ++ rest)[front.length]? = some c := by simp
    have second : (front ++ c :: c' :: input ++ rest)[front.length + 1]? = some c' := by simp
    obtain ⟨e₁, switched, stands₁⟩ := (stands.sees c).switch more c'
    obtain ⟨e', looped, stands'⟩ := ih (stands₁.sees c') (front ++ [c, c'])
    rw [List.length_append] at looped
    have whole : front ++ c :: c' :: input ++ rest = front ++ [c, c'] ++ input ++ rest := by simp
    refine ⟨e', ?_, ?_⟩
    · rw [List.length_cons, List.length_cons, Expander.loop, if_neg (stands.count ▸ more), first, Option.bind_eq_bind,
        Option.bind_some, if_pos escapes]
      dsimp only
      rw [second, Option.bind_some, Option.bind_eq_bind, switched, Option.bind_some, whole]
      exact looped
    · rw [Macro.loop, if_neg more, if_pos escape]
      exact stands'
  | case5 m c input more plain ih =>
    have plains : ¬ (e.state ≠ .quoted ∧ c = backslash ∧ e.prev ≠ backslash) := by
      rw [stands.state, stands.prev]
      exact plain
    have first : (front ++ c :: input ++ rest)[front.length]? = some c := by simp
    obtain ⟨e₁, switched, stands₁⟩ := stands.switch more c
    obtain ⟨e', looped, stands'⟩ := ih (stands₁.sees c) (front ++ [c])
    rw [List.length_append] at looped
    have whole : front ++ c :: input ++ rest = front ++ [c] ++ input ++ rest := by simp
    refine ⟨e', ?_, ?_⟩
    · rw [List.length_cons, Expander.loop.eq_def]
      dsimp only
      rw [if_neg (stands.count ▸ more), first, Option.bind_eq_bind, Option.bind_some, if_neg plains, switched,
        Option.bind_eq_bind, Option.bind_some, whole]
      exact looped
    · rw [Macro.loop.eq_def]
      dsimp only
      rw [if_neg more, if_neg plain]
      exact stands'

/-! ## The output is a part of the input -/

/-- The dollar sign that has been read and is still to be put out. -/
def owes (m : Macro) : List UInt8 := if m.state = .dollar then ['$'.toUInt8] else []

private theorem switch_sublist (m : Macro) (c : UInt8) :
    ((m.switch c).output ++ owes (m.switch c)).Sublist (m.output ++ owes m ++ [c]) := by
  obtain ⟨state, prev, outputcnt, output⟩ := m
  cases state with
  | plain =>
    dsimp only [Macro.switch]
    split_ifs with quotes dollar
    · simp [owes]
    · simp [owes, dollar.1]
    · simp [owes, Macro.emit]
  | dollar =>
    dsimp only [Macro.switch]
    split_ifs
    · simp [owes]
    · simp [owes, Macro.emit]
    · simp [owes, Macro.emit]
  | name =>
    dsimp only [Macro.switch]
    split_ifs
    · simp [owes]
    · simp [owes]
  | quoted =>
    dsimp only [Macro.switch]
    split_ifs
    · simp [owes]
    · simp [owes, Macro.emit]

private theorem loop_sublist (m : Macro) (text : List UInt8) :
    ((m.loop text).output ++ owes (m.loop text)).Sublist (m.output ++ owes m ++ text) := by
  induction m, text using Macro.loop.induct with
  | case1 m => simp [Macro.loop]
  | case2 m c input full =>
    rw [Macro.loop.eq_def]
    dsimp only
    rw [if_pos full]
    exact List.sublist_append_left _ _
  | case3 m c more escape =>
    rw [Macro.loop, if_neg more, if_pos escape]
    exact List.sublist_append_left _ _
  | case4 m c more escape c' input ih =>
    have step := switch_sublist { m with prev := c } c'
    have skip : (m.output ++ owes m ++ [c'] ++ input).Sublist (m.output ++ owes m ++ c :: c' :: input) := by
      rw [List.append_assoc]
      exact (List.Sublist.refl _).append (List.sublist_cons_self c _)
    rw [Macro.loop, if_neg more, if_pos escape]
    exact ih.trans ((step.append (List.Sublist.refl input)).trans skip)
  | case5 m c input more plain ih =>
    have step := switch_sublist m c
    have whole : m.output ++ owes m ++ [c] ++ input = m.output ++ owes m ++ c :: input := by simp
    rw [Macro.loop.eq_def]
    dsimp only
    rw [if_neg more, if_neg plain, ← whole]
    exact ih.trans (step.append (List.Sublist.refl input))

private theorem processMacros_sublist (text : List UInt8) : (cliSimpleProcessMacros text).Sublist text := by
  have part := loop_sublist .start text
  have output : (Macro.loop .start text).output.Sublist text := (List.sublist_append_left _ _).trans part
  unfold cliSimpleProcessMacros
  dsimp only
  split
  · exact output
  · exact (List.dropLast_sublist _).trans output

/-- A NUL goes behind the output, or in place of its last character where it is full. -/
theorem Stands.finish (stands : Stands before e m) (clean : 0 ∉ m.output) :
    ∃ after, (if e.outputcnt ≠ 0 then put e.output e.out 0 else put e.output (e.out - 1) 0) = some after ∧
      after.length = before.length ∧ after.drop sysCbsize = before.drop sysCbsize ∧
        ∃ result, result = (if m.outputcnt ≠ 0 then m.output else m.output.dropLast) ∧ Holds 0 after 0 result ∧
          result.length < sysCbsize := by
  obtain ⟨-, -, count, text, room, inside, length, kept⟩ := stands
  have positive : 0 < sysCbsize := by decide
  by_cases more : e.outputcnt = 0
  · have last : m.output.dropLast = e.output.take (e.out - 1) := by
      rw [← text, List.dropLast_eq_take, List.take_take, List.length_take]
      congr 1
      omega
    have cleanText : (0 : UInt8) ∉ e.output.take (e.out - 1) := by
      rw [← last]
      exact fun zero => clean (List.dropLast_subset _ zero)
    rw [if_neg (not_not.mpr more), if_neg (not_not.mpr (count ▸ more)), put_eq (by omega), last]
    refine ⟨_, rfl, ?_, ?_, _, rfl, holds_set (by omega) cleanText, ?_⟩
    · rw [List.length_set, length]
    · rw [List.drop_set_of_lt (by omega), kept]
    · rw [List.length_take]
      omega
  · rw [if_pos more, if_pos (count ▸ more), put_eq (by omega), ← text]
    refine ⟨_, rfl, ?_, ?_, _, rfl, holds_set (by omega) (text ▸ clean), ?_⟩
    · rw [List.length_set, length]
    · rw [List.drop_set_of_lt (by omega), kept]
    · rw [List.length_take]
      omega

/-- The string of the output, and nothing written behind `CONFIG_SYS_CBSIZE` bytes. -/
theorem cliSimpleProcessMacrosBuf_eq (front rest : List UInt8) (clean : 0 ∉ text) (size : sysCbsize ≤ output.length) :
    ∃ after, cliSimpleProcessMacrosBuf (front ++ text ++ 0 :: rest) front.length output = some after ∧
      after.length = output.length ∧ after.drop sysCbsize = output.drop sysCbsize ∧
        Holds 0 after 0 (cliSimpleProcessMacros (text.take (text.length % 2 ^ 32))) ∧
          (cliSimpleProcessMacros (text.take (text.length % 2 ^ 32))).length < sysCbsize := by
  have stop := scan_string clean front rest
  have start : Stands output ⟨.plain, 0, sysCbsize, 0, output⟩ .start :=
    ⟨rfl, rfl, rfl, rfl, Nat.zero_add _, size, rfl, rfl⟩
  have whole : front ++ text ++ 0 :: rest = front ++ text.take (text.length % 2 ^ 32) ++
      (text.drop (text.length % 2 ^ 32) ++ 0 :: rest) := by
    rw [← List.append_assoc (front ++ _), List.append_assoc front (text.take _), List.take_append_drop]
  have count : (text.take (text.length % 2 ^ 32)).length = text.length % 2 ^ 32 := by
    rw [List.length_take]
    exact Nat.min_eq_left (Nat.mod_le _ _)
  obtain ⟨e, looped, stands⟩ := start.loop front (text.take (text.length % 2 ^ 32))
    (text.drop (text.length % 2 ^ 32) ++ 0 :: rest)
  rw [← whole, count] at looped
  have part := loop_sublist .start (text.take (text.length % 2 ^ 32))
  have cleanOutput : 0 ∉ (Macro.loop .start (text.take (text.length % 2 ^ 32))).output := by
    intro zero
    have inText := (part.subset (List.mem_append_left _ zero))
    exact clean (List.mem_of_mem_take inText)
  obtain ⟨after, finished, length, kept, result, rfl, holds, short⟩ := stands.finish cleanOutput
  refine ⟨after, ?_, length, kept, holds, short⟩
  rw [cliSimpleProcessMacrosBuf, stop, Option.bind_eq_bind, Option.bind_some, Nat.add_sub_cancel_left, looped,
    Option.bind_eq_bind, Option.bind_some]
  exact finished

/-- For every string, the expansion returns, writes only the first `CONFIG_SYS_CBSIZE` bytes of its output, and leaves
there a string that fits and is a part of what it was given. -/
theorem macro_output_bounded (text rest output : List UInt8) (clean : 0 ∉ text) (size : sysCbsize ≤ output.length) :
    ∃ after, cliSimpleProcessMacrosBuf (text ++ 0 :: rest) 0 output = some after ∧
      after.length = output.length ∧ after.drop sysCbsize = output.drop sysCbsize ∧
        ∃ result, Holds 0 after 0 result ∧ result.length < sysCbsize ∧ result.Sublist text := by
  obtain ⟨after, expanded, length, kept, holds, short⟩ := cliSimpleProcessMacrosBuf_eq [] rest clean size
  refine ⟨after, expanded, length, kept, _, holds, short, ?_⟩
  exact (processMacros_sublist _).trans (List.take_sublist _ _)

/-- A trailing backslash. -/
theorem macro_output_backslash :
    ∃ after, cliSimpleProcessMacrosBuf ([0x61, 0x24, 0x62, backslash] ++ [0]) 0 (List.replicate sysCbsize 0xff) =
        some after ∧ after.length = sysCbsize := by
  obtain ⟨after, expanded, length, -⟩ := macro_output_bounded [0x61, 0x24, 0x62, backslash] []
    (List.replicate sysCbsize 0xff) (by decide) (by rw [List.length_replicate])
  exact ⟨after, expanded, by rw [length, List.length_replicate]⟩

/-! ## Quoting with backslashes -/

/-- The characters that are quoted. -/
def Special (c : UInt8) : Prop := c = backslash ∨ c = quote ∨ c = '$'.toUInt8

instance (c : UInt8) : Decidable (Special c) := inferInstanceAs (Decidable (_ ∨ _))

/-- A text with a backslash before every special character. -/
def quoted : (text : List UInt8) → List UInt8
  | [] => []
  | c :: text => if Special c then backslash :: c :: quoted text else c :: quoted text

/-- What a quoted text expands to after the character `prev`. -/
def unquoted : (prev : UInt8) → (text : List UInt8) → List UInt8
  | _, [] => []
  | prev, c :: text =>
    if Special c ∧ prev = backslash then backslash :: c :: unquoted c text else c :: unquoted c text

section
variable {m : Macro} {c : UInt8}

private theorem switch_plain (state : m.state = .plain) (free : ¬ Special c ∨ m.prev = backslash) :
    m.switch c = m.emit c := by
  have notQuote : ¬ (c = quote ∧ m.prev ≠ backslash) := fun both =>
    free.elim (fun plain => plain (Or.inr (Or.inl both.1))) both.2
  have notDollar : ¬ (c = '$'.toUInt8 ∧ m.prev ≠ backslash) := fun both =>
    free.elim (fun plain => plain (Or.inr (Or.inr both.1))) both.2
  rw [Macro.switch, state]
  dsimp only
  rw [if_neg notQuote, if_neg notDollar]

/-- Characters that are not special, or come after a backslash, are put out. -/
theorem loop_plain (state : m.state = .plain) (free : ¬ Special c ∨ m.prev = backslash) (more : m.outputcnt ≠ 0)
    (rest : List UInt8) : m.loop (c :: rest) = { m.emit c with prev := c }.loop rest := by
  have whole : ¬ (m.state ≠ .quoted ∧ c = backslash ∧ m.prev ≠ backslash) := fun all =>
    free.elim (fun plain => plain (Or.inl all.2.1)) all.2.2
  rw [Macro.loop.eq_def]
  dsimp only
  rw [if_neg more, if_neg whole, switch_plain state free]

/-- A backslash that does not come after another one takes the special meaning off the next character. -/
theorem loop_escape (state : m.state = .plain) (first : m.prev ≠ backslash) (more : m.outputcnt ≠ 0) (c : UInt8)
    (rest : List UInt8) : m.loop (backslash :: c :: rest) = { m.emit c with prev := c }.loop rest := by
  have escape : m.state ≠ .quoted ∧ backslash = backslash ∧ m.prev ≠ backslash := by
    rw [state]
    exact ⟨nofun, rfl, first⟩
  have switched : { m with prev := backslash }.switch c = { m with prev := backslash }.emit c :=
    switch_plain state (Or.inr rfl)
  rw [Macro.loop, if_neg more, if_pos escape, switched]
  rfl

end

private theorem loop_quoted (m : Macro) (state : m.state = .plain) (text : List UInt8)
    (room : (quoted text).length < m.outputcnt) :
    (m.loop (quoted text)).output = m.output ++ unquoted m.prev text ∧ (m.loop (quoted text)).outputcnt ≠ 0 := by
  induction text generalizing m with
  | nil =>
    rw [quoted, Macro.loop, unquoted, List.append_nil]
    exact ⟨rfl, by omega⟩
  | cons c text ih =>
    -- the emission of `c` after a text that has been put out already
    have step : ∀ n : Macro, n.state = .plain → (quoted text).length + 1 < n.outputcnt →
        ({ n.emit c with prev := c }.loop (quoted text)).output = n.output ++ c :: unquoted c text ∧
          ({ n.emit c with prev := c }.loop (quoted text)).outputcnt ≠ 0 := by
      intro n plain left
      obtain ⟨output, count⟩ := ih { n.emit c with prev := c } plain
        (show (quoted text).length < n.outputcnt - 1 by omega)
      refine ⟨output.trans ?_, count⟩
      exact List.append_assoc n.output [c] _
    rw [quoted, unquoted]
    rw [quoted] at room
    by_cases special : Special c
    · rw [if_pos special] at room ⊢
      rw [List.length_cons, List.length_cons] at room
      by_cases escaped : m.prev = backslash
      · let after : Macro := { m.emit backslash with prev := backslash }
        have left : (quoted text).length + 1 < after.outputcnt := show _ < m.outputcnt - 1 by omega
        have second : after.loop (c :: quoted text) = { after.emit c with prev := c }.loop (quoted text) :=
          loop_plain (show after.state = .plain from state) (Or.inr rfl) (by omega) _
        rw [if_pos ⟨special, escaped⟩, loop_plain state (Or.inr escaped) (by omega), second]
        obtain ⟨output, count⟩ := step after state left
        exact ⟨output.trans (List.append_assoc m.output [backslash] _), count⟩
      · rw [if_neg fun both => escaped both.2, loop_escape state escaped (by omega)]
        exact step m state (by omega)
    · rw [if_neg special] at room ⊢
      rw [List.length_cons] at room
      rw [if_neg fun both => special both.1, loop_plain state (Or.inl special) (by omega)]
      exact step m state room

private theorem unquoted_length (prev : UInt8) (text : List UInt8) : text.length ≤ (unquoted prev text).length := by
  induction text generalizing prev with
  | nil => exact Nat.le_refl _
  | cons c text ih =>
    have rest := ih c
    rw [unquoted]
    split
    · rw [List.length_cons, List.length_cons, List.length_cons]
      omega
    · rw [List.length_cons, List.length_cons]
      omega

/-- A text comes back where no backslash of it stands before a special character. -/
theorem unquoted_eq_iff (prev : UInt8) (text : List UInt8) :
    unquoted prev text = text ↔ (prev :: text).IsChain (fun c d => ¬ (c = backslash ∧ Special d)) := by
  induction text generalizing prev with
  | nil => simp [unquoted]
  | cons c text ih =>
    rw [unquoted, List.isChain_cons_cons]
    by_cases doubled : Special c ∧ prev = backslash
    · rw [if_pos doubled]
      refine iff_of_false ?_ fun chain => chain.1 ⟨doubled.2, doubled.1⟩
      intro same
      have length := congrArg List.length same
      have bound := unquoted_length c text
      rw [List.length_cons, List.length_cons, List.length_cons] at length
      omega
    · rw [if_neg doubled, List.cons_inj_right, ih c]
      exact (and_iff_right fun both => doubled ⟨both.2, both.1⟩).symm

/-- A text that fits when it is quoted is what its quoted form expands to, if and only if no backslash in it is followed
by a backslash, a quote or a dollar sign. -/
theorem quoting_round_trip_iff (text : List UInt8) (fits : (quoted text).length ≤ sysCbsize - 1) :
    cliSimpleProcessMacros (quoted text) = text ↔ text.IsChain (fun c d => ¬ (c = backslash ∧ Special d)) := by
  have positive : 0 < sysCbsize := by decide
  obtain ⟨output, count⟩ := loop_quoted .start rfl text (show (quoted text).length < sysCbsize by omega)
  have expanded : cliSimpleProcessMacros (quoted text) = unquoted 0 text := by
    rw [cliSimpleProcessMacros, if_pos count, output]
    rfl
  have first : ∀ c ∈ text.head?, ¬ ((0 : UInt8) = backslash ∧ Special c) := fun c _ both => absurd both.1 (by decide)
  rw [expanded, unquoted_eq_iff, List.isChain_cons]
  exact and_iff_right first

theorem quoting_round_trip_mixed :
    cliSimpleProcessMacros (quoted [0x61, backslash, 0x62, 0x24, quote]) = [0x61, backslash, 0x62, 0x24, quote] :=
  (quoting_round_trip_iff [0x61, backslash, 0x62, 0x24, quote] (by decide)).mpr (by decide)

/-- Two backslashes come back as three. -/
theorem quoting_round_trip_backslashes :
    (quoted [backslash, backslash]).length ≤ sysCbsize - 1 ∧
      cliSimpleProcessMacros (quoted [backslash, backslash]) ≠ [backslash, backslash] := by
  decide

end RockOs.MacroExpansion
