import Mathlib.Data.List.GetD
import Mathlib.Logic.Function.Basic

/-! A terminal with one line without end. Backspace moves the cursor left, a
printable character is written over what stands at the cursor and moves it right,
and any other character does nothing. -/
namespace RockOs.Screen

/-- The printable characters of ASCII. -/
def Printable (c : UInt8) : Prop := 0x20 ≤ c ∧ c ≤ 0x7e

instance : DecidablePred Printable := fun c => inferInstanceAs (Decidable (0x20 ≤ c ∧ c ≤ 0x7e))

@[ext] structure Terminal where
  cells : Int → UInt8
  col : Int

namespace Terminal

def put (t : Terminal) (c : UInt8) : Terminal :=
  if c = 8 then { t with col := t.col - 1 }
  else if Printable c then ⟨Function.update t.cells t.col c, t.col + 1⟩
  else t

def feed (t : Terminal) (text : List UInt8) : Terminal := text.foldl put t

theorem feed_append (t : Terminal) (text more : List UInt8) : t.feed (text ++ more) = (t.feed text).feed more :=
  List.foldl_append

theorem feed_backs (t : Terminal) (n : Nat) : t.feed (List.replicate n 8) = { t with col := t.col - n } := by
  induction n generalizing t with
  | zero => simp [feed]
  | succ n ih =>
    rw [List.replicate_succ]
    refine (ih (t.put 8)).trans ?_
    rw [Terminal.mk.injEq]
    exact ⟨rfl, by show t.col - 1 - n = _; omega⟩

private theorem put_printable (printable : Printable c) (t : Terminal) :
    t.put c = ⟨Function.update t.cells t.col c, t.col + 1⟩ := by
  have other : c ≠ 8 := by
    rintro rfl
    exact absurd printable (by decide)
  rw [put, if_neg other, if_pos printable]

theorem feed_col {text : List UInt8} (printable : ∀ c ∈ text, Printable c) (t : Terminal) :
    (t.feed text).col = t.col + text.length := by
  induction text generalizing t with
  | nil => simp [feed]
  | cons c text ih =>
    have rest := ih (fun c member => printable c (List.mem_cons_of_mem _ member)) (t.put c)
    rw [put_printable (printable c (List.mem_cons_self ..))] at rest
    rw [List.length_cons]
    refine (congrArg Terminal.col ?_).trans (rest.trans ?_)
    · rw [← put_printable (printable c (List.mem_cons_self ..))]
      rfl
    · push_cast
      omega

end Terminal

/-! ## A line followed by blanks -/

def line (text : List UInt8) : Int → UInt8 := fun i => if i < 0 then 0x20 else text.getD i.toNat 0x20

private theorem line_blanks (text : List UInt8) (n : Nat) : line (text ++ List.replicate n 0x20) = line text := by
  funext i
  unfold line
  split
  · rfl
  · by_cases inside : i.toNat < text.length
    · rw [List.getD_append _ _ _ _ inside]
    · rw [List.getD_append_right _ _ _ _ (by omega), List.getD_eq_default text _ (by omega)]
      rcases Nat.lt_or_ge (i.toNat - text.length) n with low | high
      · rw [List.getD_eq_getElem _ _ (by rwa [List.length_replicate]), List.getElem_replicate]
      · exact List.getD_eq_default _ _ (by rwa [List.length_replicate])

private theorem getD_replaced {text : List UInt8} {c : Nat} (inside : c ≤ text.length) (ch : UInt8) (j : Nat) :
    (text.take c ++ ch :: text.drop (c + 1)).getD j 0x20 = if j = c then ch else text.getD j 0x20 := by
  have size : (text.take c).length = c := by rw [List.length_take]; omega
  simp only [List.getD_eq_getElem?_getD]
  rcases Nat.lt_trichotomy j c with before | rfl | after
  · rw [List.getElem?_append_left (by omega), List.getElem?_take_of_lt before, if_neg (by omega)]
  · rw [List.getElem?_append_right (by omega), size, Nat.sub_self, if_pos rfl]
    rfl
  · rw [List.getElem?_append_right (by omega), size, show j - c = j - c - 1 + 1 by omega, List.getElem?_cons_succ,
      List.getElem?_drop, if_neg (by omega), show c + 1 + (j - c - 1) = j by omega]

private theorem update_line {text : List UInt8} {c : Nat} (inside : c ≤ text.length) (ch : UInt8) :
    Function.update (line text) (c : Int) ch = line (text.take c ++ ch :: text.drop (c + 1)) := by
  funext i
  rw [Function.update_apply, line, line, getD_replaced inside]
  by_cases left : i < 0
  · rw [if_neg (by omega), if_pos left, if_pos left]
  · rw [if_neg left, if_neg left]
    exact if_congr (by omega) rfl rfl

/-- Text written over a line. -/
theorem feed_line {text more : List UInt8} {c : Nat} (printable : ∀ ch ∈ more, Printable ch) (inside : c ≤ text.length) :
    Terminal.feed ⟨line text, c⟩ more =
      ⟨line (text.take c ++ more ++ text.drop (c + more.length)), (c + more.length : Nat)⟩ := by
  induction more generalizing text c with
  | nil => rw [List.append_nil, List.length_nil, Nat.add_zero, List.take_append_drop]; rfl
  | cons ch more ih =>
    have size : (text.take c).length = c := by rw [List.length_take]; omega
    have first : Terminal.put ⟨line text, c⟩ ch = ⟨line (text.take c ++ ch :: text.drop (c + 1)), (c + 1 : Nat)⟩ := by
      rw [Terminal.put_printable (printable ch (List.mem_cons_self ..)), ← update_line inside]
      rfl
    have kept : (text.take c ++ ch :: text.drop (c + 1)).take (c + 1) = text.take c ++ [ch] := by
      rw [List.take_append, size, List.take_of_length_le (by omega), show c + 1 - c = 1 by omega]
      rfl
    have behind : (text.take c ++ ch :: text.drop (c + 1)).drop (c + 1 + more.length) =
        text.drop (c + 1 + more.length) := by
      rw [List.drop_append, size, List.drop_eq_nil_of_le (by omega), List.nil_append,
        show c + 1 + more.length - c = more.length + 1 by omega, List.drop_succ_cons, List.drop_drop]
    refine (congrArg (Terminal.feed · more) first).trans ?_
    rw [ih (fun c member => printable c (List.mem_cons_of_mem _ member)) (by simp; omega), kept, behind,
      List.length_cons, List.append_assoc, List.append_assoc, List.append_assoc,
      show c + 1 + more.length = c + (more.length + 1) by omega]
    rfl

/-- The terminal on which `before` and `text` stand, with the cursor in the text. -/
def showing (before text : List UInt8) (cursor : Nat) : Terminal :=
  ⟨line (before ++ text), (before.length + cursor : Nat)⟩

theorem showing_blanks (before text : List UInt8) (n cursor : Nat) :
    showing before (text ++ List.replicate n 0x20) cursor = showing before text cursor := by
  rw [showing, ← List.append_assoc, line_blanks]
  rfl

theorem feed_showing {before text more : List UInt8} {c : Nat} (printable : ∀ ch ∈ more, Printable ch)
    (inside : c ≤ text.length) :
    (showing before text c).feed more =
      showing before (text.take c ++ more ++ text.drop (c + more.length)) (c + more.length) := by
  rw [showing, feed_line printable (by simp; omega), List.take_length_add_append, Nat.add_assoc,
    List.drop_length_add_append, showing, List.append_assoc, List.append_assoc, List.append_assoc]

theorem feed_showing_backs {n c : Nat} (left : n ≤ c) (before text : List UInt8) :
    (showing before text c).feed (List.replicate n 8) = showing before text (c - n) := by
  rw [Terminal.feed_backs, showing, showing, Terminal.mk.injEq]
  exact ⟨rfl, by show ((before.length + c : Nat) : Int) - n = _; omega⟩

/-- A terminal whose cursor stands elsewhere shows something else. -/
theorem showing_ne {t : Terminal} {before text : List UInt8} {c : Nat} (elsewhere : t.col ≠ (before.length + c : Nat)) :
    t ≠ showing before text c := fun same => elsewhere (congrArg Terminal.col same)

end RockOs.Screen
