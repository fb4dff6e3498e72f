import Mathlib.Data.List.GetD
import Mathlib.Logic.Function.Basic
import RockOs.ByteMemory

/-! Text written one character at a time below a fixed end. A character past the
end is counted but not stored, so the position after a text does not depend on
where the end is, and the memory holds the part of the text below it. Positions
are 64 bit addresses and wrap. -/
namespace RockOs.BoundedText
open ByteMemory

/-- Memory and the address of the next character. -/
structure Out where
  mem : Mem
  str : Nat

/-- Store one character if it fits below `fin`, and move on. -/
def addch (fin : Nat) (ch : UInt8) (out : Out) : Out where
  mem := if out.str < fin then Function.update out.mem out.str ch else out.mem
  str := (out.str + 1) % 2 ^ 64

/-- One character after the other. -/
def addchs (fin : Nat) : (text : List UInt8) → Out → Out
  | [], out => out
  | ch :: text, out => addchs fin text (addch fin ch out)

@[simp] theorem addchs_nil : addchs fin [] out = out := rfl

theorem addchs_append : addchs fin (front ++ back) out = addchs fin back (addchs fin front out) := by
  induction front generalizing out with
  | nil => rfl
  | cons ch front ih => exact ih

theorem addchs_singleton : addchs fin [ch] out = addch fin ch out := rfl

theorem addchs_str (fits : out.str + text.length < 2 ^ 64) :
    (addchs fin text out).str = out.str + text.length := by
  induction text generalizing out with
  | nil => rfl
  | cons ch text ih =>
    rw [List.length_cons] at fits ⊢
    have next : (addch fin ch out).str = out.str + 1 := Nat.mod_eq_of_lt (by omega)
    rw [addchs, ih (by omega), next]
    omega

/-- Where nothing wraps, the cells below the end and inside the text hold its
characters, and no other cell changes. -/
theorem addchs_mem (fits : out.str + text.length < 2 ^ 64) (cell : Nat) :
    (addchs fin text out).mem cell =
      if out.str ≤ cell ∧ cell < fin then text.getD (cell - out.str) (out.mem cell) else out.mem cell := by
  induction text generalizing out with
  | nil => simp
  | cons ch text ih =>
    rw [List.length_cons] at fits
    have next : (addch fin ch out).str = out.str + 1 := Nat.mod_eq_of_lt (by omega)
    have here : (addch fin ch out).mem cell = if cell = out.str ∧ cell < fin then ch else out.mem cell := by
      simp only [addch]
      split <;> rename_i below
      · by_cases same : cell = out.str
        · subst same
          simp [below]
        · simp [same]
      · rw [if_neg (by omega)]
    rw [addchs, ih (by omega), next, here]
    by_cases inside : out.str ≤ cell ∧ cell < fin
    · rw [if_pos inside]
      by_cases first : cell = out.str
      · rw [if_neg (by omega), if_pos ⟨first, inside.2⟩, first, Nat.sub_self, List.getD_cons_zero]
      · have later : cell - out.str = (cell - (out.str + 1)) + 1 := by omega
        rw [if_pos (by omega), if_neg (by omega), later, List.getD_cons_succ]
    · rw [if_neg inside, if_neg (by omega), if_neg (by omega)]

theorem addchs_mem_outside (fits : out.str + text.length < 2 ^ 64)
    (outside : cell < out.str ∨ fin ≤ cell ∨ out.str + text.length ≤ cell) :
    (addchs fin text out).mem cell = out.mem cell := by
  rw [addchs_mem fits]
  split
  · exact List.getD_eq_default _ _ (by omega)
  · rfl

theorem addchs_mem_inside (fits : out.str + text.length < 2 ^ 64) (inside : i < text.length)
    (below : out.str + i < fin) : text[i]? = some ((addchs fin text out).mem (out.str + i)) := by
  rw [addchs_mem fits, if_pos ⟨Nat.le_add_right _ _, below⟩, Nat.add_sub_cancel_left, List.getD_eq_getElem _ _ inside,
    List.getElem?_eq_getElem inside]

/-- The same character `count` times. -/
def pad (fin : Nat) (ch : UInt8) : (count : Nat) → Out → Out
  | 0, out => out
  | count + 1, out => pad fin ch count (addch fin ch out)

theorem pad_eq : pad fin ch count out = addchs fin (List.replicate count ch) out := by
  induction count generalizing out with
  | zero => rfl
  | succ count ih => exact ih

end RockOs.BoundedText
