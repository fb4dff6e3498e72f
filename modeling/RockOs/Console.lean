import Mathlib.Data.List.TakeWhile
import RockOs.Config
import RockOs.VsprintfBounds

/-! `printf` of `lib/vsprintf.c`: the text goes through a buffer of
`CONFIG_SYS_PBSIZE` bytes on the stack, so at most one less of its characters
reach the console. -/
namespace RockOs.Console
open ByteMemory Config Ctype Vsprintf VsprintfText VsprintfBounds

/-- The characters `puts` writes of the `count` bytes at `address`. -/
def cString (mem : Mem) (address count : Nat) : List UInt8 :=
  ((List.range count).map fun i => mem (address + i)).takeWhile (· ≠ 0)

/-- What `printf` writes. The stack buffer has a memory of its own. -/
def printf (fmt : List UInt8) (args : List Arg) : Option (List UInt8) := do
  let printed ← vscnprintf (fun _ => 0) 0 sysPbsize fmt args
  if printed.value = 0 then return []
  else return cString printed.mem 0 sysPbsize

theorem takeWhile_range {f : Nat → UInt8} (before : ∀ i < k, f i ≠ 0) (stop : f k = 0) (inside : k < n) :
    ((List.range n).map f).takeWhile (· ≠ 0) = (List.range k).map f := by
  have split : List.range n = List.range k ++ k :: (List.range (n - k - 1)).map (k + 1 + ·) := by
    obtain ⟨rest, rfl⟩ : ∃ rest, n = k + 1 + rest := ⟨n - k - 1, by omega⟩
    rw [show k + 1 + rest - k - 1 = rest by omega, List.range_add, List.range_succ, List.append_assoc]
    rfl
  have kept : ∀ c ∈ (List.range k).map f, (decide (c ≠ 0)) = true := by
    intro c member
    obtain ⟨i, low, rfl⟩ := List.mem_map.mp member
    exact decide_eq_true (before i (List.mem_range.mp low))
  rw [split, List.map_append, List.takeWhile_append_of_pos kept, List.map_cons,
    List.takeWhile_cons_of_neg (by simp [stop]), List.append_nil]

/-- The stack buffer of `printf` as a string. -/
theorem cString_holds (holds : Holds mem mem' 0 size text) (nonzero : 0 ∉ text) (positive : 0 < size) :
    cString mem' 0 size = text.take (size - 1) := by
  have written : ∀ i, i < min text.length (size - 1) → text[i]? = some (mem' (0 + i)) := holds.written
  have before : ∀ i < min text.length (size - 1), mem' (0 + i) ≠ 0 := by
    intro i inside zero
    have char := written i inside
    rw [zero] at char
    exact nonzero (List.mem_of_getElem? char)
  rw [cString, takeWhile_range before (holds.ended positive) (by omega)]
  apply List.ext_getElem?
  intro i
  by_cases inside : i < min text.length (size - 1)
  · rw [List.getElem?_take_of_lt (by omega), written i inside]
    simp [inside]
  · rw [List.getElem?_eq_none (by simp; omega), List.getElem?_eq_none (by simp; omega)]

/-- `printf` writes the output of its format, cut to what its buffer holds. -/
theorem printf_eq (matching : output fmt args = some text) (short : text.length < 2 ^ 31) (nonzero : 0 ∉ text) :
    printf fmt args = some (text.take (sysPbsize - 1)) := by
  obtain ⟨mem', printed, holds⟩ :=
    vsnprintf_output (fun _ => 0) matching short (show sysPbsize < 2 ^ 64 by decide) (show 0 + text.length < _ by omega)
  unfold printf
  rw [vscnprintf_of_vsnprintf printed short (by decide)]
  simp only [Option.bind_eq_bind, Option.bind_some]
  split
  · next empty =>
    have none : text = [] := by
      have zero : min text.length (sysPbsize - 1) = 0 := by exact_mod_cast empty
      have large : 0 < sysPbsize - 1 := by decide
      exact List.length_eq_zero_iff.mp (by omega)
    rw [none]
    rfl
  · rw [cString_holds holds nonzero (by decide)]
    rfl

/-- What a function writes with one call. -/
inductive Print where
  | printf (fmt : List UInt8) (args : List Arg)
  | puts (text : List UInt8)
  deriving DecidableEq, Repr

def Print.text : Print → Option (List UInt8)
  | .printf fmt args => Console.printf fmt args
  | .puts text => some text

/-- `"%.*s"`, the format of `putnstr`. -/
def putnstrFormat : List UInt8 := ascii ['%', '.', '*', 's']

/-- `"%*s"`, the format blanks are written with. -/
def blanksFormat : List UInt8 := ascii ['%', '*', 's']

private theorem output_str (found : directive fmt args = some (.str s width precision flags, [], [])) :
    output ('%'.toUInt8 :: fmt) args = some (stringText s width precision flags) := by
  rw [output_directive found, pieceText, Option.bind_some, output_nil, Option.map_some, List.append_nil]

private theorem take_strnlen (s : List UInt8) (count : Nat) :
    s.take (strnlen s count) = (s.take count).takeWhile (· ≠ 0) := by
  have front := (List.takeWhile_prefix (· ≠ 0) (l := s.take count)).trans (List.take_prefix count s)
  exact (List.prefix_iff_eq_take.mp front).symm

/-- A whole string in a field: blanks on one side of it. -/
theorem stringText_whole (clean : 0 ∉ s) (short : s.length < 2 ^ 31) (narrow : width < 2 ^ 31) (wide : -1 ≤ width) :
    stringText (some s) width (-1) flags =
      if flags.left then s ++ List.replicate (width - s.length).toNat ' '.toUInt8
      else List.replicate (width - s.length).toNat ' '.toUInt8 ++ s := by
  have all : s.takeWhile (· ≠ 0) = s := by
    rw [List.takeWhile_eq_self_iff]
    intro c member
    exact decide_eq_true fun zero => clean (zero ▸ member)
  have count : ((-1 : Int) % 2 ^ 64).toNat = (2 ^ 64 - 1 : Nat) := rfl
  have length : strnlen s ((-1 : Int) % 2 ^ 64).toNat = s.length := by
    rw [strnlen, count, List.take_of_length_le (by omega), all]
  have some : underCount s.length width = (width - s.length).toNat := rfl
  have none : underCount s.length (underLeft s.length width) = 0 := by
    unfold underCount underLeft
    split
    · rw [int32, Int.bmod_eq_of_le (by omega) (by omega)]
      omega
    · rw [int32, Int.bmod_eq_of_le (by omega) (by omega)]
      omega
  simp only [stringText, Option.getD_some, length, int32_of_lt short, some, none, Int.toNat_natCast,
    List.take_length, List.replicate_zero, List.append_nil]

/-- A `%s` without a field width. -/
theorem output_string (found : directive fmt args = some (.str (some s) (-1) (-1) {}, fmt', args')) (clean : 0 ∉ s)
    (short : s.length < 2 ^ 31) : output ('%'.toUInt8 :: fmt) args = (output fmt' args').map (s ++ ·) := by
  have none : ((-1 : Int) - s.length).toNat = 0 := by omega
  rw [output_directive found, pieceText, Option.bind_some, stringText_whole clean short (by decide) (by decide), none]
  rfl

private theorem output_putnstr (small : n < 2 ^ 31) :
    output putnstrFormat [.num n, .str (some s)] = some ((s.take n).takeWhile (· ≠ 0)) := by
  have found : directive (ascii ['.', '*', 's']) [.num n, .str (some s)] =
      some (.str (some s) (-1) (max (int32 n) 0) {}, [], []) := rfl
  have short : strnlen s n < 2 ^ 31 := by
    have bound := (List.takeWhile_prefix (· ≠ 0) (l := s.take n)).length_le
    rw [List.length_take] at bound
    unfold strnlen
    omega
  have count : (max (int32 n) 0 % 2 ^ 64).toNat = n := by
    rw [int32_of_lt small]
    omega
  rw [putnstrFormat, ascii, List.map_cons]
  refine (output_str found).trans (congrArg some ?_)
  have none : underCount (strnlen s n) (-1) = 0 := by
    unfold underCount
    omega
  have none' : underCount (strnlen s n) (underLeft (strnlen s n) (-1)) = 0 := by
    unfold underCount underLeft
    rw [if_neg (by omega), show int32 (-1 - 1) = -2 from rfl]
    omega
  simp only [stringText, Option.getD_some, count, int32_of_lt short, none, none', List.replicate_zero, List.nil_append,
    List.append_nil, Bool.false_eq_true, if_false, Int.toNat_natCast, take_strnlen]

private theorem directive_blanks (small : n < 2 ^ 31) :
    directive (ascii ['*', 's']) [.num n, .str (some [])] = some (.str (some []) n (-1) {}, [], []) := by
  have taken : vaInt [.num n, .str (some [])] = some ((n : Int), [.str (some [])]) :=
    congrArg (fun value => some (value, [Arg.str (some [])])) (int32_of_lt small)
  have width : getWidth {} (ascii ['*', 's']) [.num n, .str (some [])] =
      some ({}, (n : Int), ascii ['s'], [.str (some [])]) := by
    unfold getWidth
    rw [if_neg (by decide), if_pos (by decide), taken]
    simp only [Option.bind_eq_bind, Option.bind_some]
    rw [if_neg (by omega)]
    rfl
  unfold directive
  rw [show getFlags (ascii ['*', 's']) {} = ({}, ascii ['*', 's']) from rfl]
  simp only [width, Option.bind_eq_bind, Option.bind_some]
  rfl

private theorem output_blanks (small : n < 2 ^ 31) :
    output blanksFormat [.num n, .str (some [])] = some (List.replicate n ' '.toUInt8) := by
  rw [blanksFormat, ascii, List.map_cons]
  refine (output_str (directive_blanks small)).trans (congrArg some ?_)
  have empty (count : Nat) : int32 (strnlen [] count) = 0 := by
    rw [show strnlen [] count = 0 by simp [strnlen]]
    rfl
  have turns : underCount 0 n = n := by
    unfold underCount
    omega
  have none : underCount 0 (underLeft 0 n) = 0 := by
    unfold underCount underLeft
    split
    · rfl
    · rw [show (n : Int) = 0 by omega]
      rfl
  simp only [stringText, Option.getD_some, empty, turns, none, List.replicate_zero, List.take_nil, List.append_nil,
    Bool.false_eq_true, if_false]

/-- `putnstr` and the blanks, cut to the print buffer. -/
theorem printf_putnstr (small : n < 2 ^ 31) :
    printf putnstrFormat [.num n, .str (some s)] =
      some (((s.take n).takeWhile (· ≠ 0)).take (sysPbsize - 1)) := by
  have bound := (List.takeWhile_prefix (· ≠ 0) (l := s.take n)).length_le
  rw [List.length_take] at bound
  refine printf_eq (output_putnstr small) (by omega) fun zero => ?_
  have kept := List.mem_takeWhile_imp zero
  exact absurd kept (by decide)

theorem printf_blanks (small : n < 2 ^ 31) :
    printf blanksFormat [.num n, .str (some [])] = some (List.replicate (min n (sysPbsize - 1)) ' '.toUInt8) := by
  rw [printf_eq (output_blanks small) (by simpa using small) fun zero => ?_, List.take_replicate, Nat.min_comm]
  exact absurd (List.eq_of_mem_replicate zero) (by decide)

end RockOs.Console
