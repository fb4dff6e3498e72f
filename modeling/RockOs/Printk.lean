import RockOs.Config
import RockOs.VsprintfBounds

/-! `printk` of `lib/printk.c`. The message is formatted by `vsprintf`, which knows
nothing of the size of `log_buf`, and then stripped of its level prefixes. -/
namespace RockOs.Printk
open BoundedText ByteMemory Config Vsprintf VsprintfBounds VsprintfText

/-! ## The code -/

def intMax : Nat := 2 ^ 31 - 1

def vsprintf (mem : Mem) (buf : Nat) (fmt : List UInt8) (args : List Arg) : Option Printed :=
  vsnprintfInternal mem buf intMax fmt args

/-- `KERN_SOH_ASCII`. -/
def kernSohAscii : UInt8 := 1

/-- `LOGLEVEL_DEFAULT - '0'`. -/
def loglevelDefault : Nat := 4

/-- The cases of `printk_get_level`. -/
def isLevel (c : UInt8) : Bool := ('0'.toUInt8 ≤ c ∧ c ≤ '7'.toUInt8) ∨ c = 'd'.toUInt8 ∨ c = 'c'.toUInt8

def printkGetLevel (mem : Mem) (buffer : Nat) : UInt8 :=
  if mem buffer = kernSohAscii ∧ mem ((buffer + 1) % 2 ^ 64) ≠ 0 then
    if isLevel (mem ((buffer + 1) % 2 ^ 64)) then mem ((buffer + 1) % 2 ^ 64) else 0
  else 0

/-- The `switch` of `printk`. -/
def levelOf (kernLevel : UInt8) : Nat :=
  if '0'.toUInt8 ≤ kernLevel ∧ kernLevel ≤ '7'.toUInt8 then kernLevel.toNat - 48 else loglevelDefault

/-- The loop over the prefixes: `buf`, `i` and `level` after it. -/
def stripLoop (mem : Mem) : (turns buf : Nat) → (i : Int) → (level : Nat) → Option (Nat × Int × Nat)
  | 0, _, _, _ => none
  | turns + 1, buf, i, level =>
    if printkGetLevel mem buf = 0 then some (buf, i, level)
    else stripLoop mem turns ((buf + 2) % 2 ^ 64) (int32 (i - 2)) (levelOf (printkGetLevel mem buf))

/-- The characters `puts` writes, at most `count` of them. -/
def stringAt (mem : Mem) : (count address : Nat) → List UInt8
  | 0, _ => []
  | count + 1, address =>
    if mem address = 0 then [] else mem address :: stringAt mem count ((address + 1) % 2 ^ 64)

/-- What a call returns and leaves; `console` is what `puts` writes if it is called. -/
structure Logged where
  value : Int
  mem : Mem
  stores : List (Nat × Int)
  console : Option (List UInt8)

/-- `buf` is the address of `log_buf`. The string `vsprintf` leaves ends within
`INT_MAX` bytes. -/
def printk (messageLogleve : UInt8) (mem : Mem) (buf : Nat) (fmt : List UInt8) (args : List Arg) : Option Logged := do
  let printed ← vsprintf mem buf fmt args
  let (buf, i, level) ← stripLoop printed.mem intMax buf printed.value loglevelDefault
  return ⟨i, printed.mem, printed.stores,
    if level ≤ messageLogleve.toNat then some (stringAt printed.mem intMax buf) else none⟩

/-! ## Strings in memory -/

/-- The string at an address. -/
def HoldsString (mem : Mem) : (address : Nat) → List UInt8 → Prop
  | address, [] => mem address = 0
  | address, c :: text => mem address = c ∧ c ≠ 0 ∧ HoldsString mem (address + 1) text

@[simp] theorem holdsString_nil : HoldsString mem address [] ↔ mem address = 0 := Iff.rfl

private theorem stringAt_eq (holds : HoldsString mem address text) (fits : address + text.length < 2 ^ 64)
    (enough : text.length < count) : stringAt mem count address = text := by
  induction text generalizing address count with
  | nil =>
    cases count with
    | zero => omega
    | succ count => rw [stringAt, if_pos (holdsString_nil.mp holds)]
  | cons c text ih =>
    obtain ⟨here, nonzero, rest⟩ := holds
    rw [List.length_cons] at fits enough
    cases count with
    | zero => omega
    | succ count =>
      rw [stringAt, here, if_neg nonzero, Nat.mod_eq_of_lt (by omega), ih rest (by omega) (by omega)]

/-- What a buffer holds of a text is the string up to its first NUL. -/
theorem holdsString_of_written {text : List UInt8} (written : ∀ i, i < text.length → text[i]? = some (mem (address + i)))
    (ended : mem (address + text.length) = 0) : HoldsString mem address (text.takeWhile (· ≠ 0)) := by
  induction text generalizing address with
  | nil => exact ended
  | cons c text ih =>
    have here : c = mem address := Option.some.inj (written 0 (by simp))
    by_cases zero : c = 0
    · rw [List.takeWhile_cons_of_neg (by simpa using zero)]
      exact here.symm.trans zero
    · rw [List.takeWhile_cons_of_pos (by simpa using zero)]
      refine ⟨here.symm, zero, ih (fun i inside => ?_) ?_⟩
      · have next := written (i + 1) (by simpa using inside)
        rwa [List.getElem?_cons_succ, show address + (i + 1) = address + 1 + i by omega] at next
      · rwa [List.length_cons, show address + (text.length + 1) = address + 1 + text.length by omega] at ended

/-! ## The prefixes -/

/-- A text is its level prefixes and a rest that starts with none. -/
structure Stripped (text levels rest : List UInt8) : Prop where
  split : text = levels.flatMap (fun level => [kernSohAscii, level]) ++ rest
  known : ∀ level ∈ levels, isLevel level
  last : ∀ level rest', rest = kernSohAscii :: level :: rest' → ¬ isLevel level

theorem Stripped.cons (stripped : Stripped text levels rest) (here : isLevel level) :
    Stripped (kernSohAscii :: level :: text) (level :: levels) rest where
  split := by rw [stripped.split]; rfl
  known := by
    intro level' member
    cases member with
    | head => exact here
    | tail _ member => exact stripped.known level' member
  last := stripped.last

private theorem printkGetLevel_cons (holds : HoldsString mem buf (c :: d :: text)) (fits : buf + 1 < 2 ^ 64) :
    printkGetLevel mem buf = if c = kernSohAscii ∧ isLevel d then d else 0 := by
  obtain ⟨first, _, second, nonzero, _⟩ := holds
  unfold printkGetLevel
  rw [Nat.mod_eq_of_lt fits, first, second]
  by_cases soh : c = kernSohAscii
  · simp [soh, nonzero]
  · simp [soh]

/-- A text without a prefix in front. -/
theorem printkGetLevel_zero (holds : HoldsString mem buf text) (fits : buf + 1 < 2 ^ 64)
    (last : ∀ level rest, text = kernSohAscii :: level :: rest → ¬ isLevel level) : printkGetLevel mem buf = 0 := by
  cases text with
  | nil =>
    rw [printkGetLevel, holdsString_nil.mp holds]
    rfl
  | cons c text =>
    cases text with
    | nil =>
      have ended : mem (buf + 1) = 0 := holds.2.2
      rw [printkGetLevel, Nat.mod_eq_of_lt fits, ended]
      simp
    | cons d text =>
      rw [printkGetLevel_cons holds fits, if_neg]
      rintro ⟨rfl, level⟩
      exact last d text rfl level

private theorem isLevel_nonzero (level : isLevel d) : d ≠ 0 := by
  rintro rfl
  cases level

/-- The loop takes off all prefixes and keeps the level of the last. -/
theorem stripLoop_eq (holds : HoldsString mem buf text) (fits : buf + text.length + 1 < 2 ^ 64)
    (enough : text.length < turns) (i : Int) (level : Nat) :
    ∃ levels rest i', Stripped text levels rest ∧ HoldsString mem (buf + 2 * levels.length) rest ∧
      stripLoop mem turns buf i level =
        some (buf + 2 * levels.length, i', levels.foldl (fun _ level => levelOf level) level) := by
  induction turns generalizing text buf i level with
  | zero => omega
  | succ turns ih =>
    by_cases more : ∃ d rest, text = kernSohAscii :: d :: rest ∧ isLevel d
    · obtain ⟨d, rest, rfl, here⟩ := more
      simp only [List.length_cons] at fits enough
      have found : printkGetLevel mem buf = d := by
        rw [printkGetLevel_cons holds (by omega), if_pos ⟨rfl, here⟩]
      obtain ⟨levels, rest', i', stripped, behind, looped⟩ :=
        ih (show HoldsString mem (buf + 2) rest from holds.2.2.2.2) (by omega) (by omega) (int32 (i - 2)) (levelOf d)
      have moved : buf + 2 + 2 * levels.length = buf + 2 * (levels.length + 1) := by omega
      refine ⟨d :: levels, rest', i', stripped.cons here, ?_, ?_⟩
      · rwa [List.length_cons, ← moved]
      · rw [stripLoop, found, if_neg (isLevel_nonzero here), Nat.mod_eq_of_lt (by omega), looped, moved]
        rfl
    · have last : ∀ level rest, text = kernSohAscii :: level :: rest → ¬ isLevel level :=
        fun d rest same level => more ⟨d, rest, same, level⟩
      refine ⟨[], text, i, ⟨rfl, by simp, last⟩, holds, ?_⟩
      rw [stripLoop, if_pos (printkGetLevel_zero holds (by omega) last)]
      rfl

/-- The level a message has: that of its last prefix, or the default. -/
def messageLevel (levels : List UInt8) : Nat := (levels.getLast?.map levelOf).getD loglevelDefault

private theorem foldl_levelOf (levels : List UInt8) :
    levels.foldl (fun _ level => levelOf level) loglevelDefault = messageLevel levels := by
  unfold messageLevel
  rcases List.eq_nil_or_concat levels with rfl | ⟨front, last, rfl⟩
  · rfl
  · simp

/-! ## What `vsprintf` stores -/

/-- Where a `%n` stores. -/
def pieceCounts : Piece → List Nat
  | .count ip _ => [ip]
  | _ => []

/-- Where the `%n` of a format store. -/
def countsLoop : (turns : Nat) → (fmt : List UInt8) → (args : List Arg) → List Nat
  | 0, _, _ => []
  | _ + 1, [], _ => []
  | turns + 1, c :: fmt, args =>
    if c = 0 then []
    else if c ≠ '%'.toUInt8 then countsLoop turns fmt args
    else match directive fmt args with
      | none => []
      | some (piece, fmt, args) => pieceCounts piece ++ countsLoop turns fmt args

def counts (fmt : List UInt8) (args : List Arg) : List Nat := countsLoop (fmt.length + 1) fmt args

private theorem countedLoop_places (turns : Nat) (fmt : List UInt8) (args : List Arg) (front : Nat) :
    (countedLoop turns fmt args front).map Prod.fst = countsLoop turns fmt args := by
  induction turns generalizing fmt args front with
  | zero => rfl
  | succ turns ih =>
    cases fmt with
    | nil => rfl
    | cons c fmt =>
      rw [countedLoop, countsLoop]
      by_cases ended : c = 0
      · rw [if_pos ended, if_pos ended, List.map_nil]
      rw [if_neg ended, if_neg ended]
      by_cases plain : c ≠ '%'.toUInt8
      · rw [if_pos plain, if_pos plain, ih]
      rw [if_neg plain, if_neg plain]
      cases directive fmt args with
      | none => rfl
      | some next =>
        obtain ⟨piece, fmt', args'⟩ := next
        have here : (pieceStores front piece).map Prod.fst = pieceCounts piece := by
          cases piece with
          | count ip long => cases long <;> rfl
          | _ => rfl
        rw [List.map_append, here, ih]

private theorem counted_places (fmt : List UInt8) (args : List Arg) :
    (counted fmt args).map Prod.fst = counts fmt args :=
  countedLoop_places _ _ _ _

/-- The end `vsnprintf_internal` computes for `INT_MAX` bytes. -/
def endOf (buf : Nat) : Nat := min (buf + intMax) (2 ^ 64 - 1)

private theorem endOf_eq (placed : buf < 2 ^ 64 - 4095) :
    ∃ size, 0 < size ∧
      (if (buf + intMax) % 2 ^ 64 < buf then (2 ^ 64 - 1, 2 ^ 64 - 1 - buf) else ((buf + intMax) % 2 ^ 64, intMax)) =
        (endOf buf, size) := by
  have large : intMax = 2 ^ 31 - 1 := rfl
  unfold endOf
  split
  · exact ⟨2 ^ 64 - 1 - buf, by omega, congrArg (·, 2 ^ 64 - 1 - buf) (by omega)⟩
  · exact ⟨intMax, by omega, congrArg (·, intMax) (by omega)⟩

private theorem vsprintf_eq (mem : Mem) (matching : output fmt args = some text)
    (placed : buf + text.length < 2 ^ 64 - 4095) :
    vsprintf mem buf fmt args = some ⟨int32 text.length,
      if endOf buf < buf + text.length + 1 then
        Function.update (addchs (endOf buf) (text ++ [0]) ⟨mem, buf⟩).mem (endOf buf - 1) 0
      else (addchs (endOf buf) (text ++ [0]) ⟨mem, buf⟩).mem, counted fmt args⟩ := by
  obtain ⟨size, positive, bounds⟩ := endOf_eq (show buf < 2 ^ 64 - 4095 by omega)
  unfold vsprintf
  rw [vsnprintfInternal_eq matching placed bounds, if_pos positive]

/-- A message that fits leaves `log_buf` with the text in it. -/
theorem vsprintf_fits (mem : Mem) (matching : output fmt args = some text) (fits : text.length < sysPbsize)
    (placed : buf + sysPbsize ≤ 2 ^ 64 - 4095) :
    ∃ mem' stores, stores.map Prod.fst = counts fmt args ∧
      vsprintf mem buf fmt args = some ⟨int32 text.length, mem', stores⟩ ∧ Holds mem mem' buf sysPbsize text := by
  have size : sysPbsize = 1024 := rfl
  have large : intMax = 2 ^ 31 - 1 := rfl
  have room : buf + text.length + 1 ≤ endOf buf := by
    unfold endOf
    omega
  have printed := vsprintf_eq mem matching (show buf + text.length < _ by omega)
  rw [if_neg (by omega)] at printed
  exact ⟨_, _, counted_places fmt args, printed, holds_whole (by omega) (by omega) fits⟩

/-- A longer one stores into the byte behind it. -/
theorem vsprintf_past (mem : Mem) (matching : output fmt args = some text) (long : sysPbsize ≤ text.length)
    (placed : buf + text.length < 2 ^ 64 - 4095) :
    ∃ mem' stores, vsprintf mem buf fmt args = some ⟨int32 text.length, mem', stores⟩ ∧
      (text ++ [0])[sysPbsize]? = some (mem' (buf + sysPbsize)) := by
  have size : sysPbsize = 1024 := rfl
  have large : intMax = 2 ^ 31 - 1 := rfl
  have length : (text ++ [0]).length = text.length + 1 := by simp
  have below : buf + sysPbsize < endOf buf - 1 := by
    unfold endOf
    omega
  have stored : (text ++ [0])[sysPbsize]? =
      some ((addchs (endOf buf) (text ++ [0]) ⟨mem, buf⟩).mem (buf + sysPbsize)) :=
    addchs_mem_inside (by dsimp only; omega) (by omega) (by dsimp only; omega)
  refine ⟨_, _, vsprintf_eq mem matching placed, ?_⟩
  rw [stored]
  split
  · rw [Function.update_of_ne (by omega)]
  · rfl

/-! ## The call -/

/-- What a call does right: it stores in `log_buf` only, and writes the message
without its prefixes if and only if its level is let through. -/
structure Right (messageLogleve : UInt8) (mem : Mem) (buf : Nat) (text : List UInt8) (logged : Logged) : Prop where
  inside : ∀ cell, cell < buf ∨ buf + sysPbsize ≤ cell → logged.mem cell = mem cell
  stores : logged.stores = []
  written : ∃ levels rest, Stripped (text.takeWhile (· ≠ 0)) levels rest ∧
    logged.console = if messageLevel levels ≤ messageLogleve.toNat then some rest else none

private theorem printk_right (mem : Mem) (matching : output fmt args = some text) (fits : text.length < sysPbsize)
    (uncounted : counts fmt args = []) (placed : buf + sysPbsize ≤ 2 ^ 64 - 4095) :
    ∃ logged, printk messageLogleve mem buf fmt args = some logged ∧ Right messageLogleve mem buf text logged := by
  have size : sysPbsize = 1024 := rfl
  have large : intMax = 2 ^ 31 - 1 := rfl
  obtain ⟨mem', stores, counted, printed, holds⟩ := vsprintf_fits mem matching fits placed
  have whole : min text.length (sysPbsize - 1) = text.length := by omega
  have string : HoldsString mem' buf (text.takeWhile (· ≠ 0)) :=
    holdsString_of_written (fun i inside => holds.written i (by omega)) (whole ▸ holds.ended (by omega))
  have shorter : (text.takeWhile (· ≠ 0)).length ≤ text.length := (List.takeWhile_sublist _).length_le
  obtain ⟨levels, rest, i, stripped, behind, looped⟩ :=
    stripLoop_eq string (by omega) (show _ < intMax by omega) (int32 text.length) loglevelDefault
  have lengths : (text.takeWhile (· ≠ 0)).length = 2 * levels.length + rest.length := by
    rw [stripped.split]
    simp [Nat.mul_comm, List.map_const']
  have read : stringAt mem' intMax (buf + 2 * levels.length) = rest :=
    stringAt_eq behind (by omega) (by omega)
  refine ⟨⟨i, mem', stores, if messageLevel levels ≤ messageLogleve.toNat then some rest else none⟩, ?_, ?_⟩
  · unfold printk
    simp only [printed, Option.bind_eq_bind, Option.bind_some, looped, foldl_levelOf, read]
    rfl
  · exact ⟨holds.outside, List.map_eq_nil_iff.mp (counted.trans uncounted), levels, rest, stripped, rfl⟩

/-- `printk` keeps to its buffer for the messages that fit into it with their NUL and
have no `%n`, and for no others. -/
theorem printk_iff (messageLogleve : UInt8) (matching : output fmt args = some text)
    (placed : buf + sysPbsize ≤ 2 ^ 64 - 4095) :
    (text.length < sysPbsize ∧ counts fmt args = [] →
      ∀ mem, ∃ logged, printk messageLogleve mem buf fmt args = some logged ∧
        Right messageLogleve mem buf text logged) ∧
    (buf + text.length < 2 ^ 64 - 4095 →
      (∀ mem, ∃ logged, printk messageLogleve mem buf fmt args = some logged ∧
        Right messageLogleve mem buf text logged) →
      text.length < sysPbsize ∧ counts fmt args = []) := by
  constructor
  · rintro ⟨fits, uncounted⟩ mem
    exact printk_right mem matching fits uncounted placed
  · intro below right
    have kept : ∀ mem printed, vsprintf mem buf fmt args = some printed →
        printed.stores = [] ∧ printed.mem (buf + sysPbsize) = mem (buf + sysPbsize) := by
      intro mem printed called
      obtain ⟨logged, returned, right⟩ := right mem
      unfold printk at returned
      simp only [called, Option.bind_eq_bind, Option.bind_some, Option.bind_eq_some_iff] at returned
      obtain ⟨_, _, same⟩ := returned
      cases same
      exact ⟨right.stores, right.inside _ (.inr (Nat.le_refl _))⟩
    refine ⟨Nat.lt_of_not_le fun long => ?_, ?_⟩
    · -- a cell that does not hold the character yet
      obtain ⟨c, char⟩ : ∃ c, (text ++ [0])[sysPbsize]? = some c :=
        ⟨_, List.getElem?_eq_getElem (by simpa using Nat.lt_succ_of_le long)⟩
      obtain ⟨mem', stores, printed, stored⟩ := vsprintf_past (fun _ => c + 1) matching long below
      have same := (kept _ _ printed).2
      rw [char, Option.some.injEq] at stored
      dsimp only at same
      rw [← stored] at same
      simp at same
    · have none : counted fmt args = [] := (kept _ _ (vsprintf_eq (fun _ => 0) matching below)).1
      rw [← counted_places, none]
      rfl

/-- `printk(KERN_ERR "%d", 42)` with level 4 let through. -/
theorem printk_iff_number :
    output [1, 0x33, 0x25, 0x64] [.num 42] = some [1, 0x33, 0x34, 0x32] ∧
      ∀ mem, ∃ logged, printk 4 mem 0x1000 [1, 0x33, 0x25, 0x64] [.num 42] = some logged ∧
        Right 4 mem 0x1000 [1, 0x33, 0x34, 0x32] logged :=
  ⟨by decide +kernel, (printk_iff 4 (show output _ _ = some _ by decide +kernel) (by decide)).1
    ⟨by decide, by decide +kernel⟩⟩

/-- `printk("%1024d", 0)` puts the NUL behind `log_buf`. -/
theorem printk_long :
    (output [0x25, 0x31, 0x30, 0x32, 0x34, 0x64] [.num 0]).map List.length = some sysPbsize ∧
      (printk 4 (fun _ => 1) 0x1000 [0x25, 0x31, 0x30, 0x32, 0x34, 0x64] [.num 0]).map
        (·.mem (0x1000 + sysPbsize)) = some 0 := by
  decide +kernel

end RockOs.Printk
