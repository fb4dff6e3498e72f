import RockOs.CliSimple
import RockOs.Console
import RockOs.PrintedNumbers
import RockOs.TextBuffers

/-! `do_mem_cmp` of `cmd/mem.c`, the command that compares two ranges of memory
object by object. -/
namespace RockOs.MemoryCompare
open ByteMemory CliSimple Console Ctype PrintedNumbers Strto TextBuffers Vsprintf VsprintfText

/-! ## The code -/

/-- The size an argument ends with, and negative numbers for what is none. -/
def cmdGetDataSize (arg : List UInt8) (defaultSize : Int) : Int :=
  if 2 < arg.length ∧ arg.getD (arg.length - 2) 0 = '.'.toUInt8 then
    let c := arg.getD (arg.length - 1) 0
    if c = 'b'.toUInt8 then 1
    else if c = 'w'.toUInt8 then 2
    else if c = 'l'.toUInt8 then 4
    else if c = 'q'.toUInt8 then 8
    else if c = 's'.toUInt8 then -2
    else -1
  else defaultSize

/-- The local `type`. -/
def typeName (size : Int) : List UInt8 :=
  if size = 8 then ascii ['d', 'o', 'u', 'b', 'l', 'e', ' ', 'w', 'o', 'r', 'd']
  else if size = 4 then ascii ['w', 'o', 'r', 'd']
  else if size = 2 then ascii ['h', 'a', 'l', 'f', 'w', 'o', 'r', 'd']
  else ascii ['b', 'y', 't', 'e']

/-- `word1` and `word2`. -/
def loadWord (mem : Mem) (size : Int) (buf : Nat) : Nat :=
  if size = 4 then load mem buf 4
  else if size = 8 then load mem buf 8
  else if size = 2 then load mem buf 2
  else load mem buf 1

/-- The loop with `left` objects still to compare: `ngood`, and where it stopped at a
difference `buf1` and the two words. -/
def cmpLoop (mem : Mem) (size : Int) : (left ngood buf1 buf2 : Nat) → Nat × Option (Nat × Nat × Nat)
  | 0, ngood, _, _ => (ngood, none)
  | left + 1, ngood, buf1, buf2 =>
    let word1 := loadWord mem size buf1
    let word2 := loadWord mem size buf2
    if word1 ≠ word2 then (ngood, some (buf1, word1, word2))
    else cmpLoop mem size left (ngood + 1) ((buf1 + size.toNat) % 2 ^ 64) ((buf2 + size.toNat) % 2 ^ 64)

/-- `"%s at 0x%p (%#0*llx) != %s at 0x%p (%#0*llx)\n"`. -/
def differFormat : List UInt8 :=
  ascii ['%', 's', ' ', 'a', 't', ' ', '0', 'x', '%', 'p', ' ', '(', '%', '#', '0', '*', 'l', 'l', 'x', ')', ' ', '!',
    '=', ' ', '%', 's', ' ', 'a', 't', ' ', '0', 'x', '%', 'p', ' ', '(', '%', '#', '0', '*', 'l', 'l', 'x', ')', '\n']

/-- `"Total of %ld %s(s) were the same\n"`. -/
def totalFormat : List UInt8 :=
  ascii ['T', 'o', 't', 'a', 'l', ' ', 'o', 'f', ' ', '%', 'l', 'd', ' ', '%', 's', '(', 's', ')', ' ', 'w', 'e', 'r',
    'e', ' ', 't', 'h', 'e', ' ', 's', 'a', 'm', 'e', '\n']

/-- An address argument, counted from `base_address`. -/
def addressOf (baseAddress : Nat) (arg : List UInt8) : Nat := ((simpleStrtoul arg 16).1 + baseAddress) % 2 ^ 64

/-- The result and what is printed. -/
def doMemCmp (mem : Mem) (baseAddress : Nat) (argv : List (List UInt8)) : Int × List Print :=
  match argv with
  | [name, arg1, arg2, arg3] =>
    let size := cmdGetDataSize name 4
    if size < 0 then (1, [])
    else
      let addr1 := addressOf baseAddress arg1
      let addr2 := addressOf baseAddress arg2
      let count := (simpleStrtoul arg3 16).1
      let (ngood, differ) := cmpLoop mem size count 0 addr1 addr2
      let (rcode, printed) : Int × List Print :=
        match differ with
        | none => (0, [])
        | some (buf1, word1, word2) =>
          let offset := (buf1 + 2 ^ 64 - addr1) % 2 ^ 64
          -- `rcode = 0`, as without a difference
          (0, [.printf differFormat
            [.str (some (typeName size)), .ptr ((addr1 + offset) % 2 ^ 64) [], .num size.toNat, .num word1,
              .str (some (typeName size)), .ptr ((addr2 + offset) % 2 ^ 64) [], .num size.toNat, .num word2]])
      (rcode, printed ++ [.printf totalFormat [.num ngood, .str (some (typeName size))]])
  | _ => (cmdRetUsage, [])

/-! ## The objects -/

/-- The objects of a range, one after the other. -/
def objects (mem : Mem) (size : Nat) : (count address : Nat) → List Nat
  | 0, _ => []
  | count + 1, address => load mem address size :: objects mem size count ((address + size) % 2 ^ 64)

private theorem objects_length (mem : Mem) (size count address : Nat) :
    (objects mem size count address).length = count := by
  induction count generalizing address with
  | zero => rfl
  | succ count ih => rw [objects, List.length_cons, ih]

/-- The sizes of the four commands. -/
def ObjectSize (size : Nat) : Prop := size = 1 ∨ size = 2 ∨ size = 4 ∨ size = 8

theorem objectSize_of_name (sized : cmdGetDataSize name 4 = (size : Nat)) : ObjectSize size := by
  unfold ObjectSize
  unfold cmdGetDataSize at sized
  dsimp only at sized
  split_ifs at sized <;> omega

private theorem loadWord_eq (known : ObjectSize size) (mem : Mem) (buf : Nat) :
    loadWord mem (size : Nat) buf = load mem buf size := by
  rcases known with rfl | rfl | rfl | rfl <;> rfl

/-- The loop counts the objects that are the same and in front of the first
difference. -/
theorem cmpLoop_eq (known : ObjectSize size) :
    (cmpLoop mem (size : Nat) left ngood buf1 buf2).1 =
      ngood + (commonPrefix (objects mem size left buf1) (objects mem size left buf2)).length := by
  induction left generalizing ngood buf1 buf2 with
  | zero => rfl
  | succ left ih =>
    rw [cmpLoop, objects, objects, commonPrefix, loadWord_eq known, loadWord_eq known, Int.toNat_natCast]
    by_cases same : load mem buf1 size = load mem buf2 size
    · rw [if_neg (not_not_intro same), if_pos same, ih, List.length_cons]
      omega
    · rw [if_pos same, if_neg same]
      rfl

private theorem commonPrefix_self (text : List Nat) : commonPrefix text text = text := by
  have whole := (start_commonPrefix text text text).mpr ⟨List.prefix_rfl, List.prefix_rfl⟩
  have part := ((start_commonPrefix (commonPrefix text text) text text).mp List.prefix_rfl).1
  exact part.eq_of_length (Nat.le_antisymm part.length_le whole.length_le)

/-! ## The report -/

/-- A number in decimal. -/
def decimal (n : Nat) : List UInt8 := (digitsOf 10 n).map (digitText 0)

/-- The line with a text for the number in it. -/
def line (count type : List UInt8) : List UInt8 :=
  ascii ['T', 'o', 't', 'a', 'l', ' ', 'o', 'f', ' '] ++ (count ++ (ascii [' '] ++ (type ++
    ascii ['(', 's', ')', ' ', 'w', 'e', 'r', 'e', ' ', 't', 'h', 'e', ' ', 's', 'a', 'm', 'e', '\n'])))

private theorem typeName_clean (known : ObjectSize size) :
    0 ∉ typeName (size : Nat) ∧ (typeName (size : Nat)).length ≤ 11 := by
  rcases known with rfl | rfl | rfl | rfl <;> decide

private theorem output_total (word : n < 2 ^ 64) (clean : 0 ∉ type) (short : type.length ≤ 11) :
    output totalFormat [.num n, .str (some type)] =
      some (line (numberText n 10 (-1) (-1) { sign := true }) type) := by
  have number : directive (totalFormat.drop 10) [.num n, .str (some type)] =
      some (.num (n % 2 ^ 64) 10 (-1) (-1) { sign := true }, totalFormat.drop 12, [.str (some type)]) := rfl
  have string : directive (totalFormat.drop 14) [.str (some type)] =
      some (.str (some type) (-1) (-1) {}, totalFormat.drop 15, []) := rfl
  have tail : output (totalFormat.drop 15) [] = some (totalFormat.drop 15) := by decide
  have named := output_string string clean (by omega)
  rw [tail] at named
  have behind : output (totalFormat.drop 12) [.str (some type)] =
      some (ascii [' '] ++ (type ++ totalFormat.drop 15)) :=
    (output_text (plain_of_all (show (ascii [' ']).all _ = true by decide))).trans
      (congrArg (Option.map (ascii [' '] ++ ·)) named)
  have counted := output_directive number
  rw [pieceText, Option.bind_some, behind, Nat.mod_eq_of_lt word] at counted
  exact (output_text (plain_of_all (show (totalFormat.take 9).all _ = true by decide))).trans
    (congrArg (Option.map (totalFormat.take 9 ++ ·)) counted)

private theorem decimal_clean (member : c ∈ decimal n) : c ≠ 0 ∧ c ≠ '-'.toUInt8 := by
  obtain ⟨d, digit, rfl⟩ := List.mem_map.mp member
  have shown : ∀ d < 10, digitText 0 d ≠ 0 ∧ digitText 0 d ≠ '-'.toUInt8 := by decide
  exact shown d (digitsOf_lt (by decide) digit)

theorem decimal_nonzero (n : Nat) : 0 ∉ decimal n := fun zero => (decimal_clean zero).1 rfl

theorem decimal_length (word : n < 2 ^ 64) : (decimal n).length ≤ 22 := by
  rw [decimal, List.length_map]
  exact digitsOf_length (by decide) word

/-- `%ld` takes the count for a signed number. -/
theorem count_text (word : n < 2 ^ 64) :
    numberText n 10 (-1) (-1) { sign := true } =
      if n < 2 ^ 63 then decimal n else '-'.toUInt8 :: decimal (2 ^ 64 - n) := by
  rw [numberText_plain (.inr (.inl rfl)) word rfl rfl]
  have sign : numberSign n { sign := true } = if 2 ^ 63 ≤ n then '-'.toUInt8 else 0 := rfl
  by_cases small : n < 2 ^ 63
  · have value : magnitude n { sign := true } = n := if_neg fun negative => by omega
    rw [if_pos small, sign, if_neg (Nat.not_le.mpr small), value]
    rfl
  · have value : magnitude n { sign := true } = 2 ^ 64 - n := if_pos ⟨rfl, Nat.le_of_not_lt small⟩
    rw [if_neg small, sign, if_pos (Nat.le_of_not_lt small), value]
    rfl

private theorem count_clean (word : n < 2 ^ 64) :
    0 ∉ numberText n 10 (-1) (-1) { sign := true } ∧ (numberText n 10 (-1) (-1) { sign := true }).length ≤ 23 := by
  rw [count_text word]
  split
  · exact ⟨decimal_nonzero n, Nat.le_succ_of_le (decimal_length word)⟩
  · refine ⟨fun zero => ?_, Nat.succ_le_succ (decimal_length (by omega))⟩
    cases zero with
    | tail _ zero => exact decimal_nonzero _ zero

/-- The line fits the buffer of `printf`. -/
theorem total_text (word : n < 2 ^ 64) (clean : 0 ∉ type) (short : type.length ≤ 11) :
    (Print.printf totalFormat [.num n, .str (some type)]).text =
      some (line (numberText n 10 (-1) (-1) { sign := true }) type) := by
  obtain ⟨clean', short'⟩ := count_clean word
  have length : (line (numberText n 10 (-1) (-1) { sign := true }) type).length < Config.sysPbsize := by
    have size : Config.sysPbsize = 1024 := rfl
    simp [line, ascii]
    omega
  have nonzero : 0 ∉ line (numberText n 10 (-1) (-1) { sign := true }) type := by
    simp only [line, List.mem_append, not_or]
    exact ⟨by decide, clean', by decide, clean, by decide⟩
  rw [Print.text, printf_eq (output_total word clean short) (Nat.lt_trans length (by decide)) nonzero,
    List.take_of_length_le (by omega)]

/-- The count it shows is the right one below `2 ^ 63`. -/
theorem line_count (word : n < 2 ^ 64) :
    line (numberText n 10 (-1) (-1) { sign := true }) type = line (decimal n) type ↔ n < 2 ^ 63 := by
  rw [count_text word]
  constructor
  · intro same
    by_contra large
    rw [if_neg large] at same
    have counts := List.append_cancel_right (List.append_cancel_left same)
    have minus : '-'.toUInt8 ∈ decimal n := counts ▸ List.mem_cons_self
    exact (decimal_clean minus).2 rfl
  · intro small
    rw [if_pos small]

/-! ## The verdict -/

/-- What the command must say of two sequences of objects: how long their longest
common start is, and whether they are the same. -/
structure Verdict (first second : List Nat) (type : List UInt8) (result : Int × List Print) : Prop where
  reported : ∃ same, Longest same [first, second] ∧
    result.2.getLast?.bind Print.text = some (line (decimal same.length) type)
  success : result.1 = 0 ↔ first = second

/-- The command returns 0 and reports the objects that its loop has counted. -/
theorem doMemCmp_eq (mem : Mem) (baseAddress : Nat) (arg1 arg2 arg3 : List UInt8)
    (sized : cmdGetDataSize name 4 = (size : Nat)) :
    (doMemCmp mem baseAddress [name, arg1, arg2, arg3]).1 = 0 ∧
      (doMemCmp mem baseAddress [name, arg1, arg2, arg3]).2.getLast? =
        some (.printf totalFormat
          [.num (cmpLoop mem (size : Nat) (simpleStrtoul arg3 16).1 0 (addressOf baseAddress arg1)
            (addressOf baseAddress arg2)).1, .str (some (typeName (size : Nat)))]) := by
  have positive : ¬ (size : Int) < 0 := by omega
  unfold doMemCmp
  simp only [sized, if_neg positive, List.getLast?_append, List.getLast?_singleton, Option.some_or, and_true]
  split <;> rfl

private theorem simpleStrtoul_word (arg : List UInt8) (base : Nat) : (simpleStrtoul arg base).1 < 2 ^ 64 := by
  unfold simpleStrtoul
  dsimp only
  rw [strtoLoop_eq _ _ (by decide)]
  exact Nat.mod_lt _ (by decide)

/-- The verdict is the right one if and only if all objects are the same and there
are less than `2 ^ 63` of them. -/
theorem mem_cmp_iff (mem : Mem) (baseAddress : Nat) (arg1 arg2 arg3 : List UInt8)
    (sized : cmdGetDataSize name 4 = (size : Nat)) :
    Verdict (objects mem size (simpleStrtoul arg3 16).1 (addressOf baseAddress arg1))
        (objects mem size (simpleStrtoul arg3 16).1 (addressOf baseAddress arg2)) (typeName (size : Nat))
        (doMemCmp mem baseAddress [name, arg1, arg2, arg3]) ↔
      objects mem size (simpleStrtoul arg3 16).1 (addressOf baseAddress arg1) =
          objects mem size (simpleStrtoul arg3 16).1 (addressOf baseAddress arg2) ∧
        (simpleStrtoul arg3 16).1 < 2 ^ 63 := by
  have known := objectSize_of_name sized
  obtain ⟨clean, short⟩ := typeName_clean known
  obtain ⟨returned, printed⟩ := doMemCmp_eq mem baseAddress arg1 arg2 arg3 sized
  have word := simpleStrtoul_word arg3 16
  generalize simpleStrtoul arg3 16 = count at printed word ⊢
  have length := objects_length mem size count.1 (addressOf baseAddress arg1)
  rw [cmpLoop_eq known, Nat.zero_add] at printed
  generalize objects mem size count.1 (addressOf baseAddress arg1) = first at printed length ⊢
  generalize objects mem size count.1 (addressOf baseAddress arg2) = second at printed ⊢
  have longest : Longest (commonPrefix first second) [first, second] := by
    intro start
    simp [start_commonPrefix]
  constructor
  · intro verdict
    have same : first = second := verdict.success.mp returned
    obtain ⟨same', longest', text⟩ := verdict.reported
    rw [longest'.unique longest, printed, Option.bind_some, ← same, commonPrefix_self, length,
      total_text word clean short] at text
    exact ⟨same, (line_count word).mp (Option.some.inj text)⟩
  · rintro ⟨rfl, small⟩
    refine ⟨⟨_, longest, ?_⟩, iff_of_true returned rfl⟩
    rw [printed, Option.bind_some, commonPrefix_self, length, total_text word clean short,
      (line_count word).mpr small]

/-- `cmp.b 0 10 8` of memory that is all zero. -/
theorem mem_cmp_iff_zero :
    Verdict (objects (fun _ => 0) 1 8 0) (objects (fun _ => 0) 1 8 0x10) (typeName 1)
      (doMemCmp (fun _ => 0) 0 [ascii ['c', 'm', 'p', '.', 'b'], ascii ['0'], ascii ['1', '0'], ascii ['8']]) :=
  (mem_cmp_iff (fun _ => 0) 0 (ascii ['0']) (ascii ['1', '0']) (ascii ['8'])
    (show cmdGetDataSize (ascii ['c', 'm', 'p', '.', 'b']) 4 = (1 : Nat) by decide)).mpr (by decide +kernel)

/-- `cmp.b 0 10 8` of memory whose first byte is the only one: no object is the
same, and the command succeeds. -/
theorem mem_cmp_differ :
    objects (fun cell => if cell = 0 then 1 else 0) 1 8 0 ≠ objects (fun cell => if cell = 0 then 1 else 0) 1 8 0x10 ∧
      (doMemCmp (fun cell => if cell = 0 then 1 else 0) 0
        [ascii ['c', 'm', 'p', '.', 'b'], ascii ['0'], ascii ['1', '0'], ascii ['8']]).1 = 0 := by
  decide +kernel

end RockOs.MemoryCompare
