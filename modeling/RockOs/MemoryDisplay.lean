import RockOs.MemoryCompare

/-! `do_mem_md` of `cmd/mem.c` and `print_buffer` of `lib/display_options.c`: the command
that displays memory, and goes on with the next window when it is repeated. -/
namespace RockOs.MemoryDisplay
open ByteMemory CliSimple Console Ctype MemoryCompare Strto Vsprintf

/-! ## The code -/

/-- `"%08lx:"`. -/
def labelFormat : List UInt8 := ascii ['%', '0', '8', 'l', 'x', ':']

/-- `" %0*llx"`. -/
def objectFormat : List UInt8 := ascii [' ', '%', '0', '*', 'l', 'l', 'x']

/-- `"    %s\n"`. -/
def asciiFormat : List UInt8 := ascii [' ', ' ', ' ', ' ', '%', 's', '\n']

/-- The width of the member of `lb` and of the access. -/
def memberWidth (width : Nat) : Nat := if width = 4 then 4 else if width = 8 then 8 else if width = 2 then 2 else 1

/-- A store to element `i` of a member of `lb`. No result stands for one outside of the
array, which has one element more than the line. -/
def storeElement (lb : Mem) (width i x : Nat) : Option Mem :=
  if i < 64 / width + 1 then some (store lb (width * i) width x) else none

/-- The loop that copies a line and prints it: what it prints, `data` and `lb`. -/
def printObjects (mem : Mem) (width : Nat) : (left i data : Nat) → (lb : Mem) → Option (List Print × Nat × Mem)
  | 0, _, data, lb => some ([], data, lb)
  | left + 1, i, data, lb => do
    let x := load mem data (memberWidth width)
    let lb ← storeElement lb (memberWidth width) i x
    let (printed, data, lb) ← printObjects mem width left (i + 1) ((data + width) % 2 ^ 64) lb
    return (.printf objectFormat [.num (width * 2), .num x] :: printed, data, lb)

/-- The loop that fills the line, and `linelen` after it. -/
def fillLine (width thislinelen : Nat) : (linelen : Nat) → List Print × Nat
  | 0 => ([], 0)
  | linelen + 1 =>
    if thislinelen < linelen + 1 then
      let (printed, linelen) := fillLine width thislinelen linelen
      (List.replicate (width * 2 + 1) (.puts [' '.toUInt8]) ++ printed, linelen)
    else ([], linelen + 1)

/-- The loop over the bytes of `lb`. -/
def maskLine : (left i : Nat) → (lb : Mem) → Option Mem
  | 0, _, lb => some lb
  | left + 1, i, lb =>
    if ¬ isPrint (lb i) ∨ 0x80 ≤ lb i then do
      let lb ← storeElement lb 1 i '.'.toUInt8.toNat
      maskLine left (i + 1) lb
    else maskLine left (i + 1) lb

/-- The loop over the lines. No result stands for a store outside of `lb`, or for no end
within `turns` of them. -/
def printLines (mem : Mem) (width : Nat) : (turns addr data count linelen : Nat) → (lb : Mem) → Option (List Print)
  | 0, _, _, count, _, _ => if count = 0 then some [] else none
  | turns + 1, addr, data, count, linelen, lb =>
    if count = 0 then some []
    else do
      let thislinelen := if count < linelen then count else linelen
      let (objects, data, lb) ← printObjects mem width thislinelen 0 data lb
      let (blanks, linelen) := fillLine width thislinelen linelen
      let lb ← maskLine (thislinelen * width) 0 lb
      let lb ← storeElement lb 1 (thislinelen * width) 0
      let addr' := (addr + thislinelen * width % 2 ^ 32) % 2 ^ 64
      let lines ← printLines mem width turns addr' data (count - thislinelen) linelen lb
      return .printf labelFormat [.num addr] ::
        (objects ++ (blanks ++ .printf asciiFormat [.str (some (cString lb 0 72))] :: lines))

/-- What is printed. The contents of `lb` are those of the stack. -/
def printBuffer (mem lb : Mem) (addr data width count linelen : Nat) : Option (List Print) :=
  let linelen := if 64 < linelen * width % 2 ^ 32 then 64 / width else linelen
  let linelen := if linelen < 1 then 16 / width else linelen
  printLines mem width count addr data count linelen lb

/-- The static variables. -/
structure Display where
  lastAddr : Nat
  lastSize : Nat
  lastLength : Nat
  deriving DecidableEq, Repr

/-- From the comment `Print the lines` on. The length is cut to the 32 bits of the argument
`count`. -/
def displayWindow (mem lb : Mem) (addr size length : Nat) : Option (Int × List Print × Display) := do
  let bytes := size * length % 2 ^ 64
  let printed ← printBuffer mem lb addr addr size (length % 2 ^ 32) (16 / size)
  return (0, printed, ⟨(addr + bytes) % 2 ^ 64, size, length⟩)

/-- The result, what is printed and what is remembered. -/
def doMemMd (mem lb : Mem) (baseAddress flag : Nat) (argv : List (List UInt8)) (last : Display) :
    Option (Int × List Print × Display) :=
  match argv with
  | name :: arg1 :: args =>
    if flag &&& cmdFlagRepeat = 0 then
      let size := cmdGetDataSize name 4
      if size < 0 then some (1, [], last)
      else
        let length := match args with
          | [] => last.lastLength
          | arg2 :: _ => (simpleStrtoul arg2 16).1
        displayWindow mem lb (addressOf baseAddress arg1) size.toNat length
    else displayWindow mem lb last.lastAddr last.lastSize last.lastLength
  | _ => some (cmdRetUsage, [], last)

/-- The command and some repetitions of it: what each of them prints. The stack is another
one each time. -/
def repeated (mem : Mem) (stack : Nat → Mem) (baseAddress : Nat) (argv : List (List UInt8)) :
    (times flag : Nat) → (last : Display) → Option (List (List Print))
  | 0, _, _ => some []
  | times + 1, flag, last => do
    let (_, printed, last) ← doMemMd mem (stack times) baseAddress flag argv last
    let more ← repeated mem stack baseAddress argv times cmdFlagRepeat last
    return printed :: more

/-! ## What a reader sees -/

/-- The objects with their addresses: that of the first object of a line is its label. -/
def readObjects (size : Nat) : (here : Nat) → (printed : List Print) → List (Nat × Nat)
  | _, [] => []
  | here, print :: printed =>
    match print with
    | .printf fmt [.num label] =>
      if fmt = labelFormat then readObjects size label printed else readObjects size here printed
    | .printf fmt [.num _, .num x] =>
      if fmt = objectFormat then (here, x) :: readObjects size ((here + size) % 2 ^ 64) printed
      else readObjects size here printed
    | _ => readObjects size here printed

/-- The objects of a range with their addresses. -/
def stretch (mem : Mem) (size : Nat) : (count address : Nat) → List (Nat × Nat)
  | 0, _ => []
  | count + 1, address => (address, load mem address size) :: stretch mem size count ((address + size) % 2 ^ 64)

/-- The place of an object, from the one behind the first. -/
theorem next_place (address size n : Nat) :
    ((address + size) % 2 ^ 64 + n * size) % 2 ^ 64 = (address + (n + 1) * size) % 2 ^ 64 := by
  rw [Nat.mod_add_mod, Nat.add_assoc, Nat.succ_mul, Nat.add_comm size]

private theorem stretch_append (mem : Mem) (size m n : Nat) (word : address < 2 ^ 64) :
    stretch mem size (m + n) address =
      stretch mem size m address ++ stretch mem size n ((address + m * size) % 2 ^ 64) := by
  induction m generalizing address with
  | zero => rw [Nat.zero_add, Nat.zero_mul, Nat.add_zero, Nat.mod_eq_of_lt word, stretch, List.nil_append]
  | succ m ih =>
    rw [Nat.succ_add, stretch, ih (Nat.mod_lt _ (by decide)), next_place, stretch, List.cons_append]

/-- An object as it is printed. -/
def shown (size x : Nat) : Print := .printf objectFormat [.num (size * 2), .num x]

private theorem readObjects_shown (size x here : Nat) (rest : List Print) :
    readObjects size here (shown size x :: rest) = (here, x) :: readObjects size ((here + size) % 2 ^ 64) rest := by
  rw [shown, readObjects]
  exact if_pos rfl

private theorem readObjects_label (size label here : Nat) (rest : List Print) :
    readObjects size here (.printf labelFormat [.num label] :: rest) = readObjects size label rest := by
  rw [readObjects]
  exact if_pos rfl

private theorem readObjects_blanks (size here blanks : Nat) (rest : List Print) :
    readObjects size here (List.replicate blanks (.puts [' '.toUInt8]) ++ rest) = readObjects size here rest := by
  induction blanks with
  | zero => rfl
  | succ blanks ih => exact ih

private theorem readObjects_line (mem : Mem) (size count : Nat) (rest : List Print) (word : address < 2 ^ 64) :
    readObjects size address ((objects mem size count address).map (shown size) ++ rest) =
      stretch mem size count address ++ readObjects size ((address + count * size) % 2 ^ 64) rest := by
  induction count generalizing address with
  | zero => rw [Nat.zero_mul, Nat.add_zero, Nat.mod_eq_of_lt word]; rfl
  | succ count ih =>
    rw [objects, List.map_cons, List.cons_append, readObjects_shown, ih (Nat.mod_lt _ (by decide)), next_place]
    rfl

/-! ## A line -/

private theorem storeElement_some (inside : i < 64 / width + 1) (lb : Mem) (x : Nat) :
    ∃ lb', storeElement lb width i x = some lb' := ⟨_, if_pos inside⟩

private theorem memberWidth_eq (known : ObjectSize size) : memberWidth size = size := by
  rcases known with rfl | rfl | rfl | rfl <;> rfl

private theorem printObjects_eq (mem lb : Mem) (known : ObjectSize size) (inside : i + left ≤ 64 / size)
    (word : data < 2 ^ 64) :
    ∃ lb', printObjects mem size left i data lb =
      some ((objects mem size left data).map (shown size), (data + left * size) % 2 ^ 64, lb') := by
  induction left generalizing i data lb with
  | zero =>
    refine ⟨lb, ?_⟩
    rw [Nat.zero_mul, Nat.add_zero, Nat.mod_eq_of_lt word]
    rfl
  | succ left ih =>
    obtain ⟨lb₁, stored⟩ := storeElement_some (show i < 64 / size + 1 by omega) lb (load mem data size)
    obtain ⟨lb₂, later⟩ := ih lb₁ (show i + 1 + left ≤ 64 / size by omega) (Nat.mod_lt (data + size) (by decide))
    refine ⟨lb₂, ?_⟩
    rw [printObjects, memberWidth_eq known, stored]
    dsimp only [bind, Option.bind_some]
    rw [later, next_place]
    rfl

private theorem fillLine_eq (width : Nat) (short : n ≤ linelen) :
    fillLine width n linelen = (List.replicate ((linelen - n) * (width * 2 + 1)) (.puts [' '.toUInt8]), n) := by
  induction linelen with
  | zero =>
    obtain rfl : n = 0 := Nat.le_zero.mp short
    rw [fillLine, Nat.zero_mul]
    rfl
  | succ linelen ih =>
    by_cases full : n = linelen + 1
    · rw [fillLine, if_neg (by omega), full, Nat.sub_self, Nat.zero_mul]
      rfl
    · have rounds : linelen + 1 - n = linelen - n + 1 := by omega
      rw [fillLine, if_pos (by omega), ih (by omega), rounds, Nat.succ_mul, Nat.add_comm ((linelen - n) * _)]
      exact congrArg (·, n) (List.replicate_append_replicate ..)

private theorem maskLine_some (inside : i + left ≤ 65) (lb : Mem) : ∃ lb', maskLine left i lb = some lb' := by
  induction left generalizing i lb with
  | zero => exact ⟨lb, rfl⟩
  | succ left ih =>
    rw [maskLine]
    split
    · obtain ⟨lb₁, stored⟩ := storeElement_some (show i < 64 / 1 + 1 by omega) lb '.'.toUInt8.toNat
      rw [stored]
      exact ih (show i + 1 + left ≤ 65 by omega) lb₁
    · exact ih (show i + 1 + left ≤ 65 by omega) lb

/-- A line, and what follows it. -/
theorem printLines_line (mem lb : Mem) (turns : Nat) (known : ObjectSize size) (inside : linelen * size ≤ 64)
    (word : addr < 2 ^ 64) (more : count ≠ 0) (thislinelen : (if count < linelen then count else linelen) = n) :
    ∃ lb' string blanks, printLines mem size (turns + 1) addr addr count linelen lb =
      (printLines mem size turns ((addr + n * size) % 2 ^ 64) ((addr + n * size) % 2 ^ 64) (count - n) n lb').map
        fun lines => .printf labelFormat [.num addr] :: ((objects mem size n addr).map (shown size) ++
          (List.replicate blanks (.puts [' '.toUInt8]) ++ .printf asciiFormat [.str (some string)] :: lines)) := by
  have short : n ≤ linelen := by
    rw [← thislinelen]
    split <;> omega
  have positive : 0 < size := by
    rcases known with rfl | rfl | rfl | rfl <;> decide
  have bytes : n * size ≤ 64 := Nat.le_trans (Nat.mul_le_mul_right size short) inside
  have room : 0 + n ≤ 64 / size := by
    rw [Nat.zero_add, Nat.le_div_iff_mul_le positive]
    exact bytes
  obtain ⟨lb₁, copied⟩ := printObjects_eq mem lb known room word
  obtain ⟨lb₂, masked⟩ := maskLine_some (show 0 + n * size ≤ 65 by omega) lb₁
  obtain ⟨lb₃, ended⟩ := storeElement_some (show n * size < 64 / 1 + 1 by omega) lb₂ 0
  refine ⟨lb₃, cString lb₃ 0 72, (linelen - n) * (size * 2 + 1), ?_⟩
  rw [printLines, if_neg more, thislinelen]
  dsimp only [bind]
  rw [copied, Option.bind_some]
  dsimp only
  rw [fillLine_eq size short]
  dsimp only
  rw [masked]
  dsimp only [Option.bind_some]
  rw [ended, Nat.mod_eq_of_lt (show n * size < 2 ^ 32 by omega), Option.map_eq_bind]
  rfl

/-- By induction on the lines. The last one leaves a shorter `linelen`, and nothing to
print. -/
theorem printLines_spec (mem lb : Mem) (known : ObjectSize size) (positive : 0 < linelen) (inside : linelen * size ≤ 64)
    (enough : count ≤ turns) (word : addr < 2 ^ 64) :
    ∃ printed, printLines mem size turns addr addr count linelen lb = some printed ∧
      ∀ here, readObjects size here printed = stretch mem size count addr := by
  induction turns generalizing addr count linelen lb with
  | zero =>
    obtain rfl : count = 0 := Nat.le_zero.mp enough
    exact ⟨[], rfl, fun _ => rfl⟩
  | succ turns ih =>
    by_cases none : count = 0
    · subst none
      exact ⟨[], rfl, fun _ => rfl⟩
    obtain ⟨n, thislinelen⟩ : ∃ n, (if count < linelen then count else linelen) = n := ⟨_, rfl⟩
    have line : 0 < n ∧ n ≤ linelen ∧ n ≤ count := by
      rw [← thislinelen]
      split <;> omega
    obtain ⟨lb', string, blanks, printed⟩ := printLines_line mem lb turns known inside word none thislinelen
    -- the next line starts with `linelen` as this one has left it, which is right as long as there is one
    obtain ⟨lines, later, read⟩ := ih lb' line.1 (Nat.le_trans (Nat.mul_le_mul_right size line.2.1) inside)
      (show count - n ≤ turns by omega) (Nat.mod_lt (addr + n * size) (by decide))
    refine ⟨_, printed.trans (congrArg (Option.map _) later), fun here => ?_⟩
    have ascii : readObjects size ((addr + n * size) % 2 ^ 64) (.printf asciiFormat [.str (some string)] :: lines) =
        readObjects size ((addr + n * size) % 2 ^ 64) lines := rfl
    rw [readObjects_label, readObjects_line mem size n _ word, readObjects_blanks, ascii, read,
      ← stretch_append mem size n _ word, Nat.add_sub_cancel' line.2.2]

private theorem printBuffer_spec (mem lb : Mem) (known : ObjectSize size) (word : addr < 2 ^ 64) (count : Nat) :
    ∃ printed, printBuffer mem lb addr addr size count (16 / size) = some printed ∧
      ∀ here, readObjects size here printed = stretch mem size count addr := by
  have line : 0 < 16 / size ∧ 16 / size * size = 16 := by
    rcases known with rfl | rfl | rfl | rfl <;> decide
  have kept : (if 64 < 16 / size * size % 2 ^ 32 then 64 / size else 16 / size) = 16 / size := by
    rw [line.2]
    rfl
  unfold printBuffer
  rw [kept]
  dsimp only
  rw [if_neg (Nat.not_lt.mpr line.1)]
  exact printLines_spec mem lb known line.1 (by omega) (Nat.le_refl count) word

/-! ## The windows -/

/-- The window of the `k`-th display: `length` objects, after `k` windows of as many. -/
def window (mem : Mem) (size length first k : Nat) : List (Nat × Nat) :=
  (List.range length).map fun i =>
    let address := (first + (k * length + i) * size) % 2 ^ 64
    (address, load mem address size)

private theorem stretch_eq (mem : Mem) (size count address : Nat) (word : address < 2 ^ 64) :
    stretch mem size count address =
      (List.range count).map fun i => ((address + i * size) % 2 ^ 64,
        load mem ((address + i * size) % 2 ^ 64) size) := by
  induction count with
  | zero => rfl
  | succ count ih =>
    rw [stretch_append mem size count 1 word, ih, List.range_succ, List.map_append]
    rfl

private theorem window_eq (mem : Mem) (size length first k : Nat) :
    window mem size length first k = stretch mem size length ((first + k * (size * length)) % 2 ^ 64) := by
  rw [stretch_eq mem size length _ (Nat.mod_lt _ (by decide)), window]
  refine List.map_congr_left fun i _ => ?_
  have place : ((first + k * (size * length)) % 2 ^ 64 + i * size) % 2 ^ 64 =
      (first + (k * length + i) * size) % 2 ^ 64 := by
    rw [Nat.mod_add_mod, Nat.add_assoc]
    congr 2
    ring
  rw [place]

private theorem displayWindow_spec (mem lb : Mem) (known : ObjectSize size) (word : addr < 2 ^ 64) (length : Nat) :
    ∃ printed, displayWindow mem lb addr size length =
        some (0, printed, ⟨(addr + size * length) % 2 ^ 64, size, length⟩) ∧
      readObjects size 0 printed = stretch mem size (length % 2 ^ 32) addr := by
  obtain ⟨printed, result, read⟩ := printBuffer_spec mem lb known word (length % 2 ^ 32)
  refine ⟨printed, ?_, read 0⟩
  rw [displayWindow, result, Nat.add_mod_mod]
  rfl

/-- Each repetition goes on where the last one ended. -/
theorem repeated_spec (mem : Mem) (stack : Nat → Mem) (baseAddress : Nat) (name arg1 : List UInt8)
    (args : List (List UInt8)) (known : ObjectSize size) (word : addr < 2 ^ 64) (length times : Nat) :
    ∃ outputs, repeated mem stack baseAddress (name :: arg1 :: args) times cmdFlagRepeat ⟨addr, size, length⟩ =
        some outputs ∧
      outputs.map (readObjects size 0) =
        (List.range times).map fun k => stretch mem size (length % 2 ^ 32) ((addr + k * (size * length)) % 2 ^ 64) := by
  induction times generalizing addr with
  | zero => exact ⟨[], rfl, rfl⟩
  | succ times ih =>
    obtain ⟨printed, shown, read⟩ := displayWindow_spec mem (stack times) known word length
    obtain ⟨outputs, later, reads⟩ := ih (Nat.mod_lt (addr + size * length) (by decide))
    refine ⟨printed :: outputs, ?_, ?_⟩
    · have call : doMemMd mem (stack times) baseAddress cmdFlagRepeat (name :: arg1 :: args) ⟨addr, size, length⟩ =
          displayWindow mem (stack times) addr size length := rfl
      rw [repeated, call, shown]
      dsimp only [bind, Option.bind_some]
      rw [later]
      rfl
    · rw [List.map_cons, read, reads, List.range_succ_eq_map, List.map_cons, List.map_map, Nat.zero_mul, Nat.add_zero,
        Nat.mod_eq_of_lt word]
      refine congrArg _ (List.map_congr_left fun k _ => ?_)
      dsimp only [Function.comp_apply]
      rw [Nat.mod_add_mod, Nat.succ_mul, Nat.add_assoc, Nat.add_comm (size * length)]

/-- A new command is a repetition after a display that ended at its address. -/
theorem repeated_first (mem : Mem) (stack : Nat → Mem) (baseAddress : Nat) (arg1 arg2 : List UInt8)
    (args : List (List UInt8)) (repeats : Nat) (last : Display) (sized : cmdGetDataSize name 4 = (size : Nat)) :
    repeated mem stack baseAddress (name :: arg1 :: arg2 :: args) (repeats + 1) 0 last =
      repeated mem stack baseAddress (name :: arg1 :: arg2 :: args) (repeats + 1) cmdFlagRepeat
        ⟨addressOf baseAddress arg1, size, (simpleStrtoul arg2 16).1⟩ := by
  have positive : ¬ (size : Int) < 0 := by omega
  have call (lb : Mem) : doMemMd mem lb baseAddress 0 (name :: arg1 :: arg2 :: args) last =
      doMemMd mem lb baseAddress cmdFlagRepeat (name :: arg1 :: arg2 :: args)
        ⟨addressOf baseAddress arg1, size, (simpleStrtoul arg2 16).1⟩ := by
    unfold doMemMd
    dsimp only
    rw [sized, if_pos (show 0 &&& cmdFlagRepeat = 0 by decide), if_neg positive]
    rfl
  rw [repeated, repeated, call]

/-- The windows of the displays are those of the objects one after the other. -/
def Tiles (mem : Mem) (size length first : Nat) (outputs : List (List Print)) : Prop :=
  ∀ k printed, outputs[k]? = some printed → readObjects size 0 printed = window mem size length first k

private theorem stretch_length (mem : Mem) (size count address : Nat) :
    (stretch mem size count address).length = count := by
  induction count generalizing address with
  | zero => rfl
  | succ count ih => rw [stretch, List.length_cons, ih]

/-- The command and any number of repetitions display memory window by window, without a
store outside of the line buffer, if and only if the length is less than `2 ^ 32`. -/
theorem md_tiles_iff (mem : Mem) (stack : Nat → Mem) (baseAddress : Nat) (arg1 arg2 : List UInt8)
    (args : List (List UInt8)) (repeats : Nat) (last : Display) (sized : cmdGetDataSize name 4 = (size : Nat)) :
    ∃ outputs, repeated mem stack baseAddress (name :: arg1 :: arg2 :: args) (repeats + 1) 0 last = some outputs ∧
      outputs.length = repeats + 1 ∧
      (Tiles mem size (simpleStrtoul arg2 16).1 (addressOf baseAddress arg1) outputs ↔
        (simpleStrtoul arg2 16).1 < 2 ^ 32) := by
  have word : addressOf baseAddress arg1 < 2 ^ 64 := Nat.mod_lt _ (by decide)
  rw [repeated_first mem stack baseAddress arg1 arg2 args repeats last sized]
  generalize (simpleStrtoul arg2 16).1 = length
  generalize addressOf baseAddress arg1 = first at word ⊢
  obtain ⟨outputs, result, reads⟩ := repeated_spec mem stack baseAddress name arg1 (arg2 :: args)
    (objectSize_of_name sized) word length (repeats + 1)
  have count : outputs.length = repeats + 1 := by
    have lengths := congrArg List.length reads
    rwa [List.length_map, List.length_map, List.length_range] at lengths
  have read : ∀ k printed, outputs[k]? = some printed →
      readObjects size 0 printed = stretch mem size (length % 2 ^ 32) ((first + k * (size * length)) % 2 ^ 64) := by
    intro k printed found
    have inside : k < repeats + 1 := count ▸ (List.getElem?_eq_some_iff.mp found).1
    have same := congrArg (·[k]?) reads
    rw [List.getElem?_map, List.getElem?_map, found, List.getElem?_range inside] at same
    exact Option.some.inj same
  refine ⟨outputs, result, count, ?_, ?_⟩
  · intro tiles
    obtain ⟨printed, found⟩ : ∃ printed, outputs[0]? = some printed :=
      ⟨_, List.getElem?_eq_getElem (show 0 < outputs.length by omega)⟩
    have lengths := congrArg List.length ((read 0 printed found).symm.trans (tiles 0 printed found))
    rw [stretch_length, window_eq, stretch_length] at lengths
    exact lengths ▸ Nat.mod_lt _ (by decide)
  · intro small k printed found
    rw [read k printed found, window_eq, Nat.mod_eq_of_lt small]

/-- `md.w 10 9`, which is a line and a part of one, and two repetitions. -/
theorem md_tiles_words :
    ∃ outputs, repeated (fun cell => UInt8.ofNat cell) (fun _ _ => 0) 0
        [ascii ['m', 'd', '.', 'w'], ascii ['1', '0'], ascii ['9']] 3 0 ⟨0, 0, 0x40⟩ = some outputs ∧
      Tiles (fun cell => UInt8.ofNat cell) 2 9 0x10 outputs := by
  obtain ⟨outputs, result, -, tiles⟩ := md_tiles_iff (fun cell => UInt8.ofNat cell) (fun _ _ => 0) 0 (ascii ['1', '0'])
    (ascii ['9']) [] 2 ⟨0, 0, 0x40⟩ (show cmdGetDataSize (ascii ['m', 'd', '.', 'w']) 4 = (2 : Nat) by decide)
  exact ⟨outputs, result, tiles.mpr (by decide +kernel)⟩

/-- `md.b 0 100000000` prints nothing at all. -/
theorem md_long_window :
    repeated (fun _ => 0) (fun _ _ => 0) 0
        [ascii ['m', 'd', '.', 'b'], ascii ['0'], ascii ['1', '0', '0', '0', '0', '0', '0', '0', '0']] 1 0 ⟨0, 0, 0x40⟩ =
      some [[]] ∧
    (simpleStrtoul (ascii ['1', '0', '0', '0', '0', '0', '0', '0', '0']) 16).1 = 2 ^ 32 ∧
    ¬ Tiles (fun _ => 0) 1 (2 ^ 32) 0 [[]] := by
  refine ⟨by decide +kernel, by decide +kernel, fun tiles => ?_⟩
  have lengths := congrArg List.length (tiles 0 [] rfl)
  rw [window_eq, stretch_length] at lengths
  cases lengths

end RockOs.MemoryDisplay
