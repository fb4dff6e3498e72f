import RockOs.CliSimple

/-! Command lookup and the list of completions, from `common/command.c`. A string is
compared byte by byte up to its NUL; a comparison that would read behind it gives no
result. The callback that completes the arguments of a command is a parameter. -/
namespace RockOs.CommandTable
open CliSimple Ctype

/-! ## The code -/

/-- `strncmp`: the difference is kept in a `signed char`. -/
def strncmp : (cs ct : List UInt8) → (count : Nat) → Option Int
  | _, _, 0 => some 0
  | c :: cs, d :: ct, count + 1 =>
    let res := (c - d).toInt8.toInt
    if res ≠ 0 ∨ c = 0 then some res else strncmp cs ct count
  | _, _, _ + 1 => none

def memcmp : (cs ct : List UInt8) → (count : Nat) → Option Int
  | _, _, 0 => some 0
  | c :: cs, d :: ct, count + 1 =>
    let res : Int := c.toNat - d.toNat
    if res ≠ 0 then some res else memcmp cs ct count
  | _, _, _ + 1 => none

/-- A string in memory. -/
def cstring (text : List UInt8) : List UInt8 := text ++ [0]

def dot : UInt8 := '.'.toUInt8

/-- What stands in the list for further matches. -/
def ellipsis : List UInt8 := [dot, dot, dot]

/-- `len`: up to the first dot, if `strchr` finds one. -/
def nameLength (cmd : List UInt8) : Nat :=
  match cmd.findIdx? (· = dot) with
  | none => cmd.length
  | some p => p

section
variable {W C : Type}

/-- The loop of `find_cmd_tbl`. It reads nothing but the names of the entries. -/
def findTblLoop (name : C → List UInt8) (cmd : List UInt8) (len : Nat) : (table : List C) → (temp : Option C) →
    (nFound : Nat) → Option (Option C)
  | [], temp, nFound => some (if nFound = 1 then temp else none)
  | cmdtp :: table, temp, nFound =>
    (strncmp (cstring cmd) (cstring (name cmdtp)) len).bind fun res =>
      if res = 0 then
        if len = (name cmdtp).length then some (some cmdtp) else findTblLoop name cmd len table (some cmdtp) (nFound + 1)
      else findTblLoop name cmd len table temp nFound

/-- `find_cmd_tbl` in a table of entries with names; the pointer `cmd` may be null. -/
def findTbl (name : C → List UInt8) (cmd : Option (List UInt8)) (table : List C) : Option (Option C) :=
  match cmd with
  | none => some none
  | some cmd => findTblLoop name cmd (nameLength cmd) table table.head? 0

def findCmdTbl (cmd : Option (List UInt8)) (table : List (CmdTbl W)) : Option (Option (CmdTbl W)) :=
  findTbl CmdTbl.name cmd table

/-- A loop of `complete_subcmdv`: the strings it stores in front of the null pointer. -/
def listLoop (listed : List UInt8 → Option Bool) (maxv : Int) : (table : List (CmdTbl W)) → (nFound : Nat) →
    Option (List (List UInt8))
  | [], _ => some []
  | cmdtp :: table, nFound =>
    (listed cmdtp.name).bind fun here =>
      if here then
        if maxv - 2 ≤ nFound then some [ellipsis]
        else (listLoop listed maxv table (nFound + 1)).map (cmdtp.name :: ·)
      else listLoop listed maxv table nFound

/-- Whether a name is a partial match. -/
def partialMatch (cmd : List UInt8) (len : Nat) (name : List UInt8) : Option Bool :=
  if name.length < len then some false else (memcmp (cstring cmd) (cstring name) len).map (decide <| · = 0)

/-- What completes the arguments of a command: the strings it stores, whose number it returns. -/
def Completer : Type := (argv : List (List UInt8)) → (lastChar : UInt8) → (maxv : Int) → List (List UInt8)

/-- A list in `cmdv` and the number of its strings. -/
def counted (cmdv : List (List UInt8)) : Int × List (List UInt8) := (cmdv.length, cmdv)

/-- `complete_subcmdv`: its value and the strings in `cmdv`, which it leaves alone if there is no room for two. -/
def completeSubcmdv (complete : CmdTbl W → Option Completer) (table : List (CmdTbl W)) (argv : List (List UInt8))
    (lastChar : UInt8) (maxv : Int) : Option (Int × List (List UInt8)) :=
  if maxv < 2 then some (-2, [])
  else
    match argv with
    | [] => (listLoop (fun _ => some true) maxv table 0).map counted
    | cmd :: more =>
      if more ≠ [] ∨ lastChar = 0 ∨ isBlank lastChar then
        (findCmdTbl (some cmd) table).map fun cmdtp =>
          match cmdtp.bind complete with
          | none => counted []
          | some completer => counted (completer argv lastChar maxv)
      else (listLoop (partialMatch cmd (nameLength cmd)) maxv table 0).map counted

end

/-! ## Comparisons -/

theorem difference_zero (c d : UInt8) : (c - d).toInt8.toInt = 0 ↔ c = d := by
  constructor
  · intro zero
    have byte : (c - d).toInt8 = 0 := Int8.toInt_inj.mp zero
    have same : c - d = 0 := congrArg Int8.toUInt8 byte
    rw [UInt8.sub_eq_iff_eq_add] at same
    simpa using same
  · rintro rfl
    rw [UInt8.sub_self]
    rfl

/-- A word without NUL is compared with a name until they differ. -/
theorem strncmp_eq (clean : 0 ∉ w) (rest name : List UInt8) :
    ∃ res, strncmp (w ++ rest) (cstring name) w.length = some res ∧ (res = 0 ↔ w <+: name) := by
  induction w generalizing name with
  | nil => exact ⟨0, by rw [List.length_nil, strncmp], by simp⟩
  | cons c w ih =>
    have char : c ≠ 0 := fun zero => clean (zero ▸ List.mem_cons_self)
    cases name with
    | nil =>
      have differ : (c - 0).toInt8.toInt ≠ 0 := (difference_zero c 0).not.mpr char
      refine ⟨_, ?_, iff_of_false differ (by simp)⟩
      rw [List.cons_append, List.length_cons, cstring, List.nil_append, strncmp, if_pos (.inl differ)]
    | cons d name =>
      obtain ⟨res, compared, zero⟩ := ih (fun zero => clean (List.mem_cons_of_mem c zero)) name
      by_cases same : c = d
      · subst same
        refine ⟨res, ?_, by rw [zero, List.prefix_cons_inj]⟩
        rw [List.cons_append, List.length_cons, cstring, List.cons_append, strncmp,
          if_neg (by simp [char])]
        exact compared
      · have differ : (c - d).toInt8.toInt ≠ 0 := (difference_zero c d).not.mpr same
        refine ⟨_, ?_, iff_of_false differ (by simp [same])⟩
        rw [List.cons_append, List.length_cons, cstring, List.cons_append, strncmp, if_pos (.inl differ)]

/-- A name at least as long as the word is compared inside both. -/
theorem memcmp_eq (rest tail : List UInt8) (long : w.length ≤ name.length) :
    ∃ res, memcmp (w ++ rest) (name ++ tail) w.length = some res ∧ (res = 0 ↔ w <+: name) := by
  induction w generalizing name with
  | nil => exact ⟨0, by rw [List.length_nil, memcmp], by simp⟩
  | cons c w ih =>
    cases name with
    | nil => cases long
    | cons d name =>
      obtain ⟨res, compared, zero⟩ := ih (Nat.le_of_succ_le_succ long)
      by_cases same : c = d
      · subst same
        refine ⟨res, ?_, by rw [zero, List.prefix_cons_inj]⟩
        rw [List.cons_append, List.length_cons, List.cons_append, memcmp, if_neg (by simp)]
        exact compared
      · have differ : (c.toNat : Int) - d.toNat ≠ 0 := by
          have bytes : c.toNat ≠ d.toNat := fun equal => same (UInt8.toNat_inj.mp equal)
          omega
        refine ⟨_, ?_, iff_of_false differ (by simp [same])⟩
        rw [List.cons_append, List.length_cons, List.cons_append, memcmp, if_pos differ]

/-! ## The word up to its first dot -/

/-- The part of a word that names the command. -/
def stem (word : List UInt8) : List UInt8 := word.takeWhile (· ≠ dot)

private theorem stem_eq (word : List UInt8) : stem word = word.take (nameLength word) := by
  have index : nameLength word = word.findIdx (· = dot) := by
    unfold nameLength
    split
    · next none => exact (List.findIdx?_eq_none_iff_findIdx_eq.mp none).symm
    · next p found => exact (List.findIdx?_eq_some_iff_findIdx_eq.mp found).2.symm
  rw [index, stem, List.takeWhile_eq_take_findIdx_not]
  congr 2
  funext c
  simp

private theorem nameLength_eq (word : List UInt8) : nameLength word = (stem word).length := by
  have bound : nameLength word ≤ word.length := by
    unfold nameLength
    split
    · exact Nat.le_refl _
    · next p found => exact Nat.le_of_lt (List.findIdx?_eq_some_iff_findIdx_eq.mp found).1
  rw [stem_eq, List.length_take, Nat.min_eq_left bound]

/-- A word in memory starts with its stem. -/
theorem cstring_eq (word : List UInt8) : cstring word = stem word ++ (word.drop (nameLength word) ++ [0]) := by
  rw [stem_eq, ← List.append_assoc, List.take_append_drop, cstring]

private theorem stem_clean (clean : 0 ∉ word) : 0 ∉ stem word := fun zero => clean (List.takeWhile_subset _ zero)

private theorem compare_name (clean : 0 ∉ word) (name : List UInt8) :
    ∃ res, strncmp (cstring word) (cstring name) (nameLength word) = some res ∧ (res = 0 ↔ stem word <+: name) := by
  rw [cstring_eq word, nameLength_eq]
  exact strncmp_eq (stem_clean clean) _ name

private theorem partialMatch_eq (word name : List UInt8) :
    partialMatch word (nameLength word) name = some ((stem word).isPrefixOf name) := by
  rw [partialMatch, cstring_eq word, nameLength_eq]
  split
  · next short =>
    have differ : ¬ stem word <+: name := fun start => Nat.not_le_of_lt short start.length_le
    rw [← List.isPrefixOf_iff_prefix] at differ
    rw [eq_false_of_ne_true differ]
  · next long =>
    obtain ⟨res, compared, zero⟩ := memcmp_eq (word.drop (stem word).length ++ [0]) [0] (Nat.le_of_not_lt long)
    rw [cstring, compared, Option.map_some]
    congr 1
    rw [Bool.eq_iff_iff, decide_eq_true_iff, zero, List.isPrefixOf_iff_prefix]

section
variable {W : Type}

/-! ## Lookup -/

/-- The entries whose names have the prefix. -/
def abbreviated (w : List UInt8) (table : List (CmdTbl W)) : List (CmdTbl W) := table.filter (w.isPrefixOf ·.name)

private theorem findTblLoop_eq (clean : 0 ∉ word) (table : List (CmdTbl W)) (temp : Option (CmdTbl W)) (nFound : Nat) :
    findTblLoop CmdTbl.name word (nameLength word) table temp nFound =
      some (findLoop (stem word) table temp nFound) := by
  induction table generalizing temp nFound with
  | nil => rfl
  | cons cmdtp table ih =>
    obtain ⟨res, compared, zero⟩ := compare_name clean cmdtp.name
    rw [← List.isPrefixOf_iff_prefix] at zero
    rw [findTblLoop, findLoop, compared, Option.bind_some, ← nameLength_eq]
    by_cases start : (stem word).isPrefixOf cmdtp.name
    · rw [if_pos start, if_pos (zero.mpr start)]
      split
      · rfl
      · exact ih _ _
    · rw [if_neg start, if_neg (zero.not.mpr start)]
      exact ih _ _

/-- What the scan ends with: an entry of that name, or the one abbreviated entry it has counted. -/
theorem findLoop_eq (w : List UInt8) (table : List (CmdTbl W)) (temp : Option (CmdTbl W)) (nFound : Nat) :
    findLoop w table temp nFound = (table.find? (·.name = w)).or
      (if nFound + (abbreviated w table).length = 1 then (abbreviated w table).getLast?.or temp else none) := by
  induction table generalizing temp nFound with
  | nil => rfl
  | cons cmdtp table ih =>
    rw [findLoop]
    by_cases start : w.isPrefixOf cmdtp.name
    · have entry : abbreviated w (cmdtp :: table) = cmdtp :: abbreviated w table := List.filter_cons_of_pos start
      rw [if_pos start, entry]
      by_cases length : w.length = cmdtp.name.length
      · have full : cmdtp.name = w := ((List.isPrefixOf_iff_prefix.mp start).eq_of_length length).symm
        rw [if_pos length, List.find?_cons_of_pos (by simpa using full)]
        rfl
      · have other : ¬ cmdtp.name = w := fun same => length (congrArg List.length same).symm
        rw [if_neg length, List.find?_cons_of_neg (by simpa using other), ih, List.length_cons, List.getLast?_cons]
        congr 2
        · rw [Nat.add_assoc, Nat.add_comm 1]
        · cases (abbreviated w table).getLast? with
          | none => rfl
          | some last => rfl
    · have other : ¬ cmdtp.name = w := by
        rintro rfl
        exact start (List.isPrefixOf_iff_prefix.mpr List.prefix_rfl)
      have entry : abbreviated w (cmdtp :: table) = abbreviated w table := List.filter_cons_of_neg start
      rw [if_neg start, List.find?_cons_of_neg (by simpa using other), ih, entry]

/-- The only entry of a list. -/
def only : (entries : List α) → Option α
  | [entry] => some entry
  | _ => none

private theorem only_eq_none {entries : List α} (ambiguous : entries.length ≠ 1) : only entries = none := by
  match entries with
  | [] => rfl
  | [_] => exact absurd rfl ambiguous
  | _ :: _ :: _ => rfl

/-- The pointer the scan starts with is never returned. -/
theorem findLoop_start (w : List UInt8) (table : List (CmdTbl W)) (temp : Option (CmdTbl W)) :
    findLoop w table temp 0 = (table.find? (·.name = w)).or (only (abbreviated w table)) := by
  rw [findLoop_eq, Nat.zero_add]
  congr 1
  match abbreviated w table with
  | [] => rfl
  | [_] => rfl
  | _ :: _ :: _ => exact if_neg (by simp)

/-- `find_cmd_tbl` reads no byte behind the strings, and finds what the model over lists finds. -/
theorem findCmdTbl_eq (clean : 0 ∉ word) (table : List (CmdTbl W)) :
    findCmdTbl (some word) table = some (findCmd table word) := by
  rw [findCmdTbl, findTbl, findTblLoop_eq clean, findCmd, findLoop_start, findLoop_start]
  rfl

/-! ## Completions -/

/-- A list with room for so many names. -/
def cut (room : Nat) (names : List (List UInt8)) : List (List UInt8) :=
  if names.length ≤ room then names else names.take room ++ [ellipsis]

theorem cut_succ (room : Nat) (name : List UInt8) (names : List (List UInt8)) :
    cut (room + 1) (name :: names) = name :: cut room names := by
  unfold cut
  rw [List.length_cons]
  split
  · next fits => rw [if_pos (Nat.le_of_succ_le_succ fits)]
  · next more =>
    rw [if_neg fun fits => more (Nat.succ_le_succ fits)]
    rfl

theorem listLoop_eq {listed : List UInt8 → Option Bool} (each : ∀ name, listed name = some (p name))
    (table : List (CmdTbl W)) (nFound room : Nat) :
    listLoop listed (nFound + room + 2) table nFound = some (cut room ((table.map (·.name)).filter p)) := by
  induction table generalizing nFound room with
  | nil => simp [listLoop, cut]
  | cons cmdtp table ih =>
    rw [listLoop, each, Option.bind_some, List.map_cons]
    by_cases here : p cmdtp.name
    · rw [if_pos here, List.filter_cons_of_pos here]
      cases room with
      | zero =>
        rw [if_pos (by omega)]
        simp [cut]
      | succ room =>
        have onward := ih (nFound + 1) room
        have same : ((nFound : Int) + (room + 1 : Nat) + 2) = ((nFound + 1 : Nat) : Int) + room + 2 := by omega
        rw [if_neg (by omega), same, onward, Option.map_some, cut_succ]
    · rw [if_neg here, List.filter_cons_of_neg here]
      exact ih nFound room

/-- The names that have the stem of the word as a prefix. -/
def offered (table : List (CmdTbl W)) (word : List UInt8) : List (List UInt8) :=
  (table.map (·.name)).filter (stem word).isPrefixOf

/-- The list is asked for with a word whose end has not been typed, or with no word at all. -/
def Asked (word : List UInt8) (argv : List (List UInt8)) (lastChar : UInt8) : Prop :=
  argv = [word] ∧ lastChar ≠ 0 ∧ isBlank lastChar = false ∨ argv = [] ∧ word = []

/-- `complete_subcmdv` reads no byte behind the strings, and lists the matching names as far as there is room. -/
theorem completeSubcmdv_eq (complete : CmdTbl W → Option Completer) (table : List (CmdTbl W))
    (asked : Asked word argv lastChar) (room : Nat) :
    completeSubcmdv complete table argv lastChar (room + 2) = some (counted (cut room (offered table word))) := by
  have enough : ¬ (room : Int) + 2 < 2 := by omega
  rcases asked with ⟨rfl, typed, char⟩ | ⟨rfl, rfl⟩
  · have listed := listLoop_eq (partialMatch_eq word) table 0 room
    rw [Int.ofNat_zero, Int.zero_add] at listed
    rw [completeSubcmdv, if_neg enough]
    simp only [ne_eq, not_true_eq_false, typed, char, Bool.false_eq_true, or_self, if_false]
    rw [listed]
    rfl
  · have each : ∀ name : List UInt8, (fun _ => some true) name = some ((stem []).isPrefixOf name) := fun _ => rfl
    have listed := listLoop_eq each table 0 room
    rw [Int.ofNat_zero, Int.zero_add] at listed
    rw [completeSubcmdv, if_neg enough]
    exact congrArg _ listed

/-- The first entry of that name, otherwise the only one the name abbreviates; and a list that is not cut off has
the names that start like the word. -/
theorem command_lookup (table : List (CmdTbl W)) (word : List UInt8) (clean : 0 ∉ word) :
    (∀ cmdtp, table.find? (·.name = stem word) = some cmdtp → findCmdTbl (some word) table = some (some cmdtp)) ∧
    ((∀ cmdtp ∈ table, cmdtp.name ≠ stem word) →
      (∀ cmdtp, abbreviated (stem word) table = [cmdtp] → findCmdTbl (some word) table = some (some cmdtp)) ∧
      ((abbreviated (stem word) table).length ≠ 1 → findCmdTbl (some word) table = some none)) ∧
    ∀ complete argv lastChar (maxv : Int), Asked word argv lastChar →
      (abbreviated (stem word) table).length ≤ maxv - 2 →
        ∃ cmdv, completeSubcmdv complete table argv lastChar maxv = some (counted cmdv) ∧
          ∀ name, name ∈ cmdv ↔ (∃ cmdtp ∈ table, cmdtp.name = name) ∧ stem word <+: name := by
  have lookup : findCmdTbl (some word) table =
      some ((table.find? (·.name = stem word)).or (only (abbreviated (stem word) table))) := by
    rw [findCmdTbl_eq clean, findCmd]
    exact congrArg some (findLoop_start _ _ _)
  refine ⟨?_, ?_, ?_⟩
  · intro cmdtp full
    rw [lookup, full]
    rfl
  · intro none
    have notFull : table.find? (·.name = stem word) = .none := by simpa using none
    rw [lookup, notFull, Option.none_or]
    constructor
    · intro cmdtp one
      rw [one]
      rfl
    · intro ambiguous
      rw [only_eq_none ambiguous]
  · intro complete argv lastChar maxv asked fits
    obtain ⟨room, rfl⟩ : ∃ room : Nat, maxv = room + 2 := ⟨(maxv - 2).toNat, by omega⟩
    have count : (offered table word).length = (abbreviated (stem word) table).length := by
      unfold offered abbreviated
      rw [List.filter_map, List.length_map]
      rfl
    have whole : cut room (offered table word) = offered table word := if_pos (by omega)
    refine ⟨offered table word, ?_, ?_⟩
    · rw [completeSubcmdv_eq complete table asked, whole]
    · intro name
      unfold offered
      rw [List.mem_filter, List.mem_map, List.isPrefixOf_iff_prefix]

end

/-- Three commands, two of which the second name abbreviates. -/
def threeCommands : List (CmdTbl Unit) :=
  [[0x6d, 0x64, 0x77], [0x6d, 0x64], [0x6d, 0x77]].map fun name => ⟨name, 2, cmdNeverRepeatable fun _ _ w => (0, w)⟩

/-- The word `md.b` names the second command, though the first one starts like it. -/
theorem command_lookup_size :
    findCmdTbl (some [0x6d, 0x64, dot, 0x62]) threeCommands = some (threeCommands[1]?) :=
  (command_lookup threeCommands [0x6d, 0x64, dot, 0x62] (by decide)).1 _ rfl

end RockOs.CommandTable
