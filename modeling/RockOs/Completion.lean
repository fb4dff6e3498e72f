import RockOs.CommandBuffers
import RockOs.CommandTable

/-! `cmd_auto_complete` of `common/command.c`. `buf` is the string in the buffer and `*np`
its length. The bytes behind the NUL of a name are unknown: `beyond name k` is the string
found `k` bytes from the start of the name, and the result says whether it was read. -/
namespace RockOs.Completion
open ArgumentWords CliSimple CommandBuffers CommandTable Config Ctype TextBuffers

/-! ## The code -/

/-- `CONFIG_SYS_PROMPT`. -/
def sysPrompt : List UInt8 := ascii ['[', 'r', 'o', 'c', 'k', ']', '#', ' ']

/-- The inner loop of `find_common_prefix`: how far `t` and `s` agree. -/
def agreement : (t s : List UInt8) → (len : Nat) → Option Nat
  | _, _, 0 => some 0
  | d :: t, c :: s, len + 1 => if d ≠ c then some 0 else (agreement t s len).map (· + 1)
  | _, _, _ + 1 => none

def findCommonPrefix : (argv : List (List UInt8)) → Option Nat
  | [] => some 0
  | anchor :: argv => argv.foldlM (fun len t => agreement (cstring t) (cstring anchor) len) anchor.length

/-- The loop of `print_argv`, with a column. -/
def printLoop (leader sep : List UInt8) (linemax : Int) : (argv : List (List UInt8)) → (i : Int) → List UInt8
  | [], _ => ascii ['\n']
  | name :: argv, i =>
    let len := name.length + sep.length
    if linemax ≤ i + len then
      ascii ['\n', '\r'] ++ leader ++ name ++ printLoop leader sep linemax argv (leader.length - sep.length + len)
    else sep ++ name ++ printLoop leader sep linemax argv (i + len)

/-- `print_argv` without a banner. -/
def printArgv (leader sep : List UInt8) (linemax : Int) (argv : List (List UInt8)) : List UInt8 :=
  printLoop leader sep linemax argv linemax

/-- What goes behind the buffer: the `len` bytes at `s`, then `sep`, and whether `s` is behind a NUL. -/
structure Suffix where
  text : List UInt8
  sep : Option (List UInt8)
  outside : Bool

/-- What `cmd_auto_complete` leaves: its value, the buffer, `*np`, `*colp`, the console, and whether a byte
behind the NUL of a name was read. -/
structure Completed where
  handled : Bool
  buf : List UInt8
  n : Nat
  col : Int
  output : List UInt8
  outside : Bool

def bell : UInt8 := 7

section
variable {W : Type} (beyond : (name : List UInt8) → (k : Nat) → List UInt8)

/-- The choice of `s`, `len` and `sep`, from the number of completions; there may be none. -/
def chooseSuffix (k : Nat) (i : Int) (cmdv : List (List UInt8)) : Option (Option Suffix) :=
  if i = 1 then
    cmdv.head?.map fun name =>
      some ⟨if k ≤ name.length then name.drop k else beyond name k, some [' '.toUInt8], name.length < k⟩
  else if 1 < i then
    (findCommonPrefix cmdv).bind fun j =>
      if j ≠ 0 ∧ k < j then cmdv.head?.map fun name => some ⟨(name.drop k).take (j - k), none, name.length < j⟩
      else some none
  else some none

/-- The suffix goes into the buffer if it fits. -/
def appendSuffix (buf : List UInt8) (n : Nat) (col : Int) (suffix : Suffix) : Completed :=
  let added := suffix.text ++ suffix.sep.getD []
  if sysCbsize - 2 ≤ n + added.length then ⟨true, buf, n, col, [bell], suffix.outside⟩
  else
    ⟨true, buf ++ added, n + added.length, col + added.length, added ++ if suffix.sep = none then [bell] else [],
      suffix.outside⟩

/-- What is done with the completions; `k` characters of them have been typed. -/
def offer (prompt buf : List UInt8) (n : Nat) (col : Int) (argc k : Nat) (i : Int) (cmdv : List (List UInt8)) :
    Option Completed :=
  if i = 0 then
    -- a tab behind several words is left to the editor
    some (if 1 < argc then ⟨false, buf, n, col, [], false⟩ else ⟨true, buf, n, col, [bell], false⟩)
  else
    (chooseSuffix beyond k i cmdv).map fun suffix =>
      match suffix with
      | some suffix => appendSuffix buf n col suffix
      | none => ⟨true, buf, n, col, printArgv (ascii [' ', ' ']) (ascii [' ']) 78 cmdv ++ prompt ++ buf, false⟩

variable (complete : CmdTbl W → Option Completer) (table : List (CmdTbl W))

/-- What follows the split into arguments. -/
def completeArgs (prompt buf : List UInt8) (n : Nat) (col : Int) (argv : List (List UInt8)) : Option Completed :=
  let lastChar := buf.getLast?.getD 0
  let k := if lastChar ≠ 0 ∧ isBlank lastChar = false then (argv.getLast?.getD []).length else 0
  (completeSubcmdv complete table argv lastChar 20).bind fun (i, cmdv) =>
    offer beyond prompt buf n col argv.length k i cmdv

/-- `cmd_auto_complete`; `tmp_buf` and `argv` hold what was there before. -/
def cmdAutoComplete (tmpBuf : List UInt8) (argv : Argv) (prompt buf : List UInt8) (n : Nat) (col : Int) :
    Option Completed :=
  if prompt ≠ sysPrompt then some ⟨false, buf, n, col, [], false⟩
  else do
    let tmpBuf ← strcpy tmpBuf buf
    let split ← makeArgv tmpBuf (sysMaxargs + 1) argv
    let argv ← (split.argv.take split.argc).mapM (stringAt split.line)
    completeArgs beyond complete table prompt buf n col argv

end

/-! ## The common prefix -/

/-- A name agrees with the start of the anchor as far as their common prefix. -/
theorem agreement_eq (clean : 0 ∉ start) (rest name : List UInt8) :
    agreement (cstring name) (start ++ rest) start.length = some (commonPrefix start name).length := by
  induction start generalizing name with
  | nil => simp [agreement, commonPrefix]
  | cons c start ih =>
    have char : c ≠ 0 := fun zero => clean (zero ▸ List.mem_cons_self)
    cases name with
    | nil => simp [cstring, agreement, commonPrefix, char.symm]
    | cons d name =>
      have onward := ih (fun zero => clean (List.mem_cons_of_mem c zero)) name
      rw [cstring, List.cons_append, List.cons_append, List.length_cons, agreement, commonPrefix]
      by_cases same : c = d
      · rw [if_neg (not_not.mpr same.symm), if_pos same, List.length_cons]
        exact congrArg (Option.map (· + 1)) onward
      · rw [if_pos (Ne.symm same), if_neg same]
        rfl

private theorem findCommonPrefix_eq (clean : ∀ name ∈ names, 0 ∉ name) :
    findCommonPrefix names = some (commonPrefixes names).length := by
  cases names with
  | nil => rfl
  | cons anchor names =>
    have anchorClean : 0 ∉ anchor := clean anchor List.mem_cons_self
    -- What is left of the anchor stays a prefix of it.
    have loop (start : List UInt8) (left : start <+: anchor) :
        names.foldlM (fun len t => agreement (cstring t) (cstring anchor) len) start.length =
          some (names.foldl commonPrefix start).length := by
      clear clean
      induction names generalizing start with
      | nil => rfl
      | cons name names ih =>
        obtain ⟨rest, rfl⟩ := left
        have startClean : 0 ∉ start := fun zero => anchorClean (List.mem_append_left rest zero)
        have whole : cstring (start ++ rest) = start ++ (rest ++ [0]) := List.append_assoc start rest [0]
        have agreed : agreement (cstring name) (cstring (start ++ rest)) start.length =
            some (commonPrefix start name).length := by
          rw [whole]
          exact agreement_eq startClean (rest ++ [0]) name
        have shorter : commonPrefix start name <+: start := ((start_commonPrefix _ _ _).mp List.prefix_rfl).1
        rw [List.foldlM_cons, agreed]
        exact ih _ (shorter.trans (List.prefix_append start rest))
    exact loop anchor List.prefix_rfl

section
variable {W : Type} {beyond : (name : List UInt8) → (k : Nat) → List UInt8} {complete : CmdTbl W → Option Completer}
  {table : List (CmdTbl W)}

/-! ## A word -/

/-- The arguments are the words of the buffer. -/
theorem cmdAutoComplete_eq (clean : 0 ∉ buf) (tmpSize : tmpBuf.length = sysCbsize + 1) (fits : buf.length ≤ sysCbsize)
    {argv : Argv} (argvSize : argv.length = sysMaxargs + 1) (n : Nat) (col : Int) :
    cmdAutoComplete beyond complete table tmpBuf argv sysPrompt buf n col =
      completeArgs beyond complete table sysPrompt buf n col (cliSimpleParseLine buf) := by
  have copied := strcpy_eq (show buf.length < tmpBuf.length by omega)
  obtain ⟨split, made, arguments⟩ := makeArgv_arguments (tmpBuf.drop (buf.length + 1)) clean argvSize
  have inside := (List.getElem?_eq_some_iff.mp arguments.null).1
  have strings := argv_strings arguments.toCut (Nat.le_of_lt inside)
  rw [cmdAutoComplete, if_neg (not_not.mpr rfl), copied, Option.bind_eq_bind, Option.bind_some, made,
    Option.bind_eq_bind, Option.bind_some, strings]
  rfl

/-- A buffer with one word, whose end has not been typed. -/
structure OneWord (front word : List UInt8) : Prop where
  blanks : ∀ c ∈ front, isBlank c = true
  chars : ∀ c ∈ word, isBlank c = false
  nonempty : word ≠ []
  clean : 0 ∉ word

private theorem OneWord.clean_buf (one : OneWord front word) : 0 ∉ front ++ word := by
  intro zero
  rcases List.mem_append.mp zero with inFront | inWord
  · exact absurd (one.blanks 0 inFront) (by decide)
  · exact one.clean inWord

theorem OneWord.arguments (one : OneWord front word) : cliSimpleParseLine (front ++ word) = [word] := by
  rw [cliSimpleParseLine, parseArgs_eq, words_blanks one.blanks, words_single one.chars one.nonempty]
  rfl

/-- The last character asks for names. -/
theorem OneWord.typed (one : OneWord front word) :
    (front ++ word).getLast?.getD 0 ≠ 0 ∧ isBlank ((front ++ word).getLast?.getD 0) = false := by
  have last : (front ++ word).getLast?.getD 0 = word.getLast one.nonempty := by
    rw [List.getLast?_append_of_ne_nil _ one.nonempty, List.getLast?_eq_getLast_of_ne_nil one.nonempty]
    rfl
  have member := List.getLast_mem one.nonempty
  rw [last]
  exact ⟨fun zero => one.clean (zero ▸ member), one.chars _ member⟩

/-- The completions of one word are the names that start like it, as far as eighteen of them. -/
theorem completeArgs_word (one : OneWord front word) (prompt : List UInt8) (n : Nat) (col : Int) :
    completeArgs beyond complete table prompt (front ++ word) n col [word] =
      offer beyond prompt (front ++ word) n col 1 word.length (cut 18 (offered table word)).length
        (cut 18 (offered table word)) := by
  have asked : Asked word [word] ((front ++ word).getLast?.getD 0) := .inl ⟨rfl, one.typed⟩
  have listed : completeSubcmdv complete table [word] ((front ++ word).getLast?.getD 0) 20 = _ :=
    completeSubcmdv_eq complete table asked 18
  rw [completeArgs, listed, if_pos one.typed]
  rfl

private theorem cmdAutoComplete_word (one : OneWord front word) (fits : (front ++ word).length ≤ sysCbsize)
    (tmpSize : tmpBuf.length = sysCbsize + 1) {argv : Argv} (argvSize : argv.length = sysMaxargs + 1) (n : Nat)
    (col : Int) :
    cmdAutoComplete beyond complete table tmpBuf argv sysPrompt (front ++ word) n col =
      offer beyond sysPrompt (front ++ word) n col 1 word.length (cut 18 (offered table word)).length
        (cut 18 (offered table word)) := by
  rw [cmdAutoComplete_eq one.clean_buf tmpSize fits argvSize, one.arguments, completeArgs_word one]

/-! ## What a tab promises -/

/-- The new word is the only matching name and a blank, or the longest common prefix of all matching names. -/
def Completes (table : List (CmdTbl W)) (word new : List UInt8) : Prop :=
  (∃ name, offered table word = [name] ∧ new = name ++ [' '.toUInt8]) ∨ Longest new (offered table word)

/-- No name is read behind its end, and a buffer that is changed has grown by a completion that fits. -/
structure Extends (table : List (CmdTbl W)) (front word : List UInt8) (done : Completed) : Prop where
  inside : done.outside = false
  grown : done.buf ≠ front ++ word → ∃ suffix, done.buf = front ++ word ++ suffix ∧
    Completes table word (word ++ suffix) ∧ done.buf.length < sysCbsize - 2

/-- When it keeps that promise: the only matching name is no shorter than the word, and starts with it or does not
fit; or the common prefix of the listed names is no longer than the word, does not fit, or starts with the word and is
the common prefix of all matching names, listed or not. -/
def Completable (table : List (CmdTbl W)) (front word : List UInt8) : Prop :=
  match offered table word with
  | [] => True
  | [name] => word.length ≤ name.length ∧ (sysCbsize - 2 ≤ front.length + name.length + 1 ∨ word <+: name)
  | names =>
    (commonPrefixes (cut 18 names)).length ≤ word.length ∨
      sysCbsize - 2 ≤ front.length + (commonPrefixes (cut 18 names)).length ∨
        word <+: commonPrefixes (cut 18 names) ∧ commonPrefixes (cut 18 names) = commonPrefixes names

private theorem appendSuffix_extends (suffix : Suffix) (nonempty : suffix.text ++ suffix.sep.getD [] ≠ []) (col : Int) :
    Extends table front word (appendSuffix (front ++ word) (front ++ word).length col suffix) ↔
      suffix.outside = false ∧
        (sysCbsize - 2 ≤ (front ++ word).length + (suffix.text ++ suffix.sep.getD []).length ∨
          Completes table word (word ++ (suffix.text ++ suffix.sep.getD []))) := by
  rw [appendSuffix]
  generalize added_eq : suffix.text ++ suffix.sep.getD [] = added at nonempty
  by_cases long : sysCbsize - 2 ≤ (front ++ word).length + added.length
  · rw [if_pos long]
    exact ⟨fun done => ⟨done.inside, .inl long⟩, fun done => ⟨done.1, fun changed => absurd rfl changed⟩⟩
  · rw [if_neg long]
    have changed : front ++ word ++ added ≠ front ++ word := by
      intro same
      exact nonempty (List.append_cancel_left (same.trans (List.append_nil _).symm))
    constructor
    · rintro ⟨inside, grown⟩
      obtain ⟨added', same, completes, -⟩ := grown changed
      cases List.append_cancel_left same
      exact ⟨inside, .inr completes⟩
    · rintro ⟨inside, tooLong | completes⟩
      · exact absurd tooLong long
      · refine ⟨inside, fun _ => ⟨added, rfl, completes, ?_⟩⟩
        rw [List.length_append]
        exact Nat.lt_of_not_le long

/-- One name is put in place of the word exactly if it starts with it. -/
theorem completes_one (only : offered table word = [name]) (long : word.length ≤ name.length) :
    Completes table word (word ++ (name.drop word.length ++ [' '.toUInt8])) ↔ word <+: name := by
  rw [List.prefix_iff_eq_append, ← List.append_assoc]
  constructor
  · rintro (⟨name', same, new⟩ | longest)
    · cases only.symm.trans same
      exact List.append_cancel_right new
    · have start := (longest _).mp List.prefix_rfl name (only ▸ List.mem_singleton_self name)
      have length := start.length_le
      simp only [List.length_append, List.length_drop, List.length_singleton] at length
      omega
  · intro same
    exact .inl ⟨name, only, by rw [same]⟩

/-- A common prefix is completed to itself exactly if it starts with the word. -/
theorem completes_more (several : offered table word = name :: other :: names)
    (start : common <+: name) (longer : word.length < common.length) :
    Completes table word (word ++ common.drop word.length) ↔
      word <+: common ∧ common = commonPrefixes (offered table word) := by
  have longest : Longest (commonPrefixes (offered table word)) (offered table word) := by
    rw [several]
    exact commonPrefixes_longest _ _
  constructor
  · rintro (⟨name', same, -⟩ | new)
    · cases several.symm.trans same
    · have same := new.unique longest
      have whole : commonPrefixes (offered table word) <+: name :=
        (longest _).mp List.prefix_rfl name (several ▸ List.mem_cons_self)
      have length : common.length = (commonPrefixes (offered table word)).length := by
        rw [← same, List.length_append, List.length_drop]
        omega
      have equal : common = commonPrefixes (offered table word) :=
        (List.prefix_of_prefix_length_le start whole (Nat.le_of_eq length)).eq_of_length length
      refine ⟨?_, equal⟩
      rw [List.prefix_iff_eq_append, same]
      exact equal.symm
  · rintro ⟨first, whole⟩
    rw [List.prefix_iff_eq_append] at first
    rw [first, whole]
    exact .inr longest

/-- What is done with several names that share so much. -/
theorem offer_more (clean : ∀ text ∈ name :: other :: names, 0 ∉ text) (prompt buf : List UInt8) (n : Nat) (col : Int)
    (argc k : Nat) :
    offer beyond prompt buf n col argc k (name :: other :: names).length (name :: other :: names) = some
      (if k < (commonPrefixes (name :: other :: names)).length then
        appendSuffix buf n col ⟨(commonPrefixes (name :: other :: names)).drop k, none, false⟩
      else ⟨true, buf, n, col,
        printArgv (ascii [' ', ' ']) (ascii [' ']) 78 (name :: other :: names) ++ prompt ++ buf, false⟩) := by
  have start : commonPrefixes (name :: other :: names) <+: name :=
    (commonPrefixes_longest name (other :: names) _).mp List.prefix_rfl name List.mem_cons_self
  have found := findCommonPrefix_eq clean
  have several : 1 < ((name :: other :: names).length : Int) := by
    simp only [List.length_cons]
    omega
  rw [offer, if_neg (by omega), chooseSuffix, if_neg (by omega), if_pos several, found, Option.bind_some]
  generalize commonPrefixes (name :: other :: names) = common at start
  by_cases longer : k < common.length
  · obtain ⟨rest, rfl⟩ := start
    have text : (((common ++ rest).drop k).take (common.length - k)) = common.drop k := by
      rw [List.drop_append_of_le_length (Nat.le_of_lt longer), ← List.length_drop, List.take_left]
    have inside : decide ((common ++ rest).length < common.length) = false := by simp
    rw [if_pos longer, if_pos ⟨by omega, longer⟩, List.head?_cons, Option.map_some, text, inside]
    rfl
  · rw [if_neg longer, if_neg fun both => longer both.2]
    rfl

/-- A name that is listed comes from the table, or stands for those that are not. -/
theorem listed_clean (strings : ∀ cmdtp ∈ table, 0 ∉ cmdtp.name) (word : List UInt8) (room : Nat) :
    ∀ text ∈ cut room (offered table word), 0 ∉ text := by
  have names : ∀ text ∈ offered table word, 0 ∉ text := by
    intro text member
    obtain ⟨cmdtp, entry, rfl⟩ := List.mem_map.mp (List.mem_filter.mp member).1
    exact strings cmdtp entry
  intro text member
  unfold cut at member
  split at member
  · exact names text member
  · rcases List.mem_append.mp member with first | rest
    · exact names text (List.mem_of_mem_take first)
    · rw [List.mem_singleton.mp rest]
      decide

/-- What a tab does to a buffer with one word. -/
theorem offer_extends (strings : ∀ cmdtp ∈ table, 0 ∉ cmdtp.name) (prompt : List UInt8) (col : Int) :
    (∃ done, offer beyond prompt (front ++ word) (front ++ word).length col 1 word.length
        (cut 18 (offered table word)).length (cut 18 (offered table word)) = some done ∧
      Extends table front word done) ↔ Completable table front word := by
  have clean := listed_clean strings word 18
  unfold Completable
  match several : offered table word with
  | [] => exact iff_of_true ⟨_, rfl, rfl, fun changed => absurd rfl changed⟩ trivial
  | [name] =>
    have chosen : offer beyond prompt (front ++ word) (front ++ word).length col 1 word.length (cut 18 [name]).length
        (cut 18 [name]) = some (appendSuffix (front ++ word) (front ++ word).length col
          ⟨if word.length ≤ name.length then name.drop word.length else beyond name word.length, some [' '.toUInt8],
            name.length < word.length⟩) := rfl
    rw [chosen]
    simp only [Option.some.injEq, exists_eq_left']
    rw [appendSuffix_extends _ (by simp), decide_eq_false_iff_not, Nat.not_lt]
    refine and_congr_right fun long => ?_
    rw [if_pos long, Option.getD_some, completes_one several long]
    have length : (front ++ word).length + (name.drop word.length ++ [' '.toUInt8]).length =
        front.length + name.length + 1 := by
      simp only [List.length_append, List.length_drop, List.length_singleton]
      omega
    rw [length]
  | name :: other :: names =>
    have listed : cut 18 (name :: other :: names) = name :: other :: cut 16 names := by rw [cut_succ, cut_succ]
    rw [several, listed] at clean
    have start : commonPrefixes (name :: other :: cut 16 names) <+: name :=
      (commonPrefixes_longest name (other :: cut 16 names) _).mp List.prefix_rfl name List.mem_cons_self
    simp only [listed, offer_more clean, Option.some.injEq, exists_eq_left']
    generalize commonPrefixes (name :: other :: cut 16 names) = common at start
    by_cases longer : word.length < common.length
    · have nonempty : common.drop word.length ≠ [] := by
        rw [ne_eq, List.drop_eq_nil_iff]
        exact Nat.not_le_of_lt longer
      have length : (front ++ word).length + (common.drop word.length).length = front.length + common.length := by
        simp only [List.length_append, List.length_drop]
        omega
      have completes := completes_more several start longer
      rw [several] at completes
      rw [if_pos longer, appendSuffix_extends _ (by simpa using nonempty), Option.getD_none, List.append_nil, length,
        completes, and_iff_right rfl]
      exact (or_iff_right (Nat.not_le_of_lt longer)).symm
    · rw [if_neg longer]
      exact iff_of_true ⟨rfl, fun changed => absurd rfl changed⟩ (.inl (Nat.le_of_not_lt longer))

/-- A tab keeps its promise exactly on the words that can be completed. -/
theorem completion_extends_iff (strings : ∀ cmdtp ∈ table, 0 ∉ cmdtp.name) (one : OneWord front word)
    (fits : (front ++ word).length ≤ sysCbsize) (tmpSize : tmpBuf.length = sysCbsize + 1) {argv : Argv}
    (argvSize : argv.length = sysMaxargs + 1) (col : Int) :
    (∃ done, cmdAutoComplete beyond complete table tmpBuf argv sysPrompt (front ++ word) (front ++ word).length col =
        some done ∧ Extends table front word done) ↔ Completable table front word := by
  rw [cmdAutoComplete_word one fits tmpSize argvSize]
  exact offer_extends strings sysPrompt col

/-- A word without a dot can be completed: if names are left out of the list, no prefix is common to it. -/
theorem completable_of_no_dot (one : OneWord front word) (noDot : dot ∉ word) : Completable table front word := by
  have whole : stem word = word := by
    rw [stem, List.takeWhile_eq_self_iff]
    intro c member
    exact decide_eq_true fun same => noDot (same ▸ member)
  have starts : ∀ name ∈ offered table word, word <+: name := by
    intro name member
    have start := List.isPrefixOf_iff_prefix.mp (List.mem_filter.mp member).2
    rwa [whole] at start
  unfold Completable
  generalize offered table word = offers at starts
  rcases offers with _ | ⟨name, _ | ⟨other, names⟩⟩
  · trivial
  · have start := starts name (List.mem_singleton_self name)
    exact ⟨start.length_le, .inr start⟩
  · dsimp only
    by_cases all : (name :: other :: names).length ≤ 18
    · have listed : cut 18 (name :: other :: names) = name :: other :: names := if_pos all
      rw [listed]
      exact .inr (.inr ⟨(commonPrefixes_longest _ _ _).mpr starts, rfl⟩)
    · have listed : cut 18 (name :: other :: names) = name :: (other :: names.take 16 ++ [ellipsis]) := if_neg all
      have common := (commonPrefixes_longest name (other :: names.take 16 ++ [ellipsis]) _).mp List.prefix_rfl
      have first := common name List.mem_cons_self
      have dots := common ellipsis (by simp)
      rw [listed]
      generalize commonPrefixes (name :: (other :: names.take 16 ++ [ellipsis])) = text at first dots
      left
      cases text with
      | nil => exact Nat.zero_le _
      | cons c text =>
        obtain ⟨d, rest, rfl⟩ := List.exists_cons_of_ne_nil one.nonempty
        obtain ⟨tail, rfl⟩ := starts name List.mem_cons_self
        have here : c = d := (List.cons_prefix_cons.mp first).1
        have isDot : c = dot := (List.cons_prefix_cons.mp dots).1
        exact absurd List.mem_cons_self (here ▸ isDot ▸ noDot)

/-! ## Any buffer -/

/-- The buffer has grown by characters that leave room, or not at all. -/
structure Grown (old : List UInt8) (done : Completed) (added : List UInt8) : Prop where
  buf : done.buf = old ++ added
  n : done.n = (old ++ added).length
  clean : 0 ∉ added
  room : added = [] ∨ (old ++ added).length < sysCbsize - 2
  handled : done.handled = false → added = []

private theorem grown_nothing {done : Completed} (unchanged : done.buf = buf) (n : done.n = buf.length) :
    Grown buf done [] :=
  ⟨by rw [unchanged, List.append_nil], by rw [n, List.append_nil], List.not_mem_nil, .inl rfl, fun _ => rfl⟩

private theorem appendSuffix_grown (suffix : Suffix) (clean : 0 ∉ suffix.text ++ suffix.sep.getD []) (buf : List UInt8)
    (col : Int) : ∃ added, Grown buf (appendSuffix buf buf.length col suffix) added := by
  rw [appendSuffix]
  generalize suffix.text ++ suffix.sep.getD [] = added at clean
  by_cases long : sysCbsize - 2 ≤ buf.length + added.length
  · rw [if_pos long]
    exact ⟨[], grown_nothing rfl rfl⟩
  · rw [if_neg long]
    refine ⟨added, rfl, List.length_append.symm, clean, .inr ?_, fun handled => by cases handled⟩
    rw [List.length_append]
    exact Nat.lt_of_not_le long

/-- Completions that are strings are put in, listed or announced. -/
theorem offer_grown (clean : ∀ text ∈ cmdv, 0 ∉ text) (strings : ∀ name k, 0 ∉ beyond name k) (prompt buf : List UInt8)
    (col : Int) (argc k : Nat) :
    ∃ done added, offer beyond prompt buf buf.length col argc k cmdv.length cmdv = some done ∧ Grown buf done added := by
  match cmdv, clean with
  | [], _ =>
    refine ⟨_, [], rfl, ?_⟩
    split
    · exact grown_nothing rfl rfl
    · exact grown_nothing rfl rfl
  | [name], clean =>
    have nameClean : 0 ∉ name := clean name (List.mem_singleton_self name)
    have text : 0 ∉ if k ≤ name.length then name.drop k else beyond name k := by
      split
      · exact fun zero => nameClean (List.mem_of_mem_drop zero)
      · exact strings name k
    obtain ⟨added, grown⟩ := appendSuffix_grown
      ⟨if k ≤ name.length then name.drop k else beyond name k, some [' '.toUInt8], name.length < k⟩
      (by simpa using ⟨text, by decide⟩) buf col
    exact ⟨_, added, rfl, grown⟩
  | name :: other :: names, clean =>
    have start : commonPrefixes (name :: other :: names) <+: name :=
      (commonPrefixes_longest name (other :: names) _).mp List.prefix_rfl name List.mem_cons_self
    have commonClean : 0 ∉ commonPrefixes (name :: other :: names) := fun zero =>
      clean name List.mem_cons_self (start.subset zero)
    rw [offer_more clean]
    split
    · obtain ⟨added, grown⟩ := appendSuffix_grown ⟨(commonPrefixes (name :: other :: names)).drop k, none, false⟩
        (by simpa using fun zero => commonClean (List.mem_of_mem_drop zero)) buf col
      exact ⟨_, added, rfl, grown⟩
    · exact ⟨_, [], rfl, grown_nothing rfl rfl⟩

/-- The words of a string are strings. -/
theorem arguments_clean (clean : 0 ∉ text) : ∀ word ∈ cliSimpleParseLine text, 0 ∉ word := by
  intro word member
  obtain ⟨split, -, arguments⟩ := makeArgv_arguments [] clean (show usedArgv.length = sysMaxargs + 1 from rfl)
  obtain ⟨i, found⟩ := List.getElem?_of_mem member
  rw [cliSimpleParseLine, parseArgs_eq] at found
  obtain ⟨p, -, -, -, -, -, wordClean⟩ := arguments.strings i word found
  exact wordClean

/-- What `cmd_auto_complete` finds in memory: the commands, what completes their arguments, what lies behind their
names, and its arrays. -/
structure Shell (W : Type) where
  table : List (CmdTbl W)
  complete : CmdTbl W → Option Completer
  beyond : (name : List UInt8) → (k : Nat) → List UInt8
  tmpBuf : List UInt8
  argv : Argv
  names : ∀ cmdtp ∈ table, 0 ∉ cmdtp.name
  completers : ∀ cmdtp completer, complete cmdtp = some completer → ∀ argv lastChar maxv,
    ∀ text ∈ completer argv lastChar maxv, 0 ∉ text
  strings : ∀ name k, 0 ∉ beyond name k
  tmpSize : tmpBuf.length = sysCbsize + 1
  argvSize : argv.length = sysMaxargs + 1

namespace Shell

def autoComplete (sh : Shell W) (prompt buf : List UInt8) (n : Nat) (col : Int) : Option Completed :=
  cmdAutoComplete sh.beyond sh.complete sh.table sh.tmpBuf sh.argv prompt buf n col

/-- Whatever has been typed, the completions are strings. -/
theorem completions (sh : Shell W) {args : List (List UInt8)} (clean : ∀ word ∈ args, 0 ∉ word) (lastChar : UInt8) :
    ∃ cmdv, completeSubcmdv sh.complete sh.table args lastChar 20 = some (counted cmdv) ∧ ∀ text ∈ cmdv, 0 ∉ text := by
  cases args with
  | nil => exact ⟨_, completeSubcmdv_eq sh.complete sh.table (.inr ⟨rfl, rfl⟩) 18, listed_clean sh.names [] 18⟩
  | cons cmd more =>
    by_cases arguments : more ≠ [] ∨ lastChar = 0 ∨ isBlank lastChar = true
    · rw [completeSubcmdv, if_neg (by decide)]
      simp only [arguments, if_true]
      rw [findCmdTbl_eq (clean cmd List.mem_cons_self), Option.map_some]
      cases found : (findCmd sh.table cmd).bind sh.complete with
      | none => exact ⟨[], rfl, fun _ none => absurd none List.not_mem_nil⟩
      | some completer =>
        obtain ⟨cmdtp, -, chosen⟩ := Option.bind_eq_some_iff.mp found
        exact ⟨_, rfl, sh.completers cmdtp completer chosen _ _ _⟩
    · push Not at arguments
      obtain ⟨rfl, char, typed⟩ := arguments
      have asked : Asked cmd [cmd] lastChar := .inl ⟨rfl, char, eq_false_of_ne_true typed⟩
      exact ⟨_, completeSubcmdv_eq sh.complete sh.table asked 18, listed_clean sh.names cmd 18⟩

/-- A tab returns with the buffer as it was, or grown by a completion that leaves room. -/
theorem autoComplete_grown (sh : Shell W) (clean : 0 ∉ buf) (fits : buf.length ≤ sysCbsize) (prompt : List UInt8)
    (col : Int) : ∃ done added, sh.autoComplete prompt buf buf.length col = some done ∧ Grown buf done added := by
  rw [autoComplete]
  by_cases standard : prompt = sysPrompt
  · subst standard
    obtain ⟨cmdv, listed, listedClean⟩ := sh.completions (arguments_clean clean) (buf.getLast?.getD 0)
    rw [cmdAutoComplete_eq clean sh.tmpSize fits sh.argvSize, completeArgs, listed]
    exact offer_grown listedClean sh.strings sysPrompt buf col _ _
  · rw [cmdAutoComplete, if_pos standard]
    exact ⟨_, [], rfl, grown_nothing rfl rfl⟩

end Shell

end

/-- One command `md`. -/
def mdCommand : List (CmdTbl Unit) := [⟨ascii ['m', 'd'], 2, cmdNeverRepeatable fun _ _ w => (0, w)⟩]

/-- `tmp_buf` before its first use. -/
def emptyTmpBuf : List UInt8 := List.replicate (sysCbsize + 1) 0

private theorem one_word (chars : word.any isBlank = false) (nonempty : word ≠ []) (clean : 0 ∉ word) :
    OneWord [] word :=
  ⟨fun _ none => absurd none List.not_mem_nil, fun c member => eq_false_of_ne_true (List.any_eq_false.mp chars c member),
    nonempty, clean⟩

/-- `m` becomes `md` and a blank. -/
theorem completion_extends_md :
    ∃ done, cmdAutoComplete (fun _ _ => []) (fun _ => none) mdCommand emptyTmpBuf usedArgv sysPrompt (ascii ['m']) 1 9 =
      some done ∧ Extends mdCommand [] (ascii ['m']) done :=
  (completion_extends_iff (by decide) (one_word (by decide) (by decide) (by decide)) (by decide)
    List.length_replicate rfl 9).mpr (completable_of_no_dot (one_word (by decide) (by decide) (by decide)) (by decide))

/-- On `md.b` the string behind the name is read, and a blank is put in. -/
theorem completion_extends_size :
    ∃ done, cmdAutoComplete (fun _ _ => []) (fun _ => none) mdCommand emptyTmpBuf usedArgv sysPrompt
      (ascii ['m', 'd', '.', 'b']) 4 12 = some done ∧ ¬ Extends mdCommand [] (ascii ['m', 'd', '.', 'b']) done := by
  have one : OneWord [] (ascii ['m', 'd', '.', 'b']) := one_word (by decide) (by decide) (by decide)
  have completed : cmdAutoComplete (fun _ _ => []) (fun _ => none) mdCommand emptyTmpBuf usedArgv sysPrompt
      ([] ++ ascii ['m', 'd', '.', 'b']) 4 12 =
        some ⟨true, ascii ['m', 'd', '.', 'b', ' '], 5, 13, ascii [' '], true⟩ :=
    cmdAutoComplete_word one (by decide) List.length_replicate rfl 4 12
  exact ⟨_, completed, fun kept => absurd kept.inside (by decide)⟩

end RockOs.Completion
