import RockOs.BubbleSort
import RockOs.Console
import RockOs.StringOrder

/-! `_do_help` of `common/command.c`. Without arguments it sorts the pointers to the
entries by name and prints the name and the usage of those that have one. -/
namespace RockOs.HelpListing
open CliSimple CommandTable Console Ctype StringOrder Vsprintf VsprintfText

/-! ## The code -/

/-- An entry with its texts, which may be null. -/
structure HelpEntry (W : Type) extends CmdTbl W where
  usage : Option (List UInt8)
  help : Option (List UInt8)

/-- `CONFIG_SYS_HELP_CMD_WIDTH`. -/
def sysHelpCmdWidth : Nat := 10

/-- `"%-*s- %s\n"`. -/
def usageFormat : List UInt8 := ascii ['%', '-', '*', 's', '-', ' ', '%', 's', '\n']

/-- The line of one entry in the list. -/
def usageLine (entry : HelpEntry W) : Print :=
  .printf usageFormat [.num sysHelpCmdWidth, .str (some entry.name), .str entry.usage]

/-- `"\n%s - %s\n\n"`. -/
def commandFormat : List UInt8 := ascii ['\n', '%', 's', ' ', '-', ' ', '%', 's', '\n', '\n']

/-- `"Usage:\n"`. -/
def usageTitle : List UInt8 := ascii ['U', 's', 'a', 'g', 'e', ':', '\n']

/-- `"- No additional help available.\n\r"`. -/
def noHelp : List UInt8 :=
  ascii ['-', ' ', 'N', 'o', ' ', 'a', 'd', 'd', 'i', 't', 'i', 'o', 'n', 'a', 'l', ' ', 'h', 'e', 'l', 'p', ' ', 'a',
    'v', 'a', 'i', 'l', 'a', 'b', 'l', 'e', '.', '\n', '\r']

/-- `cmd_usage`, which returns 1. -/
def cmdUsage (entry : HelpEntry W) : List Print :=
  [.printf commandFormat [.str (some entry.name), .str entry.usage], .printf usageTitle []] ++
    match entry.help with
    | none => [.puts noHelp]
    | some help => [.puts help, .puts (ascii ['\n', '\r', '\n', '\r'])]

/-- `"Unknown command '%s' - try 'help' without arguments for list of all known commands\n\n"`. -/
def unknownFormat : List UInt8 :=
  ascii ['U', 'n', 'k', 'n', 'o', 'w', 'n', ' ', 'c', 'o', 'm', 'm', 'a', 'n', 'd', ' '] ++ [quote] ++
    ascii ['%', 's'] ++ [quote] ++ ascii [' ', '-', ' ', 't', 'r', 'y', ' '] ++ [quote] ++ ascii ['h', 'e', 'l', 'p'] ++
    [quote] ++ ascii [' ', 'w', 'i', 't', 'h', 'o', 'u', 't', ' ', 'a', 'r', 'g', 'u', 'm', 'e', 'n', 't', 's', ' ', 'f',
    'o', 'r', ' ', 'l', 'i', 's', 't', ' ', 'o', 'f', ' ', 'a', 'l', 'l', ' ', 'k', 'n', 'o', 'w', 'n', ' ', 'c', 'o',
    'm', 'm', 'a', 'n', 'd', 's', '\n', '\n']

/-- The loop over the arguments. -/
def usageLoop (table : List (HelpEntry W)) : (args : List (List UInt8)) → (rcode : Nat) → Option (Nat × List Print)
  | [], rcode => some (rcode, [])
  | arg :: args, rcode =>
    (findTbl (fun entry => entry.name) (some arg) table).bind fun
    | some entry => (usageLoop table args (rcode ||| 1)).map fun (rcode, printed) => (rcode, cmdUsage entry ++ printed)
    | none => (usageLoop table args 1).map fun (rcode, printed) =>
      (rcode, .printf unknownFormat [.str (some arg)] :: printed)

/-- `strcmp(cmd_array[j]->name, cmd_array[j + 1]->name) > 0`. -/
def nameAbove (x y : HelpEntry W) : Bool := decide (0 < compared x.name y.name)

/-- `_do_help`: its value and what it prints. -/
def doHelp (table : List (HelpEntry W)) (argv : List (List UInt8)) : Option (Nat × List Print) :=
  if argv.length = 1 then
    let cmdArray := BubbleSort.sort nameAbove table
    some (0, (cmdArray.filter (·.usage.isSome)).map usageLine)
  else usageLoop table argv.tail 0

/-! ## The order of names -/

section
variable {W : Type}

/-- Entries by their names. -/
def NameLe (x y : HelpEntry W) : Prop := x.name ≤ y.name

instance : DecidableRel (NameLe (W := W)) := fun x y => inferInstanceAs (Decidable (x.name ≤ y.name))

instance : IsTrans (HelpEntry W) NameLe := ⟨fun _ _ _ => List.le_trans⟩

instance : Std.Total (NameLe (W := W)) := ⟨fun x y => List.le_total x.name y.name⟩

/-- ASCII names without NUL. -/
def Named (entry : HelpEntry W) : Prop := ∀ c ∈ entry.name, c ≠ 0 ∧ c < 128

private theorem compared_names {x y : HelpEntry W} (named : Named x) (named' : Named y) :
    compared x.name y.name ≤ 0 ↔ NameLe x y := by
  have clean {entry : HelpEntry W} (named : Named entry) : 0 ∉ entry.name := fun zero => (named 0 zero).1 rfl
  have near := near_ascii (fun c member => (named c member).2) fun c member => (named' c member).2
  rw [NameLe, ← lexOrder_le_zero, ← (sign_compared (clean named) (clean named')).mpr near, Int.sign_nonpos_iff]

/-- Every entry with a usage text is printed once, in the order of the names. -/
theorem help_listing (table : List (HelpEntry W)) (cmd : List UInt8) (named : ∀ entry ∈ table, Named entry) :
    ∃ shown : List (HelpEntry W), doHelp table [cmd] = some (0, shown.map usageLine) ∧
      shown.Perm (table.filter (·.usage.isSome)) ∧ shown.Pairwise (fun x y => compared x.name y.name ≤ 0) := by
  have same : ∀ x ∈ table, ∀ y ∈ table, nameAbove x y = BubbleSort.above NameLe x y := by
    intro x hx y hy
    rw [nameAbove, BubbleSort.above, ← decide_not, decide_eq_decide, ← compared_names (named x hx) (named y hy)]
    exact Int.not_le.symm
  have sorted := BubbleSort.sort_sorted NameLe table
  have members : (BubbleSort.sort nameAbove table).Perm table := BubbleSort.loop_perm nameAbove _ table
  have inOrder : (BubbleSort.sort nameAbove table).Pairwise NameLe := by
    rw [BubbleSort.sort, BubbleSort.loop_congr _ table same]
    exact sorted
  refine ⟨(BubbleSort.sort nameAbove table).filter (·.usage.isSome), if_pos rfl, members.filter _, ?_⟩
  refine (inOrder.filter _).imp_of_mem fun hx hy less => ?_
  have inside {x : HelpEntry W} (hx : x ∈ (BubbleSort.sort nameAbove table).filter (·.usage.isSome)) : Named x :=
    named x (members.mem_iff.mp (List.mem_filter.mp hx).1)
  exact (compared_names (inside hx) (inside hy)).mpr less

end

/-- Three entries, the second without a usage text. -/
def threeEntries : List (HelpEntry Unit) :=
  [⟨⟨[0x6d, 0x64], 3, fun _ _ w => (0, 1, w)⟩, some [0x64], none⟩,
    ⟨⟨[0x61], 3, fun _ _ w => (0, 1, w)⟩, none, none⟩,
    ⟨⟨[0x63, 0x70], 3, fun _ _ w => (0, 1, w)⟩, some [0x63], none⟩]

theorem help_listing_three :
    ∃ shown : List (HelpEntry Unit), doHelp threeEntries [[0x68]] = some (0, shown.map usageLine) ∧
      shown.Perm (threeEntries.filter (·.usage.isSome)) ∧ shown.Pairwise (fun x y => compared x.name y.name ≤ 0) :=
  help_listing threeEntries [0x68] (by simp [Named, threeEntries])

private theorem output_usage (clean : 0 ∉ name) (short : name.length < 2 ^ 31) (clean' : 0 ∉ usage)
    (short' : usage.length < 2 ^ 31) :
    output usageFormat [.num sysHelpCmdWidth, .str (some name), .str (some usage)] =
      some (name ++ List.replicate (sysHelpCmdWidth - name.length) ' '.toUInt8 ++
        (ascii ['-', ' '] ++ (usage ++ ascii ['\n']))) := by
  have field : directive (ascii ['-', '*', 's', '-', ' ', '%', 's', '\n'])
      [.num sysHelpCmdWidth, .str (some name), .str (some usage)] =
      some (.str (some name) 10 (-1) { left := true }, ascii ['-', ' ', '%', 's', '\n'], [.str (some usage)]) := rfl
  have last : directive (ascii ['s', '\n']) [.str (some usage)] =
      some (.str (some usage) (-1) (-1) {}, ascii ['\n'], []) := rfl
  have padding : ((10 : Int) - name.length).toNat = sysHelpCmdWidth - name.length := by
    unfold sysHelpCmdWidth
    omega
  have middle : output (ascii ['-', ' ', '%', 's', '\n']) [.str (some usage)] =
      some (ascii ['-', ' '] ++ (usage ++ ascii ['\n'])) := by
    have end_line : output (ascii ['\n']) [] = some (ascii ['\n']) := by decide
    have found := output_string last clean' short'
    rw [end_line] at found
    exact (output_text (plain_of_all (show (ascii ['-', ' ']).all _ = true by decide))).trans
      (congrArg (Option.map (ascii ['-', ' '] ++ ·)) found)
  have found := output_directive field
  rw [pieceText, Option.bind_some, middle, stringText_whole clean short (by decide) (by decide), padding] at found
  exact found

/-- The line of an entry that fits the print buffer: the name in its field, a dash and
the usage. -/
theorem usageLine_text {entry : HelpEntry W} (named : Named entry) (text : entry.usage = some usage) (clean : 0 ∉ usage)
    (fits : max sysHelpCmdWidth entry.name.length + 3 + usage.length < Config.sysPbsize) :
    (usageLine entry).text =
      some (entry.name ++ List.replicate (sysHelpCmdWidth - entry.name.length) ' '.toUInt8 ++
        (ascii ['-', ' '] ++ (usage ++ ascii ['\n']))) := by
  have clean' : 0 ∉ entry.name := fun zero => (named 0 zero).1 rfl
  have size : Config.sysPbsize = 1024 := rfl
  have shown := output_usage clean' (by omega) clean (by omega)
  have length : (entry.name ++ List.replicate (sysHelpCmdWidth - entry.name.length) ' '.toUInt8 ++
      (ascii ['-', ' '] ++ (usage ++ ascii ['\n']))).length = max sysHelpCmdWidth entry.name.length + 3 +
        usage.length := by
    simp [ascii]
    omega
  have nonzero : 0 ∉ entry.name ++ List.replicate (sysHelpCmdWidth - entry.name.length) ' '.toUInt8 ++
      (ascii ['-', ' '] ++ (usage ++ ascii ['\n'])) := by
    simp only [List.mem_append, not_or]
    refine ⟨⟨clean', fun zero => ?_⟩, by decide, clean, by decide⟩
    exact absurd (List.eq_of_mem_replicate zero) (by decide)
  rw [usageLine, text, Print.text, printf_eq shown (by omega) nonzero, List.take_of_length_le (by omega)]

end RockOs.HelpListing
