import RockOs.ByteMemory
import RockOs.ItsQueue

/-! The commands of `module/gicv3/gicv3_its.c`. Each function fills an
`its_cmd_block` on its stack, through the 32 bit and the 64 bit view of the
union, and adds it to the queue. What the ITS reads there decodes to the call
that was made, and nothing that was on the stack before shows. -/
namespace RockOs.ItsCommands
open ByteMemory ItsQueue Machine WordBits

/-! ## The code -/

def gitsCmdMapd : Nat := 0x08
def gitsCmdMapc : Nat := 0x09
def gitsCmdMapti : Nat := 0x0a
def gitsCmdMapi : Nat := 0x0b
def gitsCmdInv : Nat := 0x0c
def gitsCmdInvall : Nat := 0x0d
def gitsCmdInt : Nat := 0x03
def gitsCmdSync : Nat := 0x05

/-- `cmd.raw_cmd32[i] = value`. -/
def setRawCmd32 (cmd : Mem) (i value : Nat) : Mem := store cmd (4 * i) 4 value

/-- `cmd.raw_cmd64[i] = value`. -/
def setRawCmd64 (cmd : Mem) (i value : Nat) : Mem := store cmd (8 * i) 8 value

/-- A command about an event, written by the 32 bit view up to the third word. -/
def eventCommand (number deviceId eventId intid collection : Nat) (cmd : Mem) : Mem :=
  let cmd := setRawCmd32 cmd 0 number
  let cmd := setRawCmd32 cmd 1 deviceId
  let cmd := setRawCmd32 cmd 2 eventId
  let cmd := setRawCmd32 cmd 3 intid
  let cmd := setRawCmd64 cmd 2 collection
  setRawCmd64 cmd 3 0

/-- A command with its fields in the third word. -/
def targetCommand (number target : Nat) (cmd : Mem) : Mem :=
  let cmd := setRawCmd64 cmd 0 number
  let cmd := setRawCmd64 cmd 1 0
  let cmd := setRawCmd64 cmd 2 target
  setRawCmd64 cmd 3 0

def addItsInt (deviceId eventId : Nat) : Mem → Mem := eventCommand gitsCmdInt deviceId eventId 0 0

def addItsInv (deviceId eventId : Nat) : Mem → Mem := eventCommand gitsCmdInv deviceId eventId 0 0

def addItsInvall (icid : Nat) : Mem → Mem := targetCommand gitsCmdInvall (icid &&& genmask 15 0)

def addItsMapc (rdbase icid : Nat) : Mem → Mem :=
  targetCommand gitsCmdMapc (1 <<< 63 ||| (rdbase &&& genmask 50 16) ||| (icid &&& genmask 15 0))

def addItsMapd (deviceId ittAddr size : Nat) (cmd : Mem) : Mem :=
  let cmd := setRawCmd32 cmd 0 gitsCmdMapd
  let cmd := setRawCmd32 cmd 1 deviceId
  let cmd := setRawCmd64 cmd 1 (size &&& genmask 4 0)
  let cmd := setRawCmd64 cmd 2 (1 <<< 63 ||| (ittAddr &&& genmask 51 8))
  setRawCmd64 cmd 3 0

def addItsMapi (deviceId eventId icid : Nat) : Mem → Mem :=
  eventCommand gitsCmdMapi deviceId eventId 0 (icid &&& genmask 15 0)

def addItsMapti (deviceId eventId intid icid : Nat) : Mem → Mem :=
  eventCommand gitsCmdMapti deviceId eventId intid (icid &&& genmask 15 0)

def addItsSync (rdbase : Nat) : Mem → Mem := targetCommand gitsCmdSync (rdbase &&& genmask 50 16)

/-- A call of one of the functions. -/
inductive Call where
  | int (deviceId eventId : Nat)
  | inv (deviceId eventId : Nat)
  | invall (icid : Nat)
  | mapc (rdbase icid : Nat)
  | mapd (deviceId ittAddr size : Nat)
  | mapi (deviceId eventId icid : Nat)
  | mapti (deviceId eventId intid icid : Nat)
  | sync (rdbase : Nat)
  deriving DecidableEq, Repr

/-- The block a call fills, from what was on its stack. -/
def Call.block : Call → Mem → Mem
  | .int deviceId eventId => addItsInt deviceId eventId
  | .inv deviceId eventId => addItsInv deviceId eventId
  | .invall icid => addItsInvall icid
  | .mapc rdbase icid => addItsMapc rdbase icid
  | .mapd deviceId ittAddr size => addItsMapd deviceId ittAddr size
  | .mapi deviceId eventId icid => addItsMapi deviceId eventId icid
  | .mapti deviceId eventId intid icid => addItsMapti deviceId eventId intid icid
  | .sync rdbase => addItsSync rdbase

/-- `command->raw_cmd64`, which `add_ITS_command` copies. -/
def rawCmd64 (cmd : Mem) : ItsCmdBlock := fun j => BitVec.ofNat 64 (load cmd (8 * j) 8)

/-! ## The command layout -/

/-- The layout of the commands in their first three words. `MAPC` and `MAPD`
without the valid bit, which remove a mapping, are not issued here. -/
def layout (first second third : Nat) : Option Call :=
  let number := first % 2 ^ 8
  let deviceId := first / 2 ^ 32
  let eventId := second % 2 ^ 32
  let size := second % 2 ^ 5
  let intid := second / 2 ^ 32
  let icid := third % 2 ^ 16
  let rdbase := third / 2 ^ 16 % 2 ^ 36 * 2 ^ 16
  let ittAddr := third / 2 ^ 8 % 2 ^ 44 * 2 ^ 8
  let valid := third / 2 ^ 63
  if number = 0x03 then some (.int deviceId eventId)
  else if number = 0x05 then some (.sync rdbase)
  else if number = 0x08 then if valid = 1 then some (.mapd deviceId ittAddr size) else none
  else if number = 0x09 then if valid = 1 then some (.mapc rdbase icid) else none
  else if number = 0x0a then some (.mapti deviceId eventId intid icid)
  else if number = 0x0b then some (.mapi deviceId eventId icid)
  else if number = 0x0c then some (.inv deviceId eventId)
  else if number = 0x0d then some (.invall icid)
  else none

/-- What the ITS makes of a block. -/
def decode (command : ItsCmdBlock) : Option Call :=
  layout (command 0).toNat (command 1).toNat (command 2).toNat

/-- The documented ranges of the arguments. -/
def Call.InRange : Call → Prop
  | .int deviceId eventId => deviceId < 2 ^ 32 ∧ eventId < 2 ^ 32
  | .inv deviceId eventId => deviceId < 2 ^ 32 ∧ eventId < 2 ^ 32
  | .invall icid => icid < 2 ^ 16
  | .mapc rdbase icid => rdbase % 2 ^ 16 = 0 ∧ rdbase < 2 ^ 51 ∧ icid < 2 ^ 16
  | .mapd deviceId ittAddr size => deviceId < 2 ^ 32 ∧ ittAddr % 2 ^ 8 = 0 ∧ ittAddr < 2 ^ 52 ∧ size < 2 ^ 5
  | .mapi deviceId eventId icid => deviceId < 2 ^ 32 ∧ eventId < 2 ^ 32 ∧ icid < 2 ^ 16
  | .mapti deviceId eventId intid icid => deviceId < 2 ^ 32 ∧ eventId < 2 ^ 32 ∧ intid < 2 ^ 32 ∧ icid < 2 ^ 16
  | .sync rdbase => rdbase % 2 ^ 16 = 0 ∧ rdbase < 2 ^ 51

/-! ## The words of a block -/

/-- The block holds the four words. -/
def Holds (cmd : Mem) (first second third fourth : Nat) : Prop :=
  load cmd 0 8 = first ∧ load cmd 8 8 = second ∧ load cmd 16 8 = third ∧ load cmd 24 8 = fourth

private theorem load_halves (cmd : Mem) (address : Nat) :
    load cmd address 8 = load cmd address 4 + 2 ^ 32 * load cmd (address + 4) 4 :=
  load_split cmd address 4 4

private theorem eventCommand_holds (cmd : Mem) (number_fits : number < 2 ^ 32) (device_fits : deviceId < 2 ^ 32)
    (event_fits : eventId < 2 ^ 32) (intid_fits : intid < 2 ^ 32) (collection_fits : collection < 2 ^ 64) :
    Holds (eventCommand number deviceId eventId intid collection cmd) (number + 2 ^ 32 * deviceId)
      (eventId + 2 ^ 32 * intid) collection 0 := by
  unfold Holds eventCommand setRawCmd32 setRawCmd64
  refine ⟨?_, ?_, ?_, load_store_same⟩
  · rw [load_halves]
    simp (disch := decide) only [load_store_apart, load_store_same]
    omega
  · rw [load_halves]
    simp (disch := decide) only [load_store_apart, load_store_same]
    omega
  · simp (disch := decide) only [load_store_apart, load_store_same]
    omega

private theorem targetCommand_holds (cmd : Mem) (number_fits : number < 2 ^ 64) (target_fits : target < 2 ^ 64) :
    Holds (targetCommand number target cmd) number 0 target 0 := by
  unfold Holds targetCommand setRawCmd64
  simp (disch := decide) only [load_store_apart, load_store_same]
  omega

private theorem addItsMapd_holds (cmd : Mem) (device_fits : deviceId < 2 ^ 32) (size_fits : size < 2 ^ 5)
    (aligned : ittAddr % 2 ^ 8 = 0) (itt_fits : ittAddr < 2 ^ 52) :
    Holds (addItsMapd deviceId ittAddr size cmd) (gitsCmdMapd + 2 ^ 32 * deviceId) size (2 ^ 63 + ittAddr) 0 := by
  have size_kept : size &&& genmask 4 0 = size := and_genmask_eq (by decide) (by decide) (Nat.mod_one _) size_fits
  have itt_kept : ittAddr &&& genmask 51 8 = ittAddr := and_genmask_eq (by decide) (by decide) aligned itt_fits
  have valid : 1 <<< 63 ||| ittAddr = 2 ^ 63 + ittAddr :=
    (Nat.two_pow_add_eq_or_of_lt (show ittAddr < 2 ^ 63 by omega) 1).symm
  unfold Holds addItsMapd setRawCmd32 setRawCmd64
  rw [size_kept, itt_kept, valid]
  refine ⟨?_, ?_, ?_, load_store_same⟩
  · rw [load_halves]
    simp (disch := decide) only [load_store_apart, load_store_same, gitsCmdMapd]
    omega
  · simp (disch := decide) only [load_store_apart, load_store_same]
    omega
  · simp (disch := decide) only [load_store_apart, load_store_same]
    omega

/-- The third word of `MAPC`. -/
theorem mapc_target (aligned : rdbase % 2 ^ 16 = 0) (rdbase_fits : rdbase < 2 ^ 51) (icid_fits : icid < 2 ^ 16) :
    1 <<< 63 ||| rdbase ||| icid = 2 ^ 63 + rdbase + icid := by
  have valid : 1 <<< 63 ||| rdbase = 2 ^ 63 + rdbase :=
    (Nat.two_pow_add_eq_or_of_lt (show rdbase < 2 ^ 63 by omega) 1).symm
  have high : 2 ^ 63 + rdbase = 2 ^ 16 * (2 ^ 47 + rdbase / 2 ^ 16) := by omega
  rw [valid, high]
  exact (Nat.two_pow_add_eq_or_of_lt icid_fits _).symm

theorem Holds.decode_eq (holds : Holds cmd first second third fourth) :
    decode (rawCmd64 cmd) = layout first second third := by
  obtain ⟨zero, one, two, _⟩ := holds
  have word : ∀ j : Fin 4, (rawCmd64 cmd j).toNat = load cmd (8 * j) 8 := fun j => Nat.mod_eq_of_lt (load_lt cmd _ 8)
  rw [decode, word, word, word, ← zero, ← one, ← two]
  rfl

/-! ## Every command is read as it was issued -/

private theorem icid_kept (icid_fits : icid < 2 ^ 16) : icid &&& genmask 15 0 = icid :=
  and_genmask_eq (by decide) (by decide) (Nat.mod_one _) icid_fits

private theorem rdbase_kept (aligned : rdbase % 2 ^ 16 = 0) (rdbase_fits : rdbase < 2 ^ 51) :
    rdbase &&& genmask 50 16 = rdbase :=
  and_genmask_eq (by decide) (by decide) aligned rdbase_fits

/-- The fields of a command about an event. -/
theorem event_fields (deviceId intid : Nat) (small : number < 2 ^ 8) (event_fits : eventId < 2 ^ 32) :
    (number + 2 ^ 32 * deviceId) % 2 ^ 8 = number ∧ (number + 2 ^ 32 * deviceId) / 2 ^ 32 = deviceId ∧
      (eventId + 2 ^ 32 * intid) % 2 ^ 32 = eventId ∧ (eventId + 2 ^ 32 * intid) / 2 ^ 32 = intid := by
  omega

private theorem decode_int (device_fits : deviceId < 2 ^ 32) (event_fits : eventId < 2 ^ 32) :
    decode (rawCmd64 (addItsInt deviceId eventId cmd)) = some (.int deviceId eventId) := by
  have holds := eventCommand_holds cmd (show gitsCmdInt < 2 ^ 32 by decide) device_fits event_fits
    (show 0 < 2 ^ 32 by decide) (show 0 < 2 ^ 64 by decide)
  obtain ⟨number, device, event, _⟩ := event_fields deviceId 0 (show gitsCmdInt < 2 ^ 8 by decide) event_fits
  rw [addItsInt, holds.decode_eq]
  simp only [layout, number, device, event]
  rfl

private theorem decode_inv (device_fits : deviceId < 2 ^ 32) (event_fits : eventId < 2 ^ 32) :
    decode (rawCmd64 (addItsInv deviceId eventId cmd)) = some (.inv deviceId eventId) := by
  have holds := eventCommand_holds cmd (show gitsCmdInv < 2 ^ 32 by decide) device_fits event_fits
    (show 0 < 2 ^ 32 by decide) (show 0 < 2 ^ 64 by decide)
  obtain ⟨number, device, event, _⟩ := event_fields deviceId 0 (show gitsCmdInv < 2 ^ 8 by decide) event_fits
  rw [addItsInv, holds.decode_eq]
  simp only [layout, number, device, event]
  rfl

private theorem decode_mapi (device_fits : deviceId < 2 ^ 32) (event_fits : eventId < 2 ^ 32)
    (icid_fits : icid < 2 ^ 16) :
    decode (rawCmd64 (addItsMapi deviceId eventId icid cmd)) = some (.mapi deviceId eventId icid) := by
  have holds := eventCommand_holds cmd (show gitsCmdMapi < 2 ^ 32 by decide) device_fits event_fits
    (show 0 < 2 ^ 32 by decide) (show icid < 2 ^ 64 by omega)
  obtain ⟨number, device, event, _⟩ := event_fields deviceId 0 (show gitsCmdMapi < 2 ^ 8 by decide) event_fits
  rw [addItsMapi, icid_kept icid_fits, holds.decode_eq]
  simp only [layout, number, device, event, Nat.mod_eq_of_lt icid_fits]
  rfl

private theorem decode_mapti (device_fits : deviceId < 2 ^ 32) (event_fits : eventId < 2 ^ 32)
    (intid_fits : intid < 2 ^ 32) (icid_fits : icid < 2 ^ 16) :
    decode (rawCmd64 (addItsMapti deviceId eventId intid icid cmd)) = some (.mapti deviceId eventId intid icid) := by
  have holds := eventCommand_holds cmd (show gitsCmdMapti < 2 ^ 32 by decide) device_fits event_fits intid_fits
    (show icid < 2 ^ 64 by omega)
  obtain ⟨number, device, event, int⟩ := event_fields deviceId intid (show gitsCmdMapti < 2 ^ 8 by decide) event_fits
  rw [addItsMapti, icid_kept icid_fits, holds.decode_eq]
  simp only [layout, number, device, event, int, Nat.mod_eq_of_lt icid_fits]
  rfl

private theorem decode_invall (icid_fits : icid < 2 ^ 16) :
    decode (rawCmd64 (addItsInvall icid cmd)) = some (.invall icid) := by
  have holds := targetCommand_holds cmd (show gitsCmdInvall < 2 ^ 64 by decide) (show icid < 2 ^ 64 by omega)
  rw [addItsInvall, icid_kept icid_fits, holds.decode_eq]
  simp only [layout, Nat.mod_eq_of_lt icid_fits]
  rfl

private theorem decode_sync (aligned : rdbase % 2 ^ 16 = 0) (rdbase_fits : rdbase < 2 ^ 51) :
    decode (rawCmd64 (addItsSync rdbase cmd)) = some (.sync rdbase) := by
  have holds := targetCommand_holds cmd (show gitsCmdSync < 2 ^ 64 by decide) (show rdbase < 2 ^ 64 by omega)
  have field : rdbase / 2 ^ 16 % 2 ^ 36 * 2 ^ 16 = rdbase := by omega
  rw [addItsSync, rdbase_kept aligned rdbase_fits, holds.decode_eq]
  simp only [layout, field]
  rfl

private theorem decode_mapc (aligned : rdbase % 2 ^ 16 = 0) (rdbase_fits : rdbase < 2 ^ 51) (icid_fits : icid < 2 ^ 16) :
    decode (rawCmd64 (addItsMapc rdbase icid cmd)) = some (.mapc rdbase icid) := by
  have holds := targetCommand_holds cmd (show gitsCmdMapc < 2 ^ 64 by decide)
    (show 2 ^ 63 + rdbase + icid < 2 ^ 64 by omega)
  have base : (2 ^ 63 + rdbase + icid) / 2 ^ 16 % 2 ^ 36 * 2 ^ 16 = rdbase := by omega
  have collection : (2 ^ 63 + rdbase + icid) % 2 ^ 16 = icid := by omega
  have valid : (2 ^ 63 + rdbase + icid) / 2 ^ 63 = 1 := by omega
  rw [addItsMapc, rdbase_kept aligned rdbase_fits, icid_kept icid_fits, mapc_target aligned rdbase_fits icid_fits,
    holds.decode_eq]
  simp only [layout, base, collection, valid]
  rfl

private theorem decode_mapd (device_fits : deviceId < 2 ^ 32) (aligned : ittAddr % 2 ^ 8 = 0)
    (itt_fits : ittAddr < 2 ^ 52) (size_fits : size < 2 ^ 5) :
    decode (rawCmd64 (addItsMapd deviceId ittAddr size cmd)) = some (.mapd deviceId ittAddr size) := by
  have holds := addItsMapd_holds cmd device_fits size_fits aligned itt_fits
  have number : (gitsCmdMapd + 2 ^ 32 * deviceId) % 2 ^ 8 = gitsCmdMapd := by
    unfold gitsCmdMapd
    omega
  have device : (gitsCmdMapd + 2 ^ 32 * deviceId) / 2 ^ 32 = deviceId := by
    unfold gitsCmdMapd
    omega
  have itt : (2 ^ 63 + ittAddr) / 2 ^ 8 % 2 ^ 44 * 2 ^ 8 = ittAddr := by omega
  have valid : (2 ^ 63 + ittAddr) / 2 ^ 63 = 1 := by omega
  rw [holds.decode_eq]
  simp only [layout, number, device, itt, valid, Nat.mod_eq_of_lt size_fits]
  rfl

private theorem decode_block (range : Call.InRange call) (cmd : Mem) :
    decode (rawCmd64 (call.block cmd)) = some call := by
  cases call with
  | int => exact decode_int range.1 range.2
  | inv => exact decode_inv range.1 range.2
  | invall => exact decode_invall range
  | mapc => exact decode_mapc range.1 range.2.1 range.2.2
  | mapd => exact decode_mapd range.1 range.2.1 range.2.2.1 range.2.2.2
  | mapi => exact decode_mapi range.1 range.2.1 range.2.2
  | mapti => exact decode_mapti range.1 range.2.1 range.2.2.1 range.2.2.2
  | sync => exact decode_sync range.1 range.2

/-! ## Nothing of the stack shows -/

private theorem eventCommand_defined (cmd other : Mem) :
    Agree (eventCommand number deviceId eventId intid collection cmd)
      (eventCommand number deviceId eventId intid collection other) 0 32 := by
  have start : Agree cmd other 0 0 := fun cell _ below => absurd below (Nat.not_lt_zero cell)
  have words := (((start.store 4 number).store 4 deviceId).store 4 eventId).store 4 intid
  exact (words.store 8 collection).store 8 0

private theorem targetCommand_defined (cmd other : Mem) :
    Agree (targetCommand number target cmd) (targetCommand number target other) 0 32 := by
  have start : Agree cmd other 0 0 := fun cell _ below => absurd below (Nat.not_lt_zero cell)
  exact (((start.store 8 number).store 8 0).store 8 target).store 8 0

private theorem addItsMapd_defined (cmd other : Mem) :
    Agree (addItsMapd deviceId ittAddr size cmd) (addItsMapd deviceId ittAddr size other) 0 32 := by
  have start : Agree cmd other 0 0 := fun cell _ below => absurd below (Nat.not_lt_zero cell)
  have words := ((start.store 4 gitsCmdMapd).store 4 deviceId).store 8 (size &&& genmask 4 0)
  exact (words.store 8 _).store 8 0

private theorem block_defined (call : Call) (cmd other : Mem) : Agree (call.block cmd) (call.block other) 0 32 := by
  cases call with
  | int | inv | mapi | mapti => exact eventCommand_defined cmd other
  | invall | mapc | sync => exact targetCommand_defined cmd other
  | mapd => exact addItsMapd_defined cmd other

private theorem decode_calls (calls : List (Call × Mem)) (range : ∀ made ∈ calls, made.1.InRange) :
    (calls.map (fun made => rawCmd64 (made.1.block made.2))).map decode = calls.map (fun made => some made.1) := by
  induction calls with
  | nil => rfl
  | cons made calls ih =>
    have head := decode_block (range made List.mem_cons_self) made.2
    have tail := ih (fun other member => range other (List.mem_cons_of_mem _ member))
    rw [List.map_cons, List.map_cons, List.map_cons, head, tail]

/-- In every run, the blocks that the ITS has read, then those in the memory of
the queue, then the one of a call under way decode to the calls made, in order.
All their bytes are the call's own. -/
theorem commands_decode (s : Its) (empty : Empty s) (events : List Event) (t : Its) (ran : run step s events = some t)
    (calls : List (Call × Mem)) (range : ∀ made ∈ calls, made.1.InRange)
    (issues : issued events = calls.map (fun made => rawCmd64 (made.1.block made.2))) :
    (t.consumed ++ queued t ++ inFlight t.cpu).map decode = calls.map (fun made => some made.1) ∧
      ∀ made ∈ calls, ∀ other, Agree (made.1.block made.2) (made.1.block other) 0 32 := by
  have inv := run_inv (empty_inv empty) events ran
  constructor
  · rw [← inv.order, List.nil_append, issues]
    exact decode_calls calls range
  · intro made _ other
    exact block_defined made.1 made.2 other

/-- Two calls from a stack full of ones, and a run that makes them. -/
def twoCalls : List (Call × Mem) := [(.mapd 7 0x1000 4, fun _ => 0xff), (.mapc 0x80000 3, fun _ => 0xff)]

def twoBlocks : List Event :=
  [.issue (rawCmd64 (addItsMapd 7 0x1000 4 (fun _ => 0xff))), .cpu, .cpu, .cpu, .cpu, .cpu, .cpu,
    .issue (rawCmd64 (addItsMapc 0x80000 3 (fun _ => 0xff)))]

theorem commands_decode_two : ∃ t, run step freshIts twoBlocks = some t ∧
    (t.consumed ++ queued t ++ inFlight t.cpu).map decode = [some (.mapd 7 0x1000 4), some (.mapc 0x80000 3)] := by
  have empty : Empty freshIts := init_empty _ _ (by decide) rfl rfl rfl rfl
  have range : ∀ made ∈ twoCalls, made.1.InRange := by
    simp [twoCalls, Call.InRange]
  have ran : (run step freshIts twoBlocks).isSome = true := rfl
  obtain ⟨t, final⟩ := Option.isSome_iff_exists.mp ran
  exact ⟨t, final, (commands_decode freshIts empty twoBlocks t final twoCalls range rfl).1⟩

end RockOs.ItsCommands
