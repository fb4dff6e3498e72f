import RockOs.Machine
import RockOs.RingQueue
import RockOs.WordBits

/-! The ITS command queue of `module/gicv3/gicv3_its.c`. The CPU adds commands
with `add_ITS_command` while the ITS takes them out; each reads the other's
offset register at its own time. Both go step by step: the CPU one register
read or one 64 bit store at a time, the ITS one 64 bit load at a time, in any
interleaving. Stores are seen in the order they are made, which is what the
barrier before the last store is for. -/
namespace RockOs.ItsQueue
open Machine RingQueue WordBits

/-- `its_cmd_block`, as `raw_cmd64`. -/
abbrev ItsCmdBlock := Fin 4 → BitVec 64

def commandSize : Nat := 32

/-- Where `add_ITS_command` is, with its local variables. -/
inductive Cpu where
  | idle
  /-- In the loop that waits for space. -/
  | waiting (command : ItsCmdBlock) (qsize qbase qwriter : Nat)
  /-- Before the store of `entry[i]`, or before that of `its_cwriter`. -/
  | copying (command : ItsCmdBlock) (qsize qbase qwriter i : Nat)

/-- What the ITS is doing: nothing, or loading the entry at `CREADR`. -/
inductive Reader where
  | idle
  | loading (words : ItsCmdBlock) (i : Nat)

/-- The registers of the ITS, memory, and both parties. -/
structure Its where
  cbaser : Nat
  cwriter : Nat
  creadr : Nat
  mem : Nat → BitVec 64
  cpu : Cpu
  reader : Reader
  /-- The commands the ITS has read, in order. -/
  consumed : List ItsCmdBlock

/-- `((gits->its_cbaser & GENMASK_ULL(7, 0)) + 1) * 0x1000` in 32 bits. -/
def queueSize (cbaser : Nat) : Nat := ((cbaser &&& 0xff) + 1) * 0x1000 % 2 ^ 32

/-- `gits->its_cbaser & GENMASK_ULL(51, 12)`. -/
def queueBase (cbaser : Nat) : Nat := cbaser &&& 0xffffffffff000

/-- `init_ITS_command_queue`. -/
def initItsCommandQueue (address attributes numPages : Nat) (s : Its) : Its :=
  if numPages &&& 0xff = 0 then s
  else { s with
    cbaser := (address &&& 0xffffffffff000) ||| (attributes &&& 0xf800000000000c00) ||| ((numPages &&& 0xff) - 1)
    cwriter := 0 }

/-! ## Steps -/

inductive Event where
  /-- `add_ITS_command` is called. -/
  | issue (command : ItsCmdBlock)
  /-- The CPU goes on with the call. -/
  | cpu
  | its

/-- The reader's offset moved down one entry. -/
def entryBefore (qsize creadr : Nat) : Nat :=
  if creadr = 0 then (qsize + 2 ^ 32 - commandSize) % 2 ^ 32 else (creadr + 2 ^ 64 - commandSize) % 2 ^ 64

/-- One step of `add_ITS_command`. -/
def cpuStep (s : Its) : Option Its :=
  match s.cpu with
  | .idle => none
  | .waiting command qsize qbase qwriter =>
    if qwriter = entryBefore qsize s.creadr then some s
    else some { s with cpu := .copying command qsize qbase qwriter 0 }
  | .copying command qsize qbase qwriter i =>
    if small : i < 4 then
      some { s with
        mem := Function.update s.mem (qbase + qwriter + 8 * i) (command ⟨i, small⟩)
        cpu := .copying command qsize qbase qwriter (i + 1) }
    else
      let new := qwriter + commandSize
      some { s with cwriter := if new = qsize then 0 else new, cpu := .idle }

/-- One step of the ITS: it starts on an entry only while the offsets differ,
loads the entry, and then moves `CREADR` on. -/
def itsStep (s : Its) : Option Its :=
  match s.reader with
  | .idle => if s.creadr = s.cwriter then none else some { s with reader := .loading (fun _ => 0#64) 0 }
  | .loading words i =>
    if small : i < 4 then
      some { s with
        reader := .loading (Function.update words ⟨i, small⟩ (s.mem (queueBase s.cbaser + s.creadr + 8 * i))) (i + 1) }
    else
      some { s with
        creadr := (s.creadr + commandSize) % queueSize s.cbaser
        consumed := s.consumed ++ [words]
        reader := .idle }

/-- Calls of `add_ITS_command` follow one another. -/
def step (s : Its) : Event → Option Its
  | .issue command =>
    match s.cpu with
    | .idle => some { s with cpu := .waiting command (queueSize s.cbaser) (queueBase s.cbaser) s.cwriter }
    | _ => none
  | .cpu => cpuStep s
  | .its => itsStep s

/-- The commands issued in a run. -/
def issued : List Event → List ItsCmdBlock
  | [] => []
  | .issue command :: events => command :: issued events
  | .cpu :: events => issued events
  | .its :: events => issued events

/-! ## What is in the queue -/

/-- The entries of the ring. -/
def cell (s : Its) (entry : Nat) : ItsCmdBlock := fun j => s.mem (queueBase s.cbaser + 32 * entry + 8 * j)

/-- The number of entries. -/
def entries (s : Its) : Nat := queueSize s.cbaser / 32

/-- The commands in memory from `CREADR` up to `CWRITER`. -/
def queued (s : Its) : List ItsCmdBlock :=
  window (cell s) (entries s) (s.creadr / 32) (distance (entries s) (s.creadr / 32) (s.cwriter / 32))

/-- The command of a call that has not returned. -/
def inFlight : Cpu → List ItsCmdBlock
  | .idle => []
  | .waiting command _ _ _ => [command]
  | .copying command _ _ _ _ => [command]

private theorem queueSize_eq (cbaser : Nat) : ∃ n, queueSize cbaser = 32 * n ∧ 128 ≤ n ∧ n ≤ 32768 := by
  have bound := @Nat.and_le_right cbaser 0xff
  refine ⟨128 * ((cbaser &&& 0xff) + 1), ?_, by omega, by omega⟩
  unfold queueSize
  omega

/-- The offsets are those of entries. -/
structure Offsets (s : Its) (reader writer : Nat) : Prop where
  size : queueSize s.cbaser = 32 * entries s
  many : 128 ≤ entries s
  few : entries s ≤ 32768
  creadr : s.creadr = 32 * reader
  cwriter : s.cwriter = 32 * writer
  readerInside : reader < entries s
  writerInside : writer < entries s

/-- A call of `add_ITS_command` knows the queue. Once it has found space, there
is space, and the entry behind the queue holds what it has copied. -/
def CpuOk (s : Its) : Cpu → Prop
  | .idle => True
  | .waiting _ qsize qbase qwriter => qsize = queueSize s.cbaser ∧ qbase = queueBase s.cbaser ∧ qwriter = s.cwriter
  | .copying command qsize qbase qwriter i =>
    qsize = queueSize s.cbaser ∧ qbase = queueBase s.cbaser ∧ qwriter = s.cwriter ∧ i ≤ 4 ∧
      distance (entries s) (s.creadr / 32) (s.cwriter / 32) + 1 < entries s ∧
      ∀ j : Fin 4, j.1 < i → cell s (s.cwriter / 32) j = command j

/-- The ITS loads an entry of the queue. -/
def ReaderOk (s : Its) : Reader → Prop
  | .idle => True
  | .loading words i => i ≤ 4 ∧ s.creadr ≠ s.cwriter ∧ ∀ j : Fin 4, j.1 < i → words j = cell s (s.creadr / 32) j

/-- The commands issued are those consumed, then those in the queue, then the
one of a call under way. -/
structure Inv (issued : List ItsCmdBlock) (s : Its) : Prop where
  offsets : ∃ reader writer, Offsets s reader writer
  cpu : CpuOk s s.cpu
  reader : ReaderOk s s.reader
  order : issued = s.consumed ++ queued s ++ inFlight s.cpu

section Steps
variable {s t : Its} {past : List ItsCmdBlock} {reader writer : Nat}

private theorem Offsets.queued_eq (offsets : Offsets s reader writer) :
    queued s = window (cell s) (entries s) reader (distance (entries s) reader writer) := by
  rw [queued, offsets.creadr, offsets.cwriter, Nat.mul_div_cancel_left _ (by decide),
    Nat.mul_div_cancel_left _ (by decide)]

private theorem Offsets.distance_eq (offsets : Offsets s reader writer) :
    distance (entries s) (s.creadr / 32) (s.cwriter / 32) = distance (entries s) reader writer := by
  rw [offsets.creadr, offsets.cwriter, Nat.mul_div_cancel_left _ (by decide), Nat.mul_div_cancel_left _ (by decide)]

private theorem Offsets.ne_iff (offsets : Offsets s reader writer) : s.creadr ≠ s.cwriter ↔ reader ≠ writer := by
  rw [offsets.creadr, offsets.cwriter]
  omega

/-- The test for a full queue: one entry always stays empty. -/
theorem Offsets.not_full (offsets : Offsets s reader writer)
    (space : s.cwriter ≠ entryBefore (queueSize s.cbaser) s.creadr) :
    distance (entries s) reader writer + 1 < entries s := by
  obtain ⟨size, many, few, creadr, cwriter, readerInside, writerInside⟩ := offsets
  have bound : distance (entries s) reader writer < entries s := distance_lt (by omega)
  by_contra full
  have last : distance (entries s) reader writer = entries s - 1 := by omega
  have behind := tail_eq readerInside writerInside
  rw [last] at behind
  refine space ?_
  rw [size, creadr, cwriter, ← behind]
  unfold entryBefore commandSize
  by_cases first : reader = 0
  · rw [first, if_pos rfl, Nat.zero_add, Nat.mod_eq_of_lt (by omega : entries s - 1 < entries s)]
    omega
  · rw [if_neg (by omega), show reader + (entries s - 1) = reader - 1 + entries s by omega, Nat.add_mod_right,
      Nat.mod_eq_of_lt (by omega : reader - 1 < entries s)]
    omega

private theorem issue_inv (inv : Inv past s) (idle : s.cpu = .idle) (command : ItsCmdBlock) :
    Inv (past ++ [command]) { s with cpu := .waiting command (queueSize s.cbaser) (queueBase s.cbaser) s.cwriter } := by
  obtain ⟨⟨reader, writer, offsets⟩, _, readerOk, order⟩ := inv
  refine ⟨⟨reader, writer, { offsets with }⟩, ⟨rfl, rfl, rfl⟩, readerOk, ?_⟩
  rw [order, idle, inFlight, List.append_nil]
  rfl

/-- A store to the entry behind the queue changes no other entry. -/
theorem store_inv (inv : Inv past s) (copying : s.cpu = .copying command qsize qbase qwriter i) (small : i < 4) :
    Inv past { s with
      mem := Function.update s.mem (qbase + qwriter + 8 * i) (command ⟨i, small⟩)
      cpu := .copying command qsize qbase qwriter (i + 1) } := by
  obtain ⟨⟨reader, writer, offsets⟩, cpuOk, readerOk, order⟩ := inv
  rw [copying] at cpuOk
  obtain ⟨rfl, rfl, rfl, _, room, copied⟩ := cpuOk
  let after : Its := { s with
    mem := Function.update s.mem (queueBase s.cbaser + s.cwriter + 8 * i) (command ⟨i, small⟩)
    cpu := .copying command (queueSize s.cbaser) (queueBase s.cbaser) s.cwriter (i + 1) }
  have offsetsAfter : Offsets after reader writer := { offsets with }
  have cwriter := offsets.cwriter
  have elsewhere : ∀ entry ≠ writer, cell after entry = cell s entry := by
    intro entry other
    funext j
    have inside := j.2
    have address : queueBase s.cbaser + 32 * entry + 8 * j.1 ≠ queueBase s.cbaser + s.cwriter + 8 * i := by omega
    exact Function.update_of_ne address _ _
  have same : queued after = queued s := by
    rw [offsetsAfter.queued_eq, offsets.queued_eq]
    exact window_frame offsets.readerInside offsets.writerInside (fun entry _ other => elsewhere entry other)
  refine ⟨⟨reader, writer, offsetsAfter⟩, ⟨rfl, rfl, rfl, small, room, fun j before => ?_⟩, ?_, ?_⟩
  · have here : s.cwriter / 32 = writer := by omega
    by_cases last : j.1 = i
    · have address : queueBase s.cbaser + 32 * (s.cwriter / 32) + 8 * j.1 =
          queueBase s.cbaser + s.cwriter + 8 * i := by omega
      show Function.update s.mem _ _ _ = _
      rw [address, Function.update_self]
      exact congrArg command (Fin.ext last.symm)
    · have address : queueBase s.cbaser + 32 * (s.cwriter / 32) + 8 * j.1 ≠
          queueBase s.cbaser + s.cwriter + 8 * i := by omega
      rw [← copied j (by omega)]
      exact Function.update_of_ne address _ _
  · show ReaderOk after s.reader
    cases reading : s.reader with
    | idle => trivial
    | loading words k =>
      rw [reading] at readerOk
      obtain ⟨bound, differ, loaded⟩ := readerOk
      refine ⟨bound, differ, fun j before => ?_⟩
      have apart := offsets.ne_iff.mp differ
      have creadr := offsets.creadr
      rw [loaded j before, elsewhere _ (by show s.creadr / 32 ≠ writer; omega)]
  · rw [order, copying]
    show _ = s.consumed ++ queued after ++ _
    rw [same]
    rfl

/-- `its_cwriter` takes the entry into the queue. -/
theorem publish_inv (inv : Inv past s) (copying : s.cpu = .copying command qsize qbase qwriter i) (done : ¬ i < 4) :
    Inv past { s with cwriter := if qwriter + commandSize = qsize then 0 else qwriter + commandSize, cpu := .idle } := by
  obtain ⟨⟨reader, writer, offsets⟩, cpuOk, readerOk, order⟩ := inv
  rw [copying] at cpuOk
  obtain ⟨rfl, rfl, rfl, _, room, copied⟩ := cpuOk
  obtain ⟨size, many, few, creadr, cwriter, readerInside, writerInside⟩ := offsets
  let after : Its := { s with
    cwriter := if s.cwriter + commandSize = queueSize s.cbaser then 0 else s.cwriter + commandSize, cpu := .idle }
  have next : after.cwriter = 32 * ((writer + 1) % entries s) := by
    show (if s.cwriter + commandSize = queueSize s.cbaser then 0 else s.cwriter + commandSize) = _
    unfold commandSize
    by_cases wraps : writer + 1 = entries s
    · rw [if_pos (by omega), wraps, Nat.mod_self]
    · rw [if_neg (by omega), Nat.mod_eq_of_lt (by omega)]
      omega
  have nextInside : (writer + 1) % entries s < entries s := Nat.mod_lt _ (by omega)
  have offsets : Offsets s reader writer := ⟨size, many, few, creadr, cwriter, readerInside, writerInside⟩
  have offsetsAfter : Offsets after reader ((writer + 1) % entries s) :=
    ⟨size, many, few, creadr, next, readerInside, nextInside⟩
  rw [offsets.distance_eq] at room
  have command_eq : cell s writer = command := by
    funext j
    rw [← copied j (by omega), cwriter, Nat.mul_div_cancel_left _ (by decide)]
  have grown : queued after = queued s ++ [command] := by
    rw [offsetsAfter.queued_eq, offsets.queued_eq, ← command_eq]
    exact window_push readerInside writerInside room
  refine ⟨⟨reader, _, offsetsAfter⟩, trivial, ?_, ?_⟩
  · show ReaderOk after s.reader
    cases reading : s.reader with
    | idle => trivial
    | loading words k =>
      rw [reading] at readerOk
      refine ⟨readerOk.1, offsetsAfter.ne_iff.mpr (fun same => ?_), readerOk.2.2⟩
      have longer := distance_push readerInside writerInside room
      rw [← same, distance_self] at longer
      omega
  · rw [order, copying]
    show _ = s.consumed ++ queued after ++ []
    rw [grown, List.append_nil, List.append_assoc]
    rfl

private theorem cpuStep_inv (inv : Inv past s) (stepped : cpuStep s = some t) : Inv past t := by
  unfold cpuStep at stepped
  cases cpu : s.cpu with
  | idle =>
    rw [cpu] at stepped
    cases stepped
  | waiting command qsize qbase qwriter =>
    rw [cpu] at stepped
    simp only at stepped
    split at stepped
    · cases stepped
      exact inv
    · rename_i space
      cases stepped
      obtain ⟨⟨reader, writer, offsets⟩, cpuOk, readerOk, order⟩ := inv
      rw [cpu] at cpuOk order
      obtain ⟨rfl, rfl, rfl⟩ := cpuOk
      refine ⟨⟨reader, writer, { offsets with }⟩, ⟨rfl, rfl, rfl, by omega, ?_, fun j none => absurd none (by omega)⟩,
        readerOk, order⟩
      exact offsets.distance_eq ▸ offsets.not_full space
  | copying command qsize qbase qwriter i =>
    rw [cpu] at stepped
    simp only at stepped
    split at stepped
    · rename_i small
      cases stepped
      exact store_inv inv cpu small
    · rename_i done
      cases stepped
      exact publish_inv inv cpu done

/-- `CREADR` moves on behind an entry that was loaded. -/
theorem consume_inv (inv : Inv past s) (loading : s.reader = .loading words i) (done : ¬ i < 4) :
    Inv past { s with
      creadr := (s.creadr + commandSize) % queueSize s.cbaser, consumed := s.consumed ++ [words], reader := .idle } := by
  obtain ⟨⟨reader, writer, offsets⟩, cpuOk, readerOk, order⟩ := inv
  rw [loading] at readerOk
  obtain ⟨_, differ, loaded⟩ := readerOk
  have apart := offsets.ne_iff.mp differ
  obtain ⟨size, many, few, creadr, cwriter, readerInside, writerInside⟩ := offsets
  let after : Its := { s with
    creadr := (s.creadr + commandSize) % queueSize s.cbaser, consumed := s.consumed ++ [words], reader := .idle }
  have next : after.creadr = 32 * ((reader + 1) % entries s) := by
    show (s.creadr + commandSize) % queueSize s.cbaser = _
    rw [size, creadr, show 32 * reader + commandSize = 32 * (reader + 1) from rfl, Nat.mul_mod_mul_left]
  have nextInside : (reader + 1) % entries s < entries s := Nat.mod_lt _ (by omega)
  have offsets : Offsets s reader writer := ⟨size, many, few, creadr, cwriter, readerInside, writerInside⟩
  have offsetsAfter : Offsets after ((reader + 1) % entries s) writer :=
    ⟨size, many, few, next, cwriter, nextInside, writerInside⟩
  have words_eq : cell s reader = words := by
    funext j
    rw [loaded j (by omega), creadr, Nat.mul_div_cancel_left _ (by decide)]
  have shorter := distance_pop readerInside writerInside apart
  have popped : queued s = words :: queued after := by
    rw [offsetsAfter.queued_eq, offsets.queued_eq, ← words_eq]
    exact window_pop readerInside writerInside apart
  refine ⟨⟨_, writer, offsetsAfter⟩, ?_, trivial, ?_⟩
  · show CpuOk after s.cpu
    cases cpu : s.cpu with
    | idle => trivial
    | waiting command qsize qbase qwriter =>
      rw [cpu] at cpuOk
      exact cpuOk
    | copying command qsize qbase qwriter k =>
      rw [cpu] at cpuOk
      obtain ⟨sizeOk, baseOk, writerOk, bound, room, copied⟩ := cpuOk
      refine ⟨sizeOk, baseOk, writerOk, bound, ?_, copied⟩
      rw [offsets.distance_eq] at room
      rw [offsetsAfter.distance_eq]
      show distance (entries s) _ _ + 1 < entries s
      omega
  · rw [order, popped]
    show _ = s.consumed ++ [words] ++ queued after ++ inFlight s.cpu
    simp

private theorem itsStep_inv (inv : Inv past s) (stepped : itsStep s = some t) : Inv past t := by
  unfold itsStep at stepped
  cases reading : s.reader with
  | idle =>
    rw [reading] at stepped
    simp only at stepped
    split at stepped
    · cases stepped
    · rename_i differ
      cases stepped
      obtain ⟨⟨reader, writer, offsets⟩, cpuOk, _, order⟩ := inv
      exact ⟨⟨reader, writer, { offsets with }⟩, cpuOk, ⟨by omega, differ, fun j none => absurd none (by omega)⟩, order⟩
  | loading words i =>
    rw [reading] at stepped
    simp only at stepped
    split at stepped
    · rename_i small
      cases stepped
      obtain ⟨⟨reader, writer, offsets⟩, cpuOk, readerOk, order⟩ := inv
      rw [reading] at readerOk
      obtain ⟨_, differ, loaded⟩ := readerOk
      refine ⟨⟨reader, writer, { offsets with }⟩, cpuOk, ⟨small, differ, fun j before => ?_⟩, order⟩
      have creadr := offsets.creadr
      by_cases last : j = ⟨i, small⟩
      · have address : queueBase s.cbaser + s.creadr + 8 * i =
            queueBase s.cbaser + 32 * (s.creadr / 32) + 8 * i := by omega
        rw [last, Function.update_self, address]
        rfl
      · have earlier : j.1 ≠ i := fun same => last (Fin.ext same)
        rw [Function.update_of_ne last]
        exact loaded j (by omega)
    · rename_i done
      cases stepped
      exact consume_inv inv reading done

theorem step_inv (inv : Inv past s) (event : Event) (stepped : step s event = some t) :
    Inv (past ++ issued [event]) t := by
  cases event with
  | issue command =>
    cases cpu : s.cpu with
    | idle =>
      rw [step, cpu] at stepped
      cases stepped
      exact issue_inv inv cpu command
    | waiting | copying =>
      rw [step, cpu] at stepped
      cases stepped
  | cpu =>
    rw [issued, issued, List.append_nil]
    exact cpuStep_inv inv stepped
  | its =>
    rw [issued, issued, List.append_nil]
    exact itsStep_inv inv stepped

private theorem issued_cons (event : Event) (events : List Event) :
    issued (event :: events) = issued [event] ++ issued events := by
  cases event <;> rfl

theorem run_inv (inv : Inv past s) (events : List Event) (ran : run step s events = some t) :
    Inv (past ++ issued events) t := by
  induction events generalizing s past with
  | nil =>
    cases ran
    rw [issued, List.append_nil]
    exact inv
  | cons event events ih =>
    rw [run] at ran
    cases stepped : step s event with
    | none =>
      rw [stepped] at ran
      cases ran
    | some middle =>
      rw [stepped] at ran
      rw [issued_cons, ← List.append_assoc]
      exact ih (step_inv inv event stepped) ran

end Steps

/-! ## Setting the queue up -/

/-- An empty queue: no call is under way and the ITS has read everything. -/
structure Empty (s : Its) : Prop where
  offset : s.creadr = s.cwriter
  aligned : s.cwriter % 32 = 0
  inside : s.cwriter < queueSize s.cbaser
  cpu : s.cpu = .idle
  reader : s.reader = .idle
  consumed : s.consumed = []

theorem empty_inv (empty : Empty s) : Inv [] s := by
  obtain ⟨offset, aligned, inside, cpu, reader, consumed⟩ := empty
  obtain ⟨n, size, many, few⟩ := queueSize_eq s.cbaser
  have count : entries s = n := by
    rw [entries, size, Nat.mul_div_cancel_left _ (by decide)]
  have offsets : Offsets s (s.cwriter / 32) (s.cwriter / 32) :=
    ⟨by omega, by omega, by omega, by omega, by omega, by omega, by omega⟩
  refine ⟨⟨_, _, offsets⟩, by rw [cpu]; trivial, by rw [reader]; trivial, ?_⟩
  rw [consumed, cpu, offsets.queued_eq, distance_self]
  rfl

/-- `init_ITS_command_queue` leaves an empty queue, as writing `CBASER` makes the
ITS start over from the first entry. -/
theorem init_empty (address attributes : Nat) (some : numPages &&& 0xff ≠ 0) (reset : s.creadr = 0) (cpu : s.cpu = .idle)
    (reader : s.reader = .idle) (consumed : s.consumed = []) :
    Empty (initItsCommandQueue address attributes numPages s) := by
  obtain ⟨n, size, many, _⟩ := queueSize_eq (initItsCommandQueue address attributes numPages s).cbaser
  rw [initItsCommandQueue, if_neg some] at size ⊢
  exact ⟨reset, rfl, by simp only at size ⊢; omega, cpu, reader, consumed⟩

/-- The address, the attributes and the number of pages are in different bits. -/
theorem cbaser_fields (address attributes : Nat) (small : last < 256) :
    ((address &&& 0xffffffffff000) ||| (attributes &&& 0xf800000000000c00) ||| last) &&& 0xff = last ∧
      ((address &&& 0xffffffffff000) ||| (attributes &&& 0xf800000000000c00) ||| last) &&& 0xffffffffff000 =
        address &&& 0xffffffffff000 := by
  have low : last &&& 0xff = last := Nat.and_two_pow_sub_one_of_lt_two_pow (show last < 2 ^ 8 from small)
  have high : last &&& 0xffffffffff000 = 0 := by
    rw [← low, Nat.and_assoc]
    exact Nat.and_zero last
  constructor
  · rw [Nat.and_or_distrib_right, Nat.and_or_distrib_right, low, Nat.and_assoc, Nat.and_assoc]
    simp
  · rw [Nat.and_or_distrib_right, Nat.and_or_distrib_right, high, Nat.and_assoc, Nat.and_assoc]
    simp

/-- `add_ITS_command` finds the queue that was set up, unless it has 256 pages:
the count is cut to eight bits before one is subtracted, so that the call
returns at once and `CBASER` stays as it was. -/
theorem queue_descriptor_iff (s : Its) (address attributes numPages : Nat) (aligned : address % 4096 = 0)
    (fits : address < 2 ^ 52) (some : 1 ≤ numPages) (most : numPages ≤ 256) :
    (queueSize (initItsCommandQueue address attributes numPages s).cbaser = numPages * 4096 ∧
        queueBase (initItsCommandQueue address attributes numPages s).cbaser = address) ↔
      numPages < 256 ∨ queueSize s.cbaser = 256 * 4096 ∧ queueBase s.cbaser = address := by
  have masked : numPages &&& 0xff = numPages % 256 := Nat.and_two_pow_sub_one_eq_mod numPages 8
  by_cases full : numPages = 256
  · have kept : initItsCommandQueue address attributes numPages s = s := if_pos (by omega)
    rw [kept, full]
    simp
  · have base : address &&& 0xffffffffff000 = address :=
      and_genmask_eq (show 51 < 64 by decide) (show 12 ≤ 51 by decide) aligned fits
    obtain ⟨size, place⟩ := cbaser_fields address attributes (show numPages - 1 < 256 by omega)
    have written : (initItsCommandQueue address attributes numPages s).cbaser =
        (address &&& 0xffffffffff000) ||| (attributes &&& 0xf800000000000c00) ||| (numPages - 1) := by
      rw [initItsCommandQueue, if_neg (by omega), masked, Nat.mod_eq_of_lt (by omega)]
    rw [written, queueSize, queueBase, size, place, base]
    simp only [and_true]
    omega

/-- A queue of one page, fresh from `init_ITS_command_queue`. -/
def freshIts : Its := initItsCommandQueue 0x80000000 0 1
  { cbaser := 0, cwriter := 0, creadr := 0, mem := fun _ => 0#64, cpu := .idle, reader := .idle, consumed := [] }

theorem queue_descriptor_pages :
    queueSize (initItsCommandQueue 0x90000000 0xf800000000000c00 255 freshIts).cbaser = 255 * 4096 ∧
      queueBase (initItsCommandQueue 0x90000000 0xf800000000000c00 255 freshIts).cbaser = 0x90000000 :=
  (queue_descriptor_iff freshIts _ _ _ (by decide) (by decide) (by decide) (by decide)).mpr (Or.inl (by decide))

/-- A queue of 256 pages keeps the descriptor of the one page it had before. -/
theorem queue_descriptor_full :
    ¬ (queueSize (initItsCommandQueue 0x90000000 0 256 freshIts).cbaser = 256 * 4096 ∧
      queueBase (initItsCommandQueue 0x90000000 0 256 freshIts).cbaser = 0x90000000) := by
  decide

/-! ## The queue is first in, first out -/

/-- The commands that the ITS has consumed are the first ones issued, in order.
The others are intact in the queue, but for the one of a call under way. -/
theorem commands_fifo (s : Its) (empty : Empty s) (events : List Event) (t : Its) (ran : run step s events = some t) :
    t.consumed <+: issued events ∧ issued events = t.consumed ++ queued t ++ inFlight t.cpu := by
  have inv := run_inv (empty_inv empty) events ran
  rw [List.nil_append] at inv
  refine ⟨⟨queued t ++ inFlight t.cpu, ?_⟩, inv.order⟩
  rw [inv.order, List.append_assoc]

/-- Two commands are issued, and the first is consumed while the second is
copied. -/
def twoCommands : List Event :=
  [.issue (fun _ => 1#64), .cpu, .cpu, .cpu, .cpu, .cpu, .cpu, .issue (fun _ => 2#64), .its, .cpu, .its, .cpu, .its,
    .its, .its, .its, .cpu]

theorem commands_fifo_two : ∃ t, run step freshIts twoCommands = some t ∧ t.consumed <+: issued twoCommands ∧
    t.consumed.map (fun command => (command 0, command 3)) = [(1#64, 1#64)] := by
  have ran : (run step freshIts twoCommands).map (fun t => t.consumed.map (fun command => (command 0, command 3))) =
      some [(1#64, 1#64)] := by
    decide
  obtain ⟨t, final, consumed⟩ := Option.map_eq_some_iff.mp ran
  have empty : Empty freshIts := init_empty _ _ (by decide) rfl rfl rfl rfl
  exact ⟨t, final, (commands_fifo freshIts empty twoCommands t final).1, consumed⟩

end RockOs.ItsQueue
