import RockOs.ByteMemory

/-! `relocate_code` of `arch/arm64/kernel/relocate_64.S`: the running image is
copied to its destination, and the words that the relocation table names are
set as if it had been linked there. The image is copied sixteen bytes at a time,
and the linker aligns its end to eight. -/
namespace RockOs.Relocation
open ByteMemory

/-! ## The code -/

/-- Where the linker put things: `__image_copy_start` as the program runs, the
length of the image, `_TEXT_BASE`, and the table of `count` entries. -/
structure Image where
  start : Nat
  size : Nat
  textBase : Nat
  relDynStart : Nat
  count : Nat

def Image.copyEnd (im : Image) : Nat := im.start + im.size

def Image.relDynEnd (im : Image) : Nat := im.relDynStart + 24 * im.count

def rAarch64Relative : Nat := 1027

/-- `copy_loop`. -/
def copyLoop (mem : Mem) (x0 x1 x2 : Nat) : Mem :=
  let x10 := loadPtr mem x1
  let x11 := loadPtr mem (x1 + 8)
  let mem := storePtr (storePtr mem x0 x10) (x0 + 8) x11
  if x1 + 16 < x2 then copyLoop mem (x0 + 16) (x1 + 16) x2 else mem
termination_by x2 - x1

/-- The body of `fixloop` for the entry at `x2`. -/
def fixEntry (mem : Mem) (x2 x9 : Nat) : Mem :=
  let x0 := loadPtr mem x2
  let x1 := loadPtr mem (x2 + 8)
  let x4 := loadPtr mem (x2 + 16)
  if x1 % 2 ^ 32 = rAarch64Relative then storePtr mem ((x0 + x9) % 2 ^ 64) ((x4 + x9) % 2 ^ 64) else mem

/-- `fixloop`. -/
def fixLoop (mem : Mem) (x2 x3 x9 : Nat) : Mem :=
  let mem := fixEntry mem x2 x9
  if x2 + 24 < x3 then fixLoop mem (x2 + 24) x3 x9 else mem
termination_by x3 - x2

/-- The offset from where the image was linked. -/
def Image.offset (im : Image) (dest : Nat) : Nat := (dest + (2 ^ 64 - im.textBase)) % 2 ^ 64

def relocateCode (im : Image) (dest : Nat) (mem : Mem) : Mem :=
  if dest = im.start then mem
  else fixLoop (copyLoop mem dest im.start im.copyEnd) im.relDynStart im.relDynEnd (im.offset dest)

/-! ## What it is for -/

/-- Entry `j` of the table: the address it is about, its type and its addend. -/
def Image.target (im : Image) (mem : Mem) (j : Nat) : Nat := loadPtr mem (im.relDynStart + 24 * j)

def Image.relative (im : Image) (mem : Mem) (j : Nat) : Bool :=
  decide (loadPtr mem (im.relDynStart + 24 * j + 8) % 2 ^ 32 = rAarch64Relative)

def Image.addend (im : Image) (mem : Mem) (j : Nat) : Nat := loadPtr mem (im.relDynStart + 24 * j + 16)

/-- Entry `j` sets word `k` of the image. -/
def Image.sets (im : Image) (mem : Mem) (k j : Nat) : Bool :=
  im.relative mem j && decide (im.target mem j = im.textBase + 8 * k)

/-- Word `k` of the image linked at `dest`, by the first `n` entries of the table:
the last of them that sets the word decides. -/
def Image.linked (im : Image) (mem : Mem) (dest n k : Nat) : Nat :=
  match (List.range n).reverse.find? (im.sets mem k) with
  | some j => (im.addend mem j + im.offset dest) % 2 ^ 64
  | none => loadPtr mem (im.start + 8 * k)

/-- The words at the destination are those of the image linked there, and the
image and its table are what they were. -/
structure Relocated (im : Image) (dest : Nat) (mem after : Mem) : Prop where
  words : ∀ k < im.size / 8, loadPtr after (dest + 8 * k) = im.linked mem dest im.count k
  source : Agree after mem im.start (im.relDynEnd - im.start)

/-- What the linker guarantees, with a table that sets words of the image. -/
structure Linked (im : Image) (mem : Mem) : Prop where
  nonempty : 0 < im.size
  words : im.size % 8 = 0
  ordered : im.copyEnd ≤ im.relDynStart
  entries : 0 < im.count
  fits : im.relDynEnd ≤ 2 ^ 64
  base : im.textBase + im.size ≤ 2 ^ 64
  slots : ∀ j < im.count, im.relative mem j = true → ∃ k < im.size / 8, im.target mem j = im.textBase + 8 * k

/-- The destination shares no byte with the image and its table. -/
structure Placed (im : Image) (dest : Nat) : Prop where
  apart : dest + im.size ≤ im.start ∨ im.relDynEnd ≤ dest
  fits : dest + im.size + 8 ≤ 2 ^ 64

/-! ## The copy -/

/-- How many bytes `copy_loop` moves for an image of `size`. -/
def span (size : Nat) : Nat := 16 * ((size - 1) / 16 + 1)

theorem copyLoop_eq (forward : x0 ≤ x1 ∨ x1 + span (x2 - x1) ≤ x0) :
    copyLoop mem x0 x1 x2 = copied mem x0 x1 (span (x2 - x1)) := by
  fun_induction copyLoop mem x0 x1 x2 with
  | case1 mem x0 x1 x10 x11 pair more ih =>
    have longer : span (x2 - x1) = 16 + span (x2 - (x1 + 16)) := by
      unfold span
      omega
    have step : pair = copied mem x0 x1 16 := copied_pair
    rw [ih (by omega), step, copied_copied (by omega), longer]
  | case2 mem x0 x1 x10 x11 pair last =>
    have once : span (x2 - x1) = 16 := by
      unfold span
      omega
    rw [once]
    exact copied_pair

theorem Linked.span_eq (linked : Linked im mem) :
    span im.size = im.size ∧ im.size % 16 = 0 ∨ span im.size = im.size + 8 ∧ im.size % 16 = 8 := by
  have nonempty := linked.nonempty
  have words := linked.words
  unfold span
  omega

/-- The image after the copy, before the table is applied. -/
theorem copy_eq (linked : Linked im mem) (placed : Placed im dest) :
    copyLoop mem dest im.start im.copyEnd = copied mem dest im.start (span im.size) := by
  have length : im.copyEnd - im.start = im.size := Nat.add_sub_cancel_left _ _
  have entries := linked.entries
  have ordered := linked.ordered
  have spans := linked.span_eq
  have apart := placed.apart
  unfold Image.copyEnd Image.relDynEnd at *
  rw [copyLoop_eq, length]
  rw [length]
  omega

/-! ## The table -/

theorem linked_succ (im : Image) : im.linked mem dest (n + 1) k =
    if im.sets mem k n then (im.addend mem n + im.offset dest) % 2 ^ 64 else im.linked mem dest n k := by
  unfold Image.linked
  rw [List.range_succ, List.reverse_append, List.reverse_singleton, List.singleton_append, List.find?_cons]
  by_cases sets : im.sets mem k n
  · rw [if_pos sets, sets]
  · rw [if_neg sets, Bool.eq_false_of_not_eq_true sets]

/-- The offset takes an address of the image as linked to its place at the destination. -/
theorem offset_slot (linked : Linked im mem) (placed : Placed im dest) (inside : k < im.size / 8) :
    (im.textBase + 8 * k + im.offset dest) % 2 ^ 64 = dest + 8 * k := by
  have base := linked.base
  have fits := placed.fits
  unfold Image.offset
  omega

/-- The first `n` entries have been applied to the copy, and nothing else is changed. -/
structure Applied (im : Image) (dest : Nat) (mem : Mem) (n : Nat) (now : Mem) : Prop where
  words : ∀ k < im.size / 8, loadPtr now (dest + 8 * k) = im.linked mem dest n k
  outside : ∀ cell, cell < dest ∨ dest + im.size ≤ cell → now cell = copied mem dest im.start (span im.size) cell

/-- The table is outside the copy, also outside its last eight bytes. -/
theorem table_kept (linked : Linked im mem) (placed : Placed im dest) (applied : Applied im dest mem n now)
    (inside : im.relDynStart ≤ address ∧ address + 8 ≤ im.relDynEnd) : loadPtr now address = loadPtr mem address := by
  have nonempty := linked.nonempty
  have words := linked.words
  have ordered := linked.ordered
  have spans := linked.span_eq
  have apart := placed.apart
  unfold Image.copyEnd at ordered
  apply loadPtr_agree
  intro cell low high
  rw [applied.outside cell (by omega), copied, if_neg (by omega)]

private theorem applied_copy (linked : Linked im mem) :
    Applied im dest mem 0 (copied mem dest im.start (span im.size)) where
  words k inside := by
    have spans := linked.span_eq
    exact load_copied (by omega)
  outside _ _ := rfl

/-- One entry of the table. -/
theorem Applied.step (linked : Linked im mem) (placed : Placed im dest) (applied : Applied im dest mem j now)
    (entry : j < im.count) :
    Applied im dest mem (j + 1) (fixEntry now (im.relDynStart + 24 * j) (im.offset dest)) := by
  have within : im.relDynStart + 24 * j + 24 ≤ im.relDynEnd := by
    unfold Image.relDynEnd
    omega
  have target : loadPtr now (im.relDynStart + 24 * j) = im.target mem j :=
    table_kept linked placed applied (by omega)
  have type : loadPtr now (im.relDynStart + 24 * j + 8) = loadPtr mem (im.relDynStart + 24 * j + 8) :=
    table_kept linked placed applied (by omega)
  have addend : loadPtr now (im.relDynStart + 24 * j + 16) = im.addend mem j :=
    table_kept linked placed applied (by omega)
  unfold fixEntry
  simp only [target, type, addend]
  by_cases relative : loadPtr mem (im.relDynStart + 24 * j + 8) % 2 ^ 32 = rAarch64Relative
  · have typed : im.relative mem j = true := decide_eq_true relative
    obtain ⟨slot, small, named⟩ := linked.slots j entry typed
    rw [if_pos relative, named, offset_slot linked placed small]
    constructor
    · intro k inside
      rw [linked_succ]
      by_cases same : k = slot
      · have sets : im.sets mem k j = true := by
          simp [Image.sets, typed, named, same]
        rw [if_pos sets, same, loadPtr_storePtr_same (Nat.mod_lt _ (by decide))]
      · have keeps : ¬ im.sets mem k j = true := by
          simp only [Image.sets, named, Bool.and_eq_true, decide_eq_true_eq]
          omega
        rw [if_neg keeps, loadPtr_storePtr_apart (by omega)]
        exact applied.words k inside
    · intro cell out
      rw [← applied.outside cell out]
      exact if_neg (by omega)
  · rw [if_neg relative]
    constructor
    · intro k inside
      have keeps : ¬ im.sets mem k j = true := by
        intro sets
        exact relative (of_decide_eq_true ((Bool.and_eq_true _ _).mp sets).1)
      rw [linked_succ, if_neg keeps]
      exact applied.words k inside
    · exact applied.outside

/-- The whole table, from entry `j` on. -/
theorem Applied.run (linked : Linked im mem) (placed : Placed im dest) (applied : Applied im dest mem j now)
    (left : im.count = j + 1 + rest) :
    Applied im dest mem im.count (fixLoop now (im.relDynStart + 24 * j) im.relDynEnd (im.offset dest)) := by
  have next := applied.step linked placed (show j < im.count by omega)
  induction rest generalizing j now with
  | zero =>
    have done : ¬ im.relDynStart + 24 * j + 24 < im.relDynEnd := by
      unfold Image.relDynEnd
      omega
    rw [fixLoop, if_neg done, left]
    exact next
  | succ rest ih =>
    have more : im.relDynStart + 24 * j + 24 < im.relDynEnd := by
      unfold Image.relDynEnd
      omega
    have following := next.step linked placed (show j + 1 < im.count by omega)
    rw [fixLoop, if_pos more]
    exact ih next (by omega) following

theorem relocateCode_applied (linked : Linked im mem) (placed : Placed im dest) :
    Applied im dest mem im.count (relocateCode im dest mem) := by
  have entries := linked.entries
  have elsewhere : dest ≠ im.start := by
    have nonempty := linked.nonempty
    have ordered := linked.ordered
    have apart := placed.apart
    unfold Image.copyEnd at ordered
    unfold Image.relDynEnd at apart
    omega
  have start : Applied im dest mem 0 (copyLoop mem dest im.start im.copyEnd) := by
    rw [copy_eq linked placed]
    exact applied_copy linked
  rw [relocateCode, if_neg elsewhere]
  exact start.run linked placed (show im.count = 0 + 1 + (im.count - 1) by omega)

/-- The destination always gets the image linked there. The source keeps its
content where the image is a multiple of sixteen bytes, or where the eight bytes
written past the destination are not of the source, or are what it held. -/
theorem relocate_code_iff (linked : Linked im mem) (placed : Placed im dest) :
    Relocated im dest mem (relocateCode im dest mem) ↔
      im.size % 16 = 0 ∨ ∀ i < 8, im.start ≤ dest + im.size + i → dest + im.size + i < im.relDynEnd →
        mem (dest + im.size + i) = mem (im.start + im.size + i) := by
  have applied := relocateCode_applied linked placed
  have spans := linked.span_eq
  have apart := placed.apart
  constructor
  · intro relocated
    rw [or_iff_not_imp_left]
    intro odd i small low high
    have kept := relocated.source (dest + im.size + i) low (by omega)
    have written := applied.outside (dest + im.size + i) (by omega)
    have place : im.start + (dest + im.size + i - dest) = im.start + im.size + i := by omega
    rw [← kept, written, copied, if_pos (by omega), place]
  · intro condition
    refine ⟨applied.words, ?_⟩
    intro cell low high
    rw [applied.outside cell (by omega), copied]
    by_cases past : dest ≤ cell ∧ cell < dest + span im.size
    · have same := condition.resolve_left (by omega) (cell - (dest + im.size)) (by omega) (by omega) (by omega)
      have place : dest + im.size + (cell - (dest + im.size)) = cell := by omega
      have origin : im.start + im.size + (cell - (dest + im.size)) = im.start + (cell - dest) := by omega
      rw [place, origin] at same
      rw [if_pos past, same]
    · exact if_neg past

/-- An image at 64 with a table of one entry, which sets its first word. -/
def small (size : Nat) : Image where
  start := 64
  size := size
  textBase := 256
  relDynStart := 64 + size
  count := 1

def smallMem (size : Nat) : Mem := fun cell =>
  if cell = 64 + size + 1 then 1 else if cell = 64 + size + 8 then 3 else if cell = 64 + size + 9 then 4
  else if cell = 64 + size + 17 then 1 else 0

private theorem small_linked (short : size = 8 ∨ size = 16) : Linked (small size) (smallMem size) := by
  rcases short with rfl | rfl
  all_goals
    refine ⟨by decide, by decide, by decide, by decide, by decide, by decide, ?_⟩
    intro j entry _
    have first : j = 0 := Nat.lt_one_iff.mp entry
    exact ⟨0, by decide, by rw [first]; decide⟩

theorem relocate_code_whole :
    Linked (small 16) (smallMem 16) ∧ Placed (small 16) 48 ∧
      Relocated (small 16) 48 (smallMem 16) (relocateCode (small 16) 48 (smallMem 16)) := by
  have linked : Linked (small 16) (smallMem 16) := small_linked (by decide)
  have placed : Placed (small 16) 48 := ⟨by decide, by decide⟩
  exact ⟨linked, placed, (relocate_code_iff linked placed).mpr (Or.inl (by decide))⟩

/-- Right below the image, the copy of an image of eight bytes overwrites it. -/
theorem relocate_code_overwrites :
    Linked (small 8) (smallMem 8) ∧ Placed (small 8) 56 ∧
      ¬ Relocated (small 8) 56 (smallMem 8) (relocateCode (small 8) 56 (smallMem 8)) := by
  have linked : Linked (small 8) (smallMem 8) := small_linked (by decide)
  have placed : Placed (small 8) 56 := ⟨by decide, by decide⟩
  refine ⟨linked, placed, ?_⟩
  intro relocated
  have kept := relocated.source 65 (by decide) (by decide)
  have written := (relocateCode_applied linked placed).outside 65 (by decide)
  rw [written] at kept
  revert kept
  decide

end RockOs.Relocation
