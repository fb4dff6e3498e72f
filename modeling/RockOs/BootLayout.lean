import RockOs.Config
import RockOs.WordBits

/-! `common/board_f.c`: the steps of `init_sequence_f` that lay out memory from
the top of RAM downwards before relocation. Addresses are 64 bit words, so every
subtraction wraps. -/
namespace RockOs.BootLayout
open Config WordBits

/-- The fields of `gd_t` the reservations read and write. -/
structure GlobalData where
  flags : Nat
  ramBase : Nat
  ramTop : Nat
  ramSize : Nat
  monLen : Nat
  relocaddr : Nat
  startAddrSp : Nat
  newGd : Nat
  mallocBase : Nat
  mallocLimit : Nat

/-- What the build fixes. -/
structure Board where
  /-- `CONFIG_RELOC_SYS_TEXT_BASE`, when it is defined -/
  textBase : Option Nat
  /-- `sizeof(gd_t)` -/
  gdSize : Nat

/-- `GD_FLG_SKIP_RELOC`. -/
def gdFlgSkipReloc : Nat := 0x800

def roundDown (x y : Nat) : Nat := x - x % y

def getEffectiveMemsize (gd : GlobalData) : Nat := gd.ramSize

/-- RAM that ends below the text base has wrapped around the address space. -/
def boardGetUsableRamTop (board : Board) (gd : GlobalData) : Nat :=
  match board.textBase with
  | some textBase => if gd.ramTop < textBase then 0 else gd.ramTop
  | none => gd.ramTop

def setupDestAddr (board : Board) (gd : GlobalData) : GlobalData :=
  let gd := { gd with ramBase := board.textBase.getD gd.ramBase }
  let gd := { gd with ramTop := (gd.ramBase + getEffectiveMemsize gd) % 2 ^ 64 }
  let gd := { gd with ramTop := boardGetUsableRamTop board gd }
  { gd with relocaddr := gd.ramTop }

def reserveVmimage (gd : GlobalData) : GlobalData :=
  let gd :=
    if gd.flags &&& gdFlgSkipReloc = 0 then
      { gd with relocaddr := sub64 gd.relocaddr gd.monLen &&& (2 ^ 64 - 2 ^ 12) }
    else gd
  { gd with startAddrSp := gd.relocaddr }

def reserveGlobalData (board : Board) (gd : GlobalData) : GlobalData :=
  let gd := { gd with startAddrSp := sub64 gd.startAddrSp board.gdSize }
  { gd with newGd := gd.startAddrSp }

/-- The local `size` of `reserve_malloc`: the arena is shrunk where a full one
and the stack would reach below RAM. -/
def mallocSize (startAddrSp ramBase : Nat) : Nat :=
  if sub64 (sub64 startAddrSp mallocFLen) startAddrSpSize < ramBase then
    roundDown (sub64 (sub64 startAddrSp ramBase) startAddrSpSize) 4096
  else roundDown mallocFLen 4096

def reserveMalloc (gd : GlobalData) : GlobalData :=
  let gd := { gd with startAddrSp := roundDown gd.startAddrSp 4096 }
  let size := mallocSize gd.startAddrSp gd.ramBase
  let gd := { gd with startAddrSp := sub64 gd.startAddrSp size }
  { gd with mallocBase := gd.startAddrSp, mallocLimit := size }

def reserveStacks (gd : GlobalData) : GlobalData :=
  { gd with startAddrSp := sub64 gd.startAddrSp 16 &&& (2 ^ 64 - 2 ^ 4) }

/-- The reservations in the order of `init_sequence_f`. Without
`CONFIG_ARMV8_CACHE` the step `reserve_mmu` between them does nothing. -/
def reserve (board : Board) (gd : GlobalData) : GlobalData :=
  reserveStacks (reserveMalloc (reserveGlobalData board (reserveVmimage (setupDestAddr board gd))))

/-- The ranges `[start, start + length)` and `[start', start' + length')` have no
byte in common. -/
def Apart (start length start' length' : Nat) : Prop :=
  start + length ≤ start' ∨ start' + length' ≤ start

/-- Where relocation puts the image, the global data, the arena of `malloc` and
the stack. -/
structure Layout (board : Board) (gd : GlobalData) : Prop where
  image_data : Apart gd.relocaddr gd.monLen gd.newGd board.gdSize
  image_arena : Apart gd.relocaddr gd.monLen gd.mallocBase gd.mallocLimit
  data_arena : Apart gd.newGd board.gdSize gd.mallocBase gd.mallocLimit
  image_inside : gd.ramBase ≤ gd.relocaddr ∧ gd.relocaddr + gd.monLen ≤ gd.ramTop
  data_inside : gd.ramBase ≤ gd.newGd ∧ gd.newGd + board.gdSize ≤ gd.ramTop
  arena_inside : gd.ramBase ≤ gd.mallocBase ∧ gd.mallocBase + gd.mallocLimit ≤ gd.ramTop
  arena_aligned : 4096 ∣ gd.mallocBase
  limit_aligned : 4096 ∣ gd.mallocLimit
  limit_pages : gd.mallocLimit ≤ pagingPages * 4096
  stack_aligned : 16 ∣ gd.startAddrSp
  stack_below : gd.startAddrSp ≤ gd.mallocBase
  stack_room : gd.ramBase + (startAddrSpSize - 16) ≤ gd.startAddrSp

/-- The page boundary below the new global data, where the arena ends. -/
def arenaEnd (base size monLen gdSize : Nat) : Nat :=
  ((base + size - monLen) / 4096 * 4096 - gdSize) / 4096 * 4096

private theorem roundDown_eq (x y : Nat) : roundDown x y = x / y * y := by
  unfold roundDown
  have split := Nat.div_add_mod x y
  rw [Nat.mul_comm] at split
  omega

/-- RAM that does not wrap is used up to its end. -/
theorem setupDestAddr_eq (fits : board.textBase.getD gd.ramBase + gd.ramSize < 2 ^ 64) :
    setupDestAddr board gd =
      { gd with
        ramBase := board.textBase.getD gd.ramBase
        ramTop := board.textBase.getD gd.ramBase + gd.ramSize
        relocaddr := board.textBase.getD gd.ramBase + gd.ramSize } := by
  cases defined : board.textBase with
  | none =>
    rw [defined, Option.getD_none] at fits
    simp only [setupDestAddr, boardGetUsableRamTop, getEffectiveMemsize, defined, Option.getD_none,
      Nat.mod_eq_of_lt fits]
  | some textBase =>
    rw [defined, Option.getD_some] at fits
    have above : ¬ textBase + gd.ramSize < textBase := by omega
    simp only [setupDestAddr, boardGetUsableRamTop, getEffectiveMemsize, defined, Option.getD_some,
      Nat.mod_eq_of_lt fits, above, if_false]

private theorem reserveVmimage_eq (gd : GlobalData) (on : gd.flags &&& gdFlgSkipReloc = 0)
    (room : gd.monLen ≤ gd.relocaddr) (fits : gd.relocaddr < 2 ^ 64) :
    reserveVmimage gd =
      { gd with
        relocaddr := (gd.relocaddr - gd.monLen) / 4096 * 4096
        startAddrSp := (gd.relocaddr - gd.monLen) / 4096 * 4096 } := by
  have rounds : (gd.relocaddr - gd.monLen) &&& (2 ^ 64 - 2 ^ 12) = (gd.relocaddr - gd.monLen) / 2 ^ 12 * 2 ^ 12 :=
    and_high_mask (by omega) (by decide)
  simp only [reserveVmimage, on, if_true, sub64_of_le room fits, rounds]
  rfl

private theorem reserveGlobalData_eq (board : Board) (gd : GlobalData) (room : board.gdSize ≤ gd.startAddrSp)
    (fits : gd.startAddrSp < 2 ^ 64) :
    reserveGlobalData board gd =
      { gd with startAddrSp := gd.startAddrSp - board.gdSize, newGd := gd.startAddrSp - board.gdSize } := by
  simp only [reserveGlobalData, sub64_of_le room fits]

/-- Where the comparison does not wrap, the arena is whole pages, at most
`CONFIG_MALLOC_F_LEN`, and leaves the stack its room above RAM's base. -/
theorem mallocSize_fits (high : mallocFLen + startAddrSpSize ≤ sp) (room : base + startAddrSpSize ≤ sp)
    (fits : sp < 2 ^ 64) :
    4096 ∣ mallocSize sp base ∧ mallocSize sp base ≤ mallocFLen ∧
      base + startAddrSpSize + mallocSize sp base ≤ sp := by
  unfold mallocSize
  obtain ⟨arena, stack⟩ : mallocFLen = 65536 ∧ startAddrSpSize = 8192 := ⟨rfl, rfl⟩
  rw [sub64_of_le (show mallocFLen ≤ sp by omega) fits, sub64_of_le (by omega) (by omega),
    sub64_of_le (show base ≤ sp by omega) fits, sub64_of_le (by omega) (by omega), roundDown_eq, roundDown_eq,
    arena, stack]
  split <;> omega

/-- Where it wraps, the difference is above every address of RAM and the arena is
not shrunk. -/
theorem mallocSize_wrapped (low : sp < mallocFLen + startAddrSpSize) (room : base ≤ sp) :
    mallocSize sp base = mallocFLen := by
  obtain ⟨arena, stack⟩ : mallocFLen = 65536 ∧ startAddrSpSize = 8192 := ⟨rfl, rfl⟩
  have wrapped : ¬ sub64 (sub64 sp mallocFLen) startAddrSpSize < base := by
    unfold sub64
    omega
  rw [mallocSize, if_neg wrapped]
  rfl

private theorem reserveStacks_eq (gd : GlobalData) :
    reserveStacks gd = { gd with startAddrSp := sub64 gd.startAddrSp 16 / 16 * 16 } := by
  have word : sub64 gd.startAddrSp 16 < 2 ^ 64 := Nat.mod_lt _ (by decide)
  have rounds : sub64 gd.startAddrSp 16 &&& (2 ^ 64 - 2 ^ 4) = sub64 gd.startAddrSp 16 / 2 ^ 4 * 2 ^ 4 :=
    and_high_mask word (by decide)
  simp only [reserveStacks, rounds]
  rfl

/-- The layout as a function of the size `reserve_malloc` chooses. -/
theorem reserve_eq (on : gd.flags &&& gdFlgSkipReloc = 0) (base_eq : board.textBase.getD gd.ramBase = base)
    (fits : base + gd.ramSize < 2 ^ 64)
    (large : gd.monLen + board.gdSize + 2 * 4096 + startAddrSpSize ≤ gd.ramSize)
    (sp_eq : arenaEnd base gd.ramSize gd.monLen board.gdSize = sp)
    (sized : mallocSize sp base = size) :
    reserve board gd =
      { gd with
        ramBase := base
        ramTop := base + gd.ramSize
        relocaddr := (base + gd.ramSize - gd.monLen) / 4096 * 4096
        startAddrSp := sub64 (sub64 sp size) 16 / 16 * 16
        newGd := (base + gd.ramSize - gd.monLen) / 4096 * 4096 - board.gdSize
        mallocBase := sub64 sp size
        mallocLimit := size } := by
  subst base_eq sp_eq sized
  have image := reserveVmimage_eq (setupDestAddr board gd) on
  have data := reserveGlobalData_eq board (reserveVmimage (setupDestAddr board gd))
  rw [setupDestAddr_eq fits] at image data
  dsimp only at image
  rw [image (by omega) (by omega)] at data
  dsimp only at data
  unfold reserve
  rw [setupDestAddr_eq fits, image (by omega) (by omega), data (by omega) (by omega), reserveMalloc]
  simp only [roundDown_eq]
  exact reserveStacks_eq _

private theorem arenaEnd_bounds (base : Nat) (large : monLen + gdSize + 2 * 4096 + startAddrSpSize ≤ size) :
    4096 ∣ arenaEnd base size monLen gdSize ∧ base + startAddrSpSize ≤ arenaEnd base size monLen gdSize ∧
      arenaEnd base size monLen gdSize ≤ (base + size - monLen) / 4096 * 4096 - gdSize := by
  unfold arenaEnd
  refine ⟨Nat.dvd_mul_left _ _, ?_, Nat.div_mul_le_self _ _⟩
  omega

/-- An arena of whole pages between the stack and the global data gives a sound
layout. -/
theorem layout_of_size (on : gd.flags &&& gdFlgSkipReloc = 0) (base_eq : board.textBase.getD gd.ramBase = base)
    (fits : base + gd.ramSize < 2 ^ 64)
    (large : gd.monLen + board.gdSize + 2 * 4096 + startAddrSpSize ≤ gd.ramSize)
    (sp_eq : arenaEnd base gd.ramSize gd.monLen board.gdSize = sp) (sized : mallocSize sp base = size)
    (whole : 4096 ∣ size) (most : size ≤ mallocFLen) (left : base + startAddrSpSize + size ≤ sp) :
    Layout board (reserve board gd) := by
  obtain ⟨page, -, below⟩ := arenaEnd_bounds base large
  rw [reserve_eq on base_eq fits large sp_eq sized]
  rw [sp_eq] at page below
  obtain ⟨arena, stack⟩ : mallocFLen = 65536 ∧ startAddrSpSize = 8192 := ⟨rfl, rfl⟩
  clear sized sp_eq
  rw [sub64_of_le (show size ≤ sp by omega) (by omega), sub64_of_le (show 16 ≤ sp - size by omega) (by omega)]
  constructor
  case stack_aligned => exact Nat.dvd_mul_left _ _
  case arena_aligned => exact Nat.dvd_sub page whole
  case limit_aligned => exact whole
  case limit_pages => exact most
  case stack_room => rw [stack]; dsimp only; omega
  all_goals dsimp only [Apart]; omega

/-- The layout is sound exactly when the end of the arena is at least
`CONFIG_MALLOC_F_LEN + CONFIG_START_ADDR_SP_SIZE` above address zero: below that
the test for a small memory wraps and the arena is not shrunk. -/
theorem boot_layout_iff (board : Board) (gd : GlobalData) (on : gd.flags &&& gdFlgSkipReloc = 0)
    (fits : board.textBase.getD gd.ramBase + gd.ramSize < 2 ^ 64)
    (large : gd.monLen + board.gdSize + 2 * 4096 + startAddrSpSize ≤ gd.ramSize) :
    Layout board (reserve board gd) ↔
      mallocFLen + startAddrSpSize ≤
        arenaEnd (board.textBase.getD gd.ramBase) gd.ramSize gd.monLen board.gdSize := by
  obtain ⟨-, room, below⟩ := arenaEnd_bounds (board.textBase.getD gd.ramBase) large
  generalize base_eq : board.textBase.getD gd.ramBase = base at fits room below ⊢
  generalize sp_eq : arenaEnd base gd.ramSize gd.monLen board.gdSize = sp at room below ⊢
  obtain ⟨arena, stack⟩ : mallocFLen = 65536 ∧ startAddrSpSize = 8192 := ⟨rfl, rfl⟩
  constructor
  · intro laid
    by_contra low
    have sized : mallocSize sp base = mallocFLen := mallocSize_wrapped (by omega) (by omega)
    rw [reserve_eq on base_eq fits large sp_eq sized] at laid
    have inside := laid.arena_inside
    have above := laid.stack_room
    have under := laid.stack_below
    dsimp only at inside above under
    unfold sub64 at inside above under
    omega
  · intro high
    obtain ⟨whole, most, left⟩ := mallocSize_fits high room (by omega)
    exact layout_of_size on base_eq fits large sp_eq rfl whole most left

theorem boot_layout_board :
    Layout ⟨some 0x2000000, 232⟩
      (reserve ⟨some 0x2000000, 232⟩ ⟨0, 0, 0, relocSysBlockSize, 0x12345, 0, 0, 0, 0, 0⟩) :=
  (boot_layout_iff ⟨some 0x2000000, 232⟩ ⟨0, 0, 0, relocSysBlockSize, 0x12345, 0, 0, 0, 0, 0⟩
    (by decide) (by decide) (by decide)).mpr (by decide)

/-- 48 KiB of RAM at address zero and an image of one page: the arena starts
below zero, at the top of the address space. -/
theorem boot_layout_low :
    (reserve ⟨some 0, 232⟩ ⟨0, 0, 0, 0xc000, 0x1000, 0, 0, 0, 0, 0⟩).mallocBase = 2 ^ 64 - 0x6000 ∧
      ¬ Layout ⟨some 0, 232⟩ (reserve ⟨some 0, 232⟩ ⟨0, 0, 0, 0xc000, 0x1000, 0, 0, 0, 0, 0⟩) := by
  have based : (reserve ⟨some 0, 232⟩ ⟨0, 0, 0, 0xc000, 0x1000, 0, 0, 0, 0, 0⟩).mallocBase = 2 ^ 64 - 0x6000 := by
    decide
  refine ⟨based, fun laid => ?_⟩
  have inside := laid.arena_inside.2
  rw [based] at inside
  exact absurd inside (by decide)

end RockOs.BootLayout
