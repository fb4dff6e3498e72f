import Mathlib.Data.Nat.Basic
import Mathlib.Logic.Function.Basic
import Mathlib.Tactic.Ring

/-! Byte addressed memory with little-endian loads and stores of any width.
A load sees the store that covers exactly its bytes, and is untouched by one
that shares no byte with it. -/
namespace RockOs.ByteMemory

/-- One byte for each address. -/
abbrev Mem := Nat → UInt8

/-- The `width` bytes at `address`, least significant first. -/
def load (mem : Mem) : (address width : Nat) → Nat
  | _, 0 => 0
  | address, width + 1 => (mem address).toNat + 256 * load mem (address + 1) width

/-- Overwrite the `width` bytes at `address`. -/
def store (mem : Mem) (address width value : Nat) : Mem := fun cell =>
  if address ≤ cell ∧ cell < address + width then UInt8.ofNat (value / 256 ^ (cell - address)) else mem cell

/-- Fill `length` bytes with one value. -/
def memset (mem : Mem) (address : Nat) (byte : UInt8) (length : Nat) : Mem := fun cell =>
  if address ≤ cell ∧ cell < address + length then byte else mem cell

/-- Two memories hold the same bytes in `[address, address + length)`. -/
def Agree (first second : Mem) (address length : Nat) : Prop :=
  ∀ cell, address ≤ cell → cell < address + length → first cell = second cell

theorem Agree.trans (left : Agree first second address length)
    (right : Agree second third address length) : Agree first third address length :=
  fun cell low high => (left cell low high).trans (right cell low high)

theorem Agree.mono (same : Agree first second address length) (low : address ≤ within)
    (high : within + width ≤ address + length) : Agree first second within width :=
  fun cell above below => same cell (by omega) (by omega)

theorem load_lt (mem : Mem) (address width : Nat) : load mem address width < 256 ^ width := by
  induction width generalizing address with
  | zero => simp [load]
  | succ width ih =>
    have byte := (mem address).toNat_lt
    have rest := ih (address + 1)
    simp only [load, Nat.pow_succ]
    omega

/-- Loads of the same bytes, wherever they are. -/
theorem load_congr (same : ∀ i < width, first (address + i) = second (other + i)) :
    load first address width = load second other width := by
  induction width generalizing address other with
  | zero => rfl
  | succ width ih =>
    have rest : ∀ i < width, first (address + 1 + i) = second (other + 1 + i) := by
      intro i small
      rw [Nat.add_assoc, Nat.add_assoc, Nat.add_comm 1 i]
      exact same (i + 1) (by omega)
    have head : first address = second other := same 0 (by omega)
    rw [load, load, head, ih rest]

/-- A load is made of the loads of its two parts. -/
theorem load_split (mem : Mem) (address width rest : Nat) :
    load mem address (width + rest) = load mem address width + 256 ^ width * load mem (address + width) rest := by
  induction width generalizing address with
  | zero => simp [load]
  | succ width ih =>
    have place : address + 1 + width = address + (width + 1) := by omega
    rw [show width + 1 + rest = width + rest + 1 by omega, load, load, ih, place, Nat.pow_succ]
    ring

/-- A load depends on the bytes it covers only. -/
theorem load_agree (same : Agree first second address width) :
    load first address width = load second address width :=
  load_congr (fun i small => same (address + i) (by omega) (by omega))

/-- The bytes of a loaded value. -/
theorem load_byte (small : i < width) :
    UInt8.ofNat (load mem address width / 256 ^ i) = mem (address + i) := by
  induction width generalizing address i with
  | zero => omega
  | succ width ih =>
    have byte := (mem address).toNat_lt
    rw [load]
    cases i with
    | zero =>
      apply UInt8.toNat_inj.mp
      change _ = (mem address).toNat
      rw [Nat.pow_zero, Nat.div_one, UInt8.toNat_ofNat']
      omega
    | succ i =>
      have tail : UInt8.ofNat (load mem (address + 1) width / 256 ^ i) = mem (address + 1 + i) := ih (by omega)
      have rest : ((mem address).toNat + 256 * load mem (address + 1) width) / 256 = load mem (address + 1) width := by
        omega
      rw [Nat.pow_succ, Nat.mul_comm (256 ^ i), ← Nat.div_div_eq_div_mul, rest, tail, Nat.add_assoc, Nat.add_comm 1 i]

theorem store_agree (apart : address + width ≤ other ∨ other + length ≤ address) :
    Agree (store mem address width value) mem other length := by
  intro cell low high
  exact if_neg (by omega)

/-- The same store behind bytes that agree. -/
theorem Agree.store (same : Agree first second address length) (width value : Nat) :
    Agree (store first (address + length) width value) (store second (address + length) width value) address
      (length + width) := by
  intro cell low high
  unfold ByteMemory.store
  by_cases inside : address + length ≤ cell ∧ cell < address + length + width
  · rw [if_pos inside, if_pos inside]
  · rw [if_neg inside, if_neg inside]
    exact same cell low (by omega)

theorem memset_agree (apart : address + size ≤ other ∨ other + length ≤ address) :
    Agree (memset mem address byte size) mem other length := by
  intro cell low high
  exact if_neg (by omega)

/-- A store leaves every load that shares no byte with it alone. -/
theorem load_store_apart (apart : address + width ≤ other ∨ other + length ≤ address) :
    load (store mem address width value) other length = load mem other length :=
  load_agree (store_agree apart)

/-- The upper bytes of a store are the store of the upper part. -/
private theorem store_tail_agree :
    Agree (store mem address (width + 1) value) (store mem (address + 1) width (value / 256))
      (address + 1) width := by
  intro cell low high
  have inside : address ≤ cell ∧ cell < address + (width + 1) := by omega
  have tail : address + 1 ≤ cell ∧ cell < address + 1 + width := by omega
  have shift : cell - address = (cell - (address + 1)) + 1 := by omega
  simp only [store, if_pos inside, if_pos tail, shift, Nat.pow_succ]
  rw [Nat.mul_comm, Nat.div_div_eq_div_mul]

/-- A load of the bytes just stored gives the value back, cut to the width. -/
theorem load_store_same : load (store mem address width value) address width = value % 256 ^ width := by
  induction width generalizing address value with
  | zero => simp [load, Nat.mod_one]
  | succ width ih =>
    have head : store mem address (width + 1) value address = UInt8.ofNat value := by
      simp [store]
    have low : (UInt8.ofNat value).toNat = value % 256 := by
      simp
    rw [load, head, low, load_agree store_tail_agree, ih, Nat.pow_succ, Nat.mul_comm (256 ^ width),
      Nat.mod_mul]

/-- The address held in the eight bytes at `address`. -/
def loadPtr (mem : Mem) (address : Nat) : Nat := load mem address 8

/-- Hold an address in the eight bytes at `address`. -/
def storePtr (mem : Mem) (address pointer : Nat) : Mem := store mem address 8 pointer

theorem loadPtr_lt (mem : Mem) (address : Nat) : loadPtr mem address < 2 ^ 64 :=
  load_lt mem address 8

theorem loadPtr_storePtr_same (fits : pointer < 2 ^ 64) :
    loadPtr (storePtr mem address pointer) address = pointer := by
  rw [loadPtr, storePtr, load_store_same]
  exact Nat.mod_eq_of_lt fits

theorem loadPtr_storePtr_apart (apart : address + 8 ≤ other ∨ other + 8 ≤ address) :
    loadPtr (storePtr mem address pointer) other = loadPtr mem other :=
  load_store_apart apart

theorem storePtr_agree (apart : address + 8 ≤ other ∨ other + length ≤ address) :
    Agree (storePtr mem address pointer) mem other length :=
  store_agree apart

theorem loadPtr_agree (same : Agree first second address 8) :
    loadPtr first address = loadPtr second address :=
  load_agree same

/-- `length` bytes from `source` on, held at `address` as well. -/
def copied (mem : Mem) (address source length : Nat) : Mem := fun cell =>
  if address ≤ cell ∧ cell < address + length then mem (source + (cell - address)) else mem cell

theorem load_copied (inside : offset + width ≤ length) :
    load (copied mem address source length) (address + offset) width = load mem (source + offset) width := by
  apply load_congr
  intro i small
  have place : source + (address + offset + i - address) = source + offset + i := by omega
  rw [copied, if_pos (by omega), place]

theorem copied_none (mem : Mem) (address source : Nat) : copied mem address source 0 = mem := by
  funext cell
  exact if_neg (by omega)

/-- A word read before it is written is a copy. -/
theorem copied_word : storePtr mem address (loadPtr mem source) = copied mem address source 8 := by
  funext cell
  simp only [storePtr, loadPtr, store, copied]
  by_cases inside : address ≤ cell ∧ cell < address + 8
  · rw [if_pos inside, if_pos inside, load_byte (by omega)]
  · rw [if_neg inside, if_neg inside]

theorem copied_byte : Function.update mem address (mem source) = copied mem address source 1 := by
  funext cell
  unfold copied
  by_cases here : cell = address
  · subst here
    rw [Function.update_self, if_pos (by omega), Nat.sub_self, Nat.add_zero]
  · rw [Function.update_of_ne here, if_neg (by omega)]

/-- Two words read before either is written are one copy. -/
theorem copied_pair :
    storePtr (storePtr mem address (loadPtr mem source)) (address + 8) (loadPtr mem (source + 8)) =
      copied mem address source 16 := by
  funext cell
  simp only [storePtr, loadPtr, store, copied]
  by_cases second : address + 8 ≤ cell ∧ cell < address + 8 + 8
  · have place : source + 8 + (cell - (address + 8)) = source + (cell - address) := by omega
    rw [if_pos second, if_pos (by omega), load_byte (by omega), place]
  · rw [if_neg second]
    by_cases first : address ≤ cell ∧ cell < address + 8
    · rw [if_pos first, if_pos (by omega), load_byte (by omega)]
    · rw [if_neg first, if_neg (by omega)]

/-- Copies of consecutive stretches are one copy where the first does not write
what the second reads. -/
theorem copied_copied (forward : address ≤ source ∨ source + (first + rest) ≤ address) :
    copied (copied mem address source first) (address + first) (source + first) rest =
      copied mem address source (first + rest) := by
  funext cell
  unfold copied
  by_cases second : address + first ≤ cell ∧ cell < address + first + rest
  · have place : source + first + (cell - (address + first)) = source + (cell - address) := by omega
    rw [if_pos second, if_neg (by omega), if_pos (by omega), place]
  · rw [if_neg second]
    by_cases head : address ≤ cell ∧ cell < address + first
    · rw [if_pos head, if_pos (by omega)]
    · rw [if_neg head, if_neg (by omega)]

/-- The same from the end: the last stretch first, where it does not write what
the others read. -/
theorem copied_behind (backward : source ≤ address) :
    copied (copied mem (address + first) (source + first) rest) address source first =
      copied mem address source (first + rest) := by
  funext cell
  unfold copied
  by_cases head : address ≤ cell ∧ cell < address + first
  · rw [if_pos head, if_neg (by omega), if_pos (by omega)]
  · rw [if_neg head]
    by_cases tail : address + first ≤ cell ∧ cell < address + first + rest
    · have place : source + first + (cell - (address + first)) = source + (cell - address) := by omega
      rw [if_pos tail, if_pos (by omega), place]
    · rw [if_neg tail, if_neg (by omega)]

end RockOs.ByteMemory
