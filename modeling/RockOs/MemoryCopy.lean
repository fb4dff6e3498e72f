import RockOs.ByteMemory

/-! `memcpy` and `memmove` of `lib/string.c`, which return `dest`. `memmove` leaves
the copy downwards to `memcpy`, which goes by whole words where both pointers are
aligned, and copies upwards from the end. Ranges do not wrap, so pointers are
natural numbers. -/
namespace RockOs.MemoryCopy
open ByteMemory

/-! ## The code -/

/-- `while (count >= sizeof(*dl))`: memory, `dl`, `sl` and `count`. -/
def wordLoop (mem : Mem) (dl sl count : Nat) : Mem × Nat × Nat × Nat :=
  if 8 ≤ count then wordLoop (storePtr mem dl (loadPtr mem sl)) (dl + 8) (sl + 8) (count - 8)
  else (mem, dl, sl, count)
termination_by count

/-- `while (count--) *d8++ = *s8++`. -/
def byteLoop : (count : Nat) → (mem : Mem) → (d8 s8 : Nat) → Mem
  | 0, mem, _, _ => mem
  | count + 1, mem, d8, s8 => byteLoop count (Function.update mem d8 (mem s8)) (d8 + 1) (s8 + 1)

def memcpy (mem : Mem) (dest src count : Nat) : Mem :=
  if src = dest then mem
  else
    let (mem, dl, sl, count) :=
      if (dest ||| src) &&& (8 - 1) = 0 then wordLoop mem dest src count else (mem, dest, src, count)
    byteLoop count mem dl sl

/-- `while (count--) *--tmp = *--s`. -/
def backLoop : (count : Nat) → (mem : Mem) → (tmp s : Nat) → Mem
  | 0, mem, _, _ => mem
  | count + 1, mem, tmp, s => backLoop count (Function.update mem (tmp - 1) (mem (s - 1))) (tmp - 1) (s - 1)

def memmove (mem : Mem) (dest src count : Nat) : Mem :=
  if dest ≤ src then memcpy mem dest src count else backLoop count mem (dest + count) (src + count)

/-! ## What each loop copies -/

private theorem byteLoop_eq (downward : d8 ≤ s8) : byteLoop count mem d8 s8 = copied mem d8 s8 count := by
  induction count generalizing mem d8 s8 with
  | zero => exact (copied_none mem d8 s8).symm
  | succ count ih =>
    rw [byteLoop, copied_byte, ih (Nat.succ_le_succ downward), copied_copied (.inl downward), Nat.add_comm]

/-- A word may be stored over the rest of the source: what is read next is behind it. -/
theorem wordLoop_eq (downward : dl ≤ sl) :
    wordLoop mem dl sl count =
      (copied mem dl sl (8 * (count / 8)), dl + 8 * (count / 8), sl + 8 * (count / 8), count % 8) := by
  induction count using Nat.strongRecOn generalizing mem dl sl with
  | ind count ih =>
    rw [wordLoop]
    by_cases more : 8 ≤ count
    · have words : 8 * (count / 8) = 8 + 8 * ((count - 8) / 8) := by omega
      have rest : (count - 8) % 8 = count % 8 := by omega
      rw [if_pos more, ih (count - 8) (by omega) (Nat.add_le_add_right downward 8), copied_word,
        copied_copied (.inl downward), words, rest, Nat.add_assoc, Nat.add_assoc]
    · have none : count / 8 = 0 := by omega
      rw [if_neg more, none, Nat.mul_zero, copied_none, Nat.mod_eq_of_lt (by omega), Nat.add_zero, Nat.add_zero]

private theorem memcpy_eq (downward : dest ≤ src) : memcpy mem dest src count = copied mem dest src count := by
  unfold memcpy
  by_cases same : src = dest
  · rw [if_pos same, same]
    funext cell
    unfold copied
    split
    · next inside => rw [Nat.add_sub_cancel' inside.1]
    · rfl
  · rw [if_neg same]
    by_cases aligned : (dest ||| src) &&& (8 - 1) = 0
    · rw [if_pos aligned, wordLoop_eq downward]
      dsimp only
      rw [byteLoop_eq (by omega), copied_copied (.inl downward), Nat.div_add_mod]
    · rw [if_neg aligned]
      exact byteLoop_eq downward

private theorem backLoop_eq (upward : src ≤ dest) :
    backLoop count mem (dest + count) (src + count) = copied mem dest src count := by
  induction count generalizing mem with
  | zero => exact (copied_none mem dest src).symm
  | succ count ih =>
    have last : dest + (count + 1) - 1 = dest + count := by omega
    have last' : src + (count + 1) - 1 = src + count := by omega
    rw [backLoop, last, last', copied_byte, ih, copied_behind upward]

private theorem memmove_eq (mem : Mem) (dest src count : Nat) :
    memmove mem dest src count = copied mem dest src count := by
  unfold memmove
  split
  · next downward => exact memcpy_eq downward
  · next upward => exact backLoop_eq (by omega)

/-- Whatever the alignment and the overlap, the bytes at `dest` are those that were at
`src`, and no other byte changes. -/
theorem memmove_overlap (mem : Mem) (dest src count : Nat) :
    (∀ i < count, memmove mem dest src count (dest + i) = mem (src + i)) ∧
      ∀ cell, cell < dest ∨ dest + count ≤ cell → memmove mem dest src count cell = mem cell := by
  rw [memmove_eq]
  constructor
  · intro i inside
    rw [copied, if_pos (by omega), Nat.add_sub_cancel_left]
  · intro cell outside
    exact if_neg (by omega)

end RockOs.MemoryCopy
