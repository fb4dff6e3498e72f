import Mathlib.Data.Nat.Bitwise
import RockOs.ByteMemory

/-! `memchr_inv` of `lib/string.c`: bytes up to an aligned address, then 64 bit words,
then the bytes behind them. The words are counted in an `unsigned int`, so a range of
32 GiB or more is scanned in part only. -/
namespace RockOs.MemoryScan
open ByteMemory

/-! ## The code -/

/-- `NULL`. -/
def null : Nat := 0

def checkBytes8 (mem : Mem) (value : UInt8) : (bytes start : Nat) → Nat
  | 0, _ => null
  | bytes + 1, start => if mem start ≠ value then start else checkBytes8 mem value bytes (start + 1)

/-- The eight copies of a byte. -/
def value64 (value : UInt8) : Nat :=
  let word := value.toNat
  let word := word ||| word <<< 8
  let word := word ||| word <<< 16
  word ||| word <<< 32

/-- The loop over the words, and the bytes that are left behind them. -/
def wordLoop (mem : Mem) (value : UInt8) (left : Nat) : (words start : Nat) → Nat
  | 0, start => checkBytes8 mem value left start
  | words + 1, start =>
    if loadPtr mem start ≠ value64 value then checkBytes8 mem value 8 start
    else wordLoop mem value left words (start + 8)

/-- From an aligned address on. -/
def scanWords (mem : Mem) (value : UInt8) (start bytes : Nat) : Nat :=
  wordLoop mem value (bytes % 8) (bytes / 8 % 2 ^ 32) start

/-- `u8 value = c`. -/
def byteOf (c : Int) : UInt8 := UInt8.ofNat (c % 256).toNat

def memchrInv (mem : Mem) (start : Nat) (c : Int) (bytes : Nat) : Nat :=
  let value := byteOf c
  if bytes ≤ 16 then checkBytes8 mem value bytes start
  else if start % 8 ≠ 0 then
    let head := 8 - start % 8
    let r := checkBytes8 mem value head start
    if r ≠ null then r else scanWords mem value (start + head) (bytes - head)
  else scanWords mem value start bytes

/-! ## The first other byte -/

/-- All bytes have the value. -/
def Same (mem : Mem) (value : UInt8) (start length : Nat) : Prop := ∀ i < length, mem (start + i) = value

/-- The first byte that has another value is at `address`. -/
def Other (mem : Mem) (value : UInt8) (start length address : Nat) : Prop :=
  ∃ i < length, address = start + i ∧ mem address ≠ value ∧ Same mem value start i

/-- The result of a scan of `length` bytes, byte by byte. -/
def First (mem : Mem) (value : UInt8) (start length result : Nat) : Prop :=
  Same mem value start length ∧ result = null ∨ Other mem value start length result

theorem Other.longer (found : Other mem value start length address) (more : length ≤ total) :
    Other mem value start total address := by
  obtain ⟨i, inside, rest⟩ := found
  exact ⟨i, Nat.lt_of_lt_of_le inside more, rest⟩

theorem Other.differs (found : Other mem value start length address) : ∃ i < length, mem (start + i) ≠ value := by
  obtain ⟨i, inside, rfl, other, _⟩ := found
  exact ⟨i, inside, other⟩

theorem Same.append (front : Same mem value start length) (back : Same mem value (start + length) more) :
    Same mem value start (length + more) := by
  intro i inside
  by_cases early : i < length
  · exact front i early
  · have place : start + length + (i - length) = start + i := by omega
    exact place ▸ back (i - length) (by omega)

theorem Same.first (same : Same mem value start length) (rest : First mem value (start + length) more result) :
    First mem value start (length + more) result := by
  rcases rest with ⟨back, nothing⟩ | ⟨i, inside, place, other, before⟩
  · exact .inl ⟨same.append back, nothing⟩
  · exact .inr ⟨length + i, by omega, by omega, other, same.append before⟩

private theorem checkBytes8_first (mem : Mem) (value : UInt8) (bytes start : Nat) :
    First mem value start bytes (checkBytes8 mem value bytes start) := by
  induction bytes generalizing start with
  | zero => exact .inl ⟨fun i inside => absurd inside (Nat.not_lt_zero i), rfl⟩
  | succ bytes ih =>
    rw [checkBytes8]
    by_cases other : mem start ≠ value
    · rw [if_pos other]
      exact .inr ⟨0, by omega, rfl, other, fun j before => absurd before (Nat.not_lt_zero j)⟩
    · rw [if_neg other, Nat.add_comm bytes]
      refine Same.first (fun i inside => ?_) (ih (start + 1))
      rw [Nat.lt_one_iff.mp inside]
      exact not_not.mp other

/-! ## Words -/

private theorem value64_eq (value : UInt8) (start : Nat) : value64 value = loadPtr (fun _ => value) start := by
  have copies : ∀ byte < 256, (let word := byte ||| byte <<< 8
      let word := word ||| word <<< 16
      word ||| word <<< 32) = 0x0101010101010101 * byte := by
    decide +kernel
  have product : value64 value = 0x0101010101010101 * value.toNat := copies value.toNat value.toNat_lt
  rw [product]
  simp only [loadPtr, load]
  omega

/-- A word differs from the eight copies if one of its bytes differs. -/
theorem word_eq_iff : loadPtr mem start = value64 value ↔ Same mem value start 8 := by
  rw [value64_eq value start]
  constructor
  · intro same i inside
    have byte (mem : Mem) : UInt8.ofNat (loadPtr mem start / 256 ^ i) = mem (start + i) := load_byte inside
    rw [← byte mem, same]
    exact byte fun _ => value
  · intro same
    exact load_congr same

private theorem wordLoop_first (mem : Mem) (value : UInt8) (left words start : Nat) :
    First mem value start (8 * words + left) (wordLoop mem value left words start) := by
  induction words generalizing start with
  | zero =>
    rw [wordLoop, Nat.mul_zero, Nat.zero_add]
    exact checkBytes8_first mem value left start
  | succ words ih =>
    rw [wordLoop]
    by_cases same : loadPtr mem start = value64 value
    · rw [if_neg (not_not.mpr same), Nat.mul_succ, Nat.add_comm (8 * words), Nat.add_assoc]
      exact (word_eq_iff.mp same).first (ih (start + 8))
    · rw [if_pos same]
      rcases checkBytes8_first mem value 8 start with ⟨all, _⟩ | found
      · exact absurd (word_eq_iff.mpr all) same
      · exact .inr (found.longer (by omega))

/-! ## The whole scan -/

/-- How many bytes of the range are looked at where all are equal to the value. -/
def covered (start bytes : Nat) : Nat :=
  if bytes ≤ 16 then bytes
  else
    let head := (8 - start % 8) % 8
    head + (8 * ((bytes - head) / 8 % 2 ^ 32) + (bytes - head) % 8)

private theorem covered_eq (short : bytes < 2 ^ 35) : covered start bytes = bytes := by
  unfold covered
  split
  · rfl
  · dsimp only
    omega

private theorem covered_le (start bytes : Nat) : covered start bytes ≤ bytes := by
  unfold covered
  split
  · exact Nat.le_refl _
  · dsimp only
    omega

private theorem memchrInv_first (mem : Mem) (start : Nat) (c : Int) (bytes : Nat) :
    First mem (byteOf c) start (covered start bytes) (memchrInv mem start c bytes) := by
  unfold memchrInv covered
  dsimp only
  by_cases small : bytes ≤ 16
  · rw [if_pos small, if_pos small]
    exact checkBytes8_first mem (byteOf c) bytes start
  rw [if_neg small, if_neg small]
  by_cases unaligned : start % 8 ≠ 0
  · have head : (8 - start % 8) % 8 = 8 - start % 8 := by omega
    rw [if_pos unaligned, head]
    rcases checkBytes8_first mem (byteOf c) (8 - start % 8) start with ⟨same, nothing⟩ | found
    · rw [if_neg (not_not.mpr nothing)]
      exact same.first (wordLoop_first mem (byteOf c) _ _ _)
    · -- an unaligned address is not NULL
      have some : checkBytes8 mem (byteOf c) (8 - start % 8) start ≠ null := by
        obtain ⟨i, _, place, _⟩ := found
        rw [place, null]
        omega
      rw [if_pos some]
      exact .inr (found.longer (Nat.le_add_right _ _))
  · have none : (8 - start % 8) % 8 = 0 := by omega
    rw [if_neg unaligned, none, Nat.zero_add, Nat.sub_zero]
    exact wordLoop_first mem (byteOf c) _ _ _

/-- `memchr_inv` finds what a scan byte by byte finds in a range of less than 32 GiB; in
any range it does so if another byte of the range is not hidden by the bytes it looks at
all being equal. The one byte that it need not look at is the first one at `NULL`. -/
theorem memchr_inv_iff (mem : Mem) (start : Nat) (c : Int) (bytes : Nat) :
    (bytes < 2 ^ 35 → covered start bytes = bytes) ∧
      (First mem (byteOf c) start bytes (memchrInv mem start c bytes) ↔
        ((∃ i < bytes, mem (start + i) ≠ byteOf c) →
          (∃ i < covered start bytes, mem (start + i) ≠ byteOf c) ∨ start = null ∧ mem null ≠ byteOf c)) := by
  refine ⟨covered_eq, ?_⟩
  rcases memchrInv_first mem start c bytes with ⟨same, nothing⟩ | found
  · have unseen : ¬ ∃ i < covered start bytes, mem (start + i) ≠ byteOf c := by
      rintro ⟨i, early, other⟩
      exact other (same i early)
    rw [nothing, or_iff_right unseen]
    constructor
    · rintro (⟨all, _⟩ | ⟨i, _, place, other, _⟩)
      · rintro ⟨i, inside, other⟩
        exact absurd (all i inside) other
      · have first : start = null := (Nat.add_eq_zero_iff.mp place.symm).1
        exact fun _ => ⟨first, other⟩
    · intro hidden
      by_cases all : Same mem (byteOf c) start bytes
      · exact .inl ⟨all, rfl⟩
      · obtain ⟨i, inside, differs⟩ : ∃ i < bytes, mem (start + i) ≠ byteOf c := by
          simpa only [Same, not_forall, exists_prop] using all
        obtain ⟨rfl, other⟩ := hidden ⟨i, inside, differs⟩
        exact .inr ⟨0, Nat.zero_lt_of_lt inside, rfl, other, fun j before => absurd before (Nat.not_lt_zero j)⟩
  · exact iff_of_true (.inr (found.longer (covered_le start bytes))) fun _ => .inl found.differs

/-- Of 32 GiB not even the first byte is looked at. -/
theorem memchr_inv_words :
    memchrInv (fun _ => 1) 8 0 (2 ^ 35) = null ∧
      ¬ First (fun _ => 1) (byteOf 0) 8 (2 ^ 35) (memchrInv (fun _ => 1) 8 0 (2 ^ 35)) := by
  have missed : memchrInv (fun _ => 1) 8 0 (2 ^ 35) = null := by decide +kernel
  refine ⟨missed, ?_⟩
  rw [missed]
  rintro (⟨all, _⟩ | ⟨i, _, place, _⟩)
  · exact absurd (all 0 (by decide)) (by decide)
  · rw [null] at place
    omega

end RockOs.MemoryScan
