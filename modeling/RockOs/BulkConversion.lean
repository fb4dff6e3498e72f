import RockOs.Charset

/-! `utf16_to_utf8` against the concatenation of what its units stand for. A unit after an
unpaired high surrogate is looked at again while it has been counted already, so every such
surrogate costs the end of the text. -/
namespace RockOs.BulkConversion
open Charset UnicodeForms

/-- What one unit without a partner stands for. -/
def single (u : UInt16) : List UInt8 := if Surrogate u.toNat then [replacement] else encode8 u.toNat

/-- The bytes of every pair and of every other unit, and the replacement character for
every surrogate without a partner. -/
def converted : List UInt16 → List UInt8
  | [] => []
  | [u] => single u
  | u :: v :: units =>
    if HighSurrogate u.toNat ∧ LowSurrogate v.toNat then encode8 (pairCode u.toNat v.toNat) ++ converted units
    else single u ++ converted (v :: units)

/-- Every high surrogate stands in front of a low one. -/
def Paired : List UInt16 → Prop
  | [] => True
  | [u] => ¬ HighSurrogate u.toNat
  | u :: v :: units => (HighSurrogate u.toNat → LowSurrogate v.toNat) ∧ Paired (v :: units)

instance decidePaired : (units : List UInt16) → Decidable (Paired units)
  | [] => .isTrue trivial
  | [u] => inferInstanceAs (Decidable (¬ HighSurrogate u.toNat))
  | u :: v :: units =>
    have := decidePaired (v :: units)
    inferInstanceAs (Decidable ((HighSurrogate u.toNat → LowSurrogate v.toNat) ∧ Paired (v :: units)))

private theorem high_not_low (high : HighSurrogate c) : ¬ LowSurrogate c := by
  unfold HighSurrogate LowSurrogate at *
  omega

private theorem single_high (high : HighSurrogate u.toNat) : single u = [replacement] := by
  unfold HighSurrogate at high
  exact if_pos (by unfold Surrogate; omega)

private theorem converted_single (alone : ¬ HighSurrogate u.toNat ∨ ¬ LowSurrogate v.toNat) :
    converted (u :: v :: units) = single u ++ converted (v :: units) := by
  rw [converted, if_neg (not_and_or.mpr alone)]

private theorem converted_plain (plain : ¬ HighSurrogate u.toNat) :
    converted (u :: units) = single u ++ converted units := by
  cases units with
  | nil => exact (List.append_nil _).symm
  | cons v units => exact converted_single (.inl plain)

private theorem converted_pair (high : HighSurrogate u.toNat) (low : LowSurrogate v.toNat) :
    converted (u :: v :: units) = encode8 (pairCode u.toNat v.toNat) ++ converted units := by
  rw [converted, if_pos ⟨high, low⟩]

private theorem encode8_ne_nil (c : Nat) : encode8 c ≠ [] := by
  apply List.ne_nil_of_length_pos
  rw [encode8_length]
  split_ifs <;> decide

private theorem single_ne_nil (u : UInt16) : single u ≠ [] := by
  unfold single
  split
  · nofun
  · exact encode8_ne_nil _

private theorem converted_cons_ne_nil (u : UInt16) (units : List UInt16) : converted (u :: units) ≠ [] := by
  cases units with
  | nil => exact single_ne_nil u
  | cons v units =>
    rw [converted]
    split
    · exact List.append_ne_nil_of_left_ne_nil (encode8_ne_nil _) _
    · exact List.append_ne_nil_of_left_ne_nil (single_ne_nil u) _

private theorem converted_eq_nil : converted units = [] ↔ units = [] := by
  cases units with
  | nil => exact ⟨fun _ => rfl, fun _ => rfl⟩
  | cons u units => exact ⟨fun none => absurd none (converted_cons_ne_nil u units), nofun⟩

private theorem paired_cons (plain : ¬ HighSurrogate u.toNat) : Paired (u :: units) ↔ Paired units := by
  cases units with
  | nil => exact ⟨fun _ => trivial, fun _ => plain⟩
  | cons v units => exact ⟨fun paired => paired.2, fun paired => ⟨fun high => absurd high plain, paired⟩⟩

/-! ## The loop -/

private theorem next_unit {units : List UInt16} (left : units.drop pos = u :: src) :
    units[pos]? = some u ∧ units.drop (pos + 1) = src := by
  constructor
  · rw [← List.head?_drop, left]
    rfl
  · rw [← List.tail_drop, left]
    rfl

private theorem fourBytes_eq (range : 0x10000 ≤ c) (range' : c < 0x110000) : fourBytes c = encode8 c := by
  unfold fourBytes encode8
  rw [if_neg (by omega), if_neg (by omega), if_neg (by omega), lead_four (by omega), continuation_twelve,
    continuation_six, continuation]

private theorem pairCode_range (high : HighSurrogate h) (low : LowSurrogate l) :
    0x10000 ≤ pairCode h l ∧ pairCode h l < 0x110000 := by
  unfold HighSurrogate at high
  unfold LowSurrogate at low
  unfold pairCode
  omega

/-- A round with a high surrogate pending. -/
theorem bulkLoop_pending (left : units.drop pos = v :: src) (high : HighSurrogate h) :
    bulkLoop units (size + 1) pos h =
      if LowSurrogate v.toNat then (bulkLoop units size (pos + 1) 0).map (encode8 (pairCode h v.toNat) ++ ·)
      else (bulkLoop units size pos 0).map ([replacement] ++ ·) := by
  have pending : h ≠ 0 := by
    unfold HighSurrogate at high
    omega
  rw [bulkLoop, (next_unit left).1]
  dsimp only [bind, Option.bind_some]
  rw [if_pos pending]
  by_cases low : LowSurrogate v.toNat
  · have code : (h - 0xD800) <<< 10 + (v.toNat - 0xDC00) + 0x10000 = pairCode h v.toNat := by
      rw [pairCode, Nat.shiftLeft_eq]
    obtain ⟨range, range'⟩ := pairCode_range high low
    rw [if_pos low, if_pos (show 0xDC00 ≤ v.toNat ∧ v.toNat ≤ 0xDFFF from low), code, fourBytes_eq range range',
      Option.map_eq_bind]
    rfl
  · rw [if_neg low, if_neg (show ¬ (0xDC00 ≤ v.toNat ∧ v.toNat ≤ 0xDFFF) from low), Option.map_eq_bind]
    rfl

/-- A round with nothing pending. -/
theorem bulkLoop_plain (left : units.drop pos = u :: src) :
    bulkLoop units (size + 1) pos 0 =
      if HighSurrogate u.toNat then bulkLoop units size (pos + 1) u.toNat
      else (bulkLoop units size (pos + 1) 0).map (single u ++ ·) := by
  have range : u.toNat < 65536 := u.toNat_lt
  rw [bulkLoop, (next_unit left).1]
  dsimp only [bind, Option.bind_some]
  rw [if_neg (not_not.mpr rfl)]
  by_cases high : HighSurrogate u.toNat
  · have ends := high
    unfold HighSurrogate at ends
    rw [if_pos high, if_neg (by omega), if_neg (by omega), if_pos ends]
  rw [if_neg high, Option.map_eq_bind, single]
  by_cases low : LowSurrogate u.toNat
  · unfold LowSurrogate at low
    rw [if_neg (by omega), if_neg (by omega), if_neg (by omega), if_pos low, if_pos (by unfold Surrogate; omega)]
    rfl
  unfold HighSurrogate at high
  unfold LowSurrogate at low
  rw [if_neg (show ¬ Surrogate u.toNat by unfold Surrogate; omega), encode8]
  by_cases one : u.toNat < 0x80
  · rw [if_pos (by omega), if_pos one]
    rfl
  rw [if_neg (by omega), if_neg one]
  by_cases two : u.toNat < 0x800
  · rw [if_pos (by omega), if_pos two, lead_two two, continuation]
    rfl
  · rw [if_neg (by omega), if_neg high, if_neg low, if_pos range, if_neg two, if_pos range, lead_three range,
      continuation_six, continuation]
    rfl

/-- The bytes are a beginning of what the units stand for, and all of it where `whole`
holds. -/
def Covers (out : Option (List UInt8)) (units : List UInt16) (whole : Prop) : Prop :=
  ∃ bytes tail, out = some bytes ∧ converted units = bytes ++ tail ∧ (tail = [] ↔ whole)

theorem Covers.append (covers : Covers out units whole) (first : converted units' = bytes ++ converted units) :
    Covers (out.map (bytes ++ ·)) units' whole := by
  obtain ⟨later, tail, rfl, split, ended⟩ := covers
  exact ⟨bytes ++ later, tail, rfl, by rw [first, split, List.append_assoc], ended⟩

theorem Covers.congr (covers : Covers out units whole) (same : whole ↔ whole') : Covers out units whole' := by
  rwa [propext same] at covers

/-- By induction on the count, with nothing pending and with a high surrogate pending. The
count never exceeds the units that are left, and falls behind them for good when a
surrogate has no partner. -/
theorem bulkLoop_covers (units : List UInt16) (size : Nat) :
    (∀ pos src, units.drop pos = src → size ≤ src.length →
      Covers (bulkLoop units size pos 0) src (size = src.length ∧ Paired src)) ∧
    (∀ pos src h, units.drop pos = src → size ≤ src.length → HighSurrogate h.toNat →
      Covers (bulkLoop units size pos h.toNat) (h :: src) (size = src.length ∧ Paired (h :: src))) := by
  induction size with
  | zero =>
    constructor
    · intro pos src left bound
      refine ⟨[], converted src, rfl, rfl, ?_⟩
      rw [converted_eq_nil]
      constructor
      · rintro rfl
        exact ⟨rfl, trivial⟩
      · exact fun whole => List.eq_nil_of_length_eq_zero whole.1.symm
    · -- a surrogate that is pending at the end is not written
      intro pos src h left bound high
      refine ⟨[], converted (h :: src), rfl, rfl, fun none => absurd none (converted_cons_ne_nil h src), ?_⟩
      rintro ⟨ended, paired⟩
      rw [List.eq_nil_of_length_eq_zero ended.symm] at paired
      exact absurd high paired
  | succ size ih =>
    obtain ⟨plain, pending⟩ := ih
    constructor
    · intro pos src left bound
      cases src with
      | nil => cases bound
      | cons u src =>
        have later := (next_unit left).2
        have bound' := Nat.le_of_succ_le_succ bound
        rw [bulkLoop_plain left, List.length_cons, Nat.succ_inj]
        by_cases high : HighSurrogate u.toNat
        · rw [if_pos high]
          exact pending _ src u later bound' high
        · rw [if_neg high, paired_cons high]
          exact (plain _ src later bound').append (converted_plain high)
    · intro pos src h left bound high
      cases src with
      | nil => cases bound
      | cons v src =>
        rw [bulkLoop_pending left high, List.length_cons, Nat.succ_inj]
        by_cases low : LowSurrogate v.toNat
        · have bound' := Nat.le_of_succ_le_succ bound
          have partner : ¬ HighSurrogate v.toNat := fun high => high_not_low high low
          rw [if_pos low]
          refine ((plain _ src (next_unit left).2 bound').append (converted_pair high low)).congr ?_
          rw [← paired_cons partner]
          exact and_congr_right fun _ => ⟨fun paired => ⟨fun _ => low, paired⟩, fun paired => paired.2⟩
        · -- the unit stays, and has been counted: the units outnumber the rounds from here on
          rw [if_neg low, ← single_high high]
          refine ((plain pos (v :: src) left (Nat.le_of_succ_le bound)).append (converted_single (.inr low))).congr ?_
          constructor
          · rintro ⟨ended, -⟩
            omega
          · rintro ⟨-, paired⟩
            exact absurd (paired.1 high) low

/-- Nothing but the units is read, and what is written is a beginning of what they stand
for. It is all of that exactly if every high surrogate has its low one. -/
theorem bulk_conversion_iff (units : List UInt16) :
    ∃ bytes, utf16ToUtf8 units = some bytes ∧ bytes <+: converted units ∧ (bytes = converted units ↔ Paired units) := by
  obtain ⟨bytes, tail, result, split, whole⟩ := (bulkLoop_covers units units.length).1 0 units rfl (Nat.le_refl _)
  refine ⟨bytes, result, ⟨tail, split.symm⟩, ?_⟩
  rw [split, List.self_eq_append_right, whole]
  exact ⟨fun both => both.2, fun paired => ⟨rfl, paired⟩⟩

/-- The letter after a lone high surrogate is lost, and a high surrogate at the end leaves
no mark. -/
theorem lone_surrogate_loses :
    utf16ToUtf8 [0xD800, 0x61] = some [replacement] ∧ converted [0xD800, 0x61] = [replacement, 0x61] ∧
      utf16ToUtf8 [0x61, 0xD800] = some [0x61] ∧ converted [0x61, 0xD800] = [0x61, replacement] := by
  decide

end RockOs.BulkConversion
