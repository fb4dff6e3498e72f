import Mathlib.Data.List.Nodup
import Mathlib.Data.Finset.Card

/-! Null terminated chains. `Linked next first items` says that following
`next` from `first` visits exactly `items` and then the null address. A walk
over a fixed chain either stops or revisits an address, so a walk is given as
many steps as there are addresses: running out is an endless loop. -/
namespace RockOs.LinkedChain

/-- Following `next` from `first` visits `items` in order and ends at null. -/
def Linked (next : Nat → Nat) : Nat → List Nat → Prop
  | first, [] => first = 0
  | first, item :: items => first = item ∧ item ≠ 0 ∧ Linked next (next item) items

variable {next other : Nat → Nat} {first : Nat} {items : List Nat}

@[simp] theorem linked_nil : Linked next first [] ↔ first = 0 := Iff.rfl

@[simp] theorem linked_cons : Linked next first (item :: items) ↔
    first = item ∧ item ≠ 0 ∧ Linked next (next item) items := Iff.rfl

theorem Linked.head (chain : Linked next first items) : first = items.headD 0 := by
  cases items with
  | nil => exact chain
  | cons item items => exact chain.1

theorem Linked.head_lt (chain : Linked next first items) (positive : 0 < bound)
    (bounded : ∀ item ∈ items, item < bound) : first < bound := by
  cases items with
  | nil => exact chain ▸ positive
  | cons item items => exact chain.1 ▸ bounded item (by simp)

theorem Linked.eq_nil_iff (chain : Linked next first items) : first = 0 ↔ items = [] := by
  cases items with
  | nil => simpa using chain
  | cons item items =>
    obtain ⟨rfl, nonzero, _⟩ := chain
    simp [nonzero]

theorem Linked.ne_zero (chain : Linked next first items) (member : item ∈ items) : item ≠ 0 := by
  induction items generalizing first with
  | nil => cases member
  | cons head items ih =>
    rcases List.mem_cons.mp member with rfl | member
    · exact chain.2.1
    · exact ih chain.2.2 member

/-- A chain depends on the links of its own items only. -/
theorem Linked.congr (chain : Linked next first items)
    (same : ∀ item ∈ items, other item = next item) : Linked other first items := by
  induction items generalizing first with
  | nil => exact chain
  | cons head items ih =>
    refine ⟨chain.1, chain.2.1, ?_⟩
    rw [same head (by simp)]
    exact ih chain.2.2 (fun item member => same item (by simp [member]))

/-- Null ends a chain, so the items it visits are determined. -/
theorem Linked.unique (chain : Linked next first items) (again : Linked next first others) :
    items = others := by
  induction items generalizing first others with
  | nil =>
    cases others with
    | nil => rfl
    | cons head others =>
      have zero : first = 0 := chain
      exact absurd (again.1.symm.trans zero) again.2.1
  | cons item items ih =>
    cases others with
    | nil => exact absurd (chain.1.symm.trans again) chain.2.1
    | cons head others =>
      obtain ⟨rfl, _, rest⟩ := chain
      obtain ⟨rfl, _, rest'⟩ := again
      rw [ih rest rest']

theorem getLastD_mem (nonempty : front ≠ []) (previous : Nat) :
    front.getLastD previous ∈ front := by
  rw [List.getLastD_eq_getLast?, List.getLast?_eq_some_getLast nonempty]
  exact List.getLast_mem nonempty

/-- An item links to the one behind it. -/
theorem Linked.link (chain : Linked next first (front ++ item :: items)) : next item = items.headD 0 := by
  induction front generalizing first with
  | nil => exact chain.2.2.head
  | cons head front ih => exact ih chain.2.2

/-- The link in front of an item, or the start of the chain, is the item. -/
theorem Linked.before (chain : Linked next first (front ++ item :: items)) (previous : Nat) :
    (if front = [] then first else next (front.getLastD previous)) = item := by
  induction front generalizing first previous with
  | nil => exact chain.1
  | cons head front ih =>
    have inner := ih chain.2.2 head
    rw [if_neg (List.cons_ne_nil head front), List.getLastD_cons]
    by_cases empty : front = []
    · simpa [empty] using inner
    · simpa [empty] using inner

/-- Redirecting the link before an item to the item after it cuts the item
out of the chain. -/
theorem Linked.cut (chain : Linked next first (front ++ item :: items))
    (distinct : (front ++ item :: items).Nodup) (fresh : previous ∉ front ++ items)
    (redirected : front ≠ [] → other (front.getLastD previous) = next item)
    (same : ∀ kept ∈ front ++ items, kept ≠ front.getLastD previous → other kept = next kept) :
    Linked other (if front = [] then next item else first) (front ++ items) := by
  induction front generalizing first previous with
  | nil =>
    refine chain.2.2.congr (fun kept member => same kept member ?_)
    rintro rfl
    exact fresh member
  | cons head front ih =>
    obtain ⟨rfl, nonzero, rest⟩ := chain
    obtain ⟨headFresh, tailDistinct⟩ := List.nodup_cons.mp distinct
    rw [List.getLastD_cons] at redirected same
    have firstFresh : first ∉ front ++ items := fun member => headFresh (by simp at member ⊢; tauto)
    have inner := ih rest tailDistinct firstFresh
      (fun _ => redirected (by simp))
      (fun kept member notLast => same kept (by simp at member ⊢; tauto) notLast)
    -- The head's own link was redirected exactly when it stood before the item.
    have link : other first = if front = [] then next item else next first := by
      by_cases empty : front = []
      · simpa [empty] using redirected (by simp)
      · rw [if_neg empty]
        refine same first (by simp) ?_
        intro isLast
        have member := getLastD_mem empty first
        rw [← isLast] at member
        exact headFresh (by simp [member])
    simp only [reduceCtorEq, ↓reduceIte, List.cons_append, linked_cons, true_and]
    exact ⟨nonzero, link ▸ inner⟩

/-- Equal cells linked one after another are a chain, in front of whatever
the last one links to. -/
theorem linked_run (nonzero : cell ≠ 0)
    (links : ∀ j < count, next (cell + stride * j) = cell + stride * (j + 1))
    (last : next (cell + stride * count) = rest) (tail : Linked next rest items) :
    Linked next cell ((List.range (count + 1)).map (fun j => cell + stride * j) ++ items) := by
  induction count generalizing cell with
  | zero => simpa [nonzero, ← last] using last ▸ tail
  | succ count ih =>
    rw [List.range_succ_eq_map, List.map_cons, List.map_map, List.cons_append]
    refine ⟨by simp, by simpa using nonzero, ?_⟩
    have first := links 0 (by omega)
    simp only [Nat.mul_zero, Nat.add_zero, Nat.zero_add, Nat.mul_one] at first ⊢
    rw [first]
    have shift : ∀ j, cell + stride + stride * j = cell + stride * (j + 1) := by
      intro j
      rw [Nat.mul_add, Nat.mul_one]
      omega
    have moved : cell + stride ≠ 0 := by omega
    have inner := ih moved
      (fun j small => by simpa only [shift] using links (j + 1) (by omega))
      (by simpa only [shift] using last)
    simpa only [shift, Function.comp_def] using inner

/-! ## Walking -/

/-- As many steps as there are 64 bit addresses. -/
@[irreducible] def walkFuel : Nat := 0x10000000000000000

/-- Follow `next` until null or an address where `stop` holds. -/
def scan (next : Nat → Nat) (stop : Nat → Bool) : (fuel first : Nat) → Option Nat
  | 0, _ => none
  | fuel + 1, first =>
    if first = 0 then some 0
    else if stop first then some first
    else scan next stop fuel (next first)

/-- The same walk, also remembering the address visited just before. -/
def scanPrev (next : Nat → Nat) (stop : Nat → Bool) : (fuel previous first : Nat) → Option (Nat × Nat)
  | 0, _, _ => none
  | fuel + 1, previous, first =>
    if first = 0 then some (previous, 0)
    else if stop first then some (previous, first)
    else scanPrev next stop fuel first (next first)

/-- A walk over a chain finds its first matching item, or null. -/
theorem scan_linked (chain : Linked next first items) (short : items.length < fuel) :
    scan next stop fuel first = some ((items.find? stop).getD 0) := by
  induction items generalizing first fuel with
  | nil =>
    obtain _ | fuel := fuel
    · simp at short
    · have zero : first = 0 := chain
      simp [scan, zero]
  | cons item items ih =>
    obtain _ | fuel := fuel
    · simp at short
    obtain ⟨rfl, nonzero, rest⟩ := chain
    by_cases found : stop first = true
    · simp [scan, nonzero, found]
    · simp only [scan, nonzero, found, ↓reduceIte, Bool.false_eq_true]
      rw [ih rest (by simpa using short)]
      simp [found]

/-- A walk passes the items that do not match, and remembers the last of them. -/
private theorem scanPrev_front (chain : Linked next first (front ++ items))
    (missed : ∀ kept ∈ front, stop kept = false) (short : front.length < fuel) :
    ∃ place left, Linked next place items ∧
      scanPrev next stop fuel previous first = scanPrev next stop (left + 1) (front.getLastD previous) place := by
  induction front generalizing first fuel previous with
  | nil =>
    obtain ⟨left, rfl⟩ := Nat.exists_eq_succ_of_ne_zero (Nat.ne_zero_of_lt short)
    exact ⟨first, left, chain, rfl⟩
  | cons head front ih =>
    obtain _ | fuel := fuel
    · simp at short
    obtain ⟨rfl, nonzero, rest⟩ := chain
    have headMissed := missed first (by simp)
    simp only [scanPrev, nonzero, headMissed, ↓reduceIte, Bool.false_eq_true]
    rw [List.getLastD_cons]
    exact ih rest (fun kept member => missed kept (by simp [member])) (by simpa using short)

/-- A walk that meets a matching item after non-matching ones stops there,
remembering the item before it. -/
theorem scanPrev_found (chain : Linked next first (front ++ item :: items))
    (missed : ∀ kept ∈ front, stop kept = false) (found : stop item = true) (short : front.length < fuel) :
    scanPrev next stop fuel previous first = some (front.getLastD previous, item) := by
  obtain ⟨_, _, ⟨rfl, nonzero, _⟩, passed⟩ := scanPrev_front chain missed short
  rw [passed]
  simp [scanPrev, nonzero, found]

theorem scanPrev_missed (chain : Linked next first items)
    (missed : ∀ kept ∈ items, stop kept = false) (short : items.length < fuel) :
    scanPrev next stop fuel previous first = some (items.getLastD previous, 0) := by
  rw [← List.append_nil items] at chain
  obtain ⟨_, _, rfl, passed⟩ := scanPrev_front chain missed short
  rw [passed]
  simp [scanPrev]

/-- Distinct addresses below a bound are no more than the bound. -/
theorem length_le_of_nodup_lt (distinct : items.Nodup) (bounded : ∀ item ∈ items, item < bound) :
    items.length ≤ bound := by
  have subset : items.toFinset ⊆ Finset.range bound := by
    intro item member
    exact Finset.mem_range.mpr (bounded item (List.mem_toFinset.mp member))
  have card := Finset.card_le_card subset
  rwa [List.toFinset_card_of_nodup distinct, Finset.card_range] at card

end RockOs.LinkedChain
