import Mathlib.Data.List.TakeWhile

/-! Arrays of fixed length, read and written by index, where an access outside
gives no result. Text is scanned in them up to a terminator, and cut into
words. -/
namespace RockOs.TextBuffers

variable {α : Type}

/-! ## Access -/

/-- Store one element. -/
def put (buf : List α) (i : Nat) (value : α) : Option (List α) :=
  if i < buf.length then some (buf.set i value) else none

theorem put_eq (inside : i < buf.length) (value : α) : put buf i value = some (buf.set i value) := if_pos inside

theorem put_length (stored : put buf i value = some after) : after.length = buf.length := by
  unfold put at stored
  split at stored
  · cases stored
    exact List.length_set
  · cases stored

theorem put_here (front rest : List α) (old value : α) :
    put (front ++ old :: rest) front.length value = some (front ++ value :: rest) := by
  rw [put_eq (by simp), List.set_append_right _ _ (Nat.le_refl _), Nat.sub_self, List.set_cons_zero]

theorem get_here (front rest : List α) (here : α) : (front ++ here :: rest)[front.length]? = some here := by
  simp

/-- The first index from `i` on at which the scan does not go on. -/
def scan (skips : α → Bool) (buf : List α) (i : Nat) : Option Nat :=
  match read : buf[i]? with
  | none => none
  | some here => if skips here then scan skips buf (i + 1) else some i
termination_by buf.length - i
decreasing_by
  have := (List.getElem?_eq_some_iff.mp read).1
  omega

/-- A scan stops at the first element that it does not skip. -/
theorem scan_eq (skipped : List α) (all : ∀ c ∈ skipped, skips c = true) (stops : skips here = false)
    (front rest : List α) :
    scan skips (front ++ skipped ++ here :: rest) front.length = some (front.length + skipped.length) := by
  induction skipped generalizing front with
  | nil =>
    rw [scan]
    split
    · next outside => simp at outside
    · next found read =>
      have same : found = here := by simpa using read.symm
      rw [same, stops]
      rfl
  | cons c skipped ih =>
    have goes_on : skips c = true := all c List.mem_cons_self
    have next := ih (fun d member => all d (List.mem_cons_of_mem c member)) (front ++ [c])
    rw [scan]
    split
    · next outside => simp at outside
    · next found read =>
      have same : found = c := by simpa using read.symm
      rw [same, if_pos goes_on]
      simpa [Nat.add_assoc, Nat.add_comm 1] using next

/-- The end of the string at an index. -/
theorem scan_string [DecidableEq α] {stop : α} (clean : stop ∉ text) (front rest : List α) :
    scan (fun c => decide (c ≠ stop)) (front ++ text ++ stop :: rest) front.length =
      some (front.length + text.length) := by
  apply scan_eq text
  · intro c member
    exact decide_eq_true fun same => clean (same ▸ member)
  · exact decide_eq_false fun other => other rfl

/-! ## Strings -/

/-- `text` begins at `i` and ends before the next terminator `stop`. -/
def Holds (stop : α) (buf : List α) (i : Nat) (text : List α) : Prop :=
  ∃ front rest, buf = front ++ text ++ stop :: rest ∧ front.length = i ∧ stop ∉ text

theorem Holds.scan [DecidableEq α] {stop : α} (holds : Holds stop buf i text) :
    scan (fun c => decide (c ≠ stop)) buf i = some (i + text.length) ∧ (buf.drop i).take text.length = text := by
  obtain ⟨front, rest, rfl, rfl, clean⟩ := holds
  refine ⟨scan_string clean front rest, ?_⟩
  rw [List.append_assoc, List.drop_left, List.take_left]

/-- What stands before an index decides about the strings that end before it. -/
theorem Holds.of_take (holds : Holds stop buf i text) (before : i + text.length < n)
    (same : after.take n = buf.take n) : Holds stop after i text := by
  obtain ⟨front, rest, rfl, rfl, clean⟩ := holds
  refine ⟨front, (after.drop (front.length + text.length + 1)), ?_, rfl, clean⟩
  have cut : after.take (front.length + text.length + 1) = front ++ text ++ [stop] := by
    have shorter := congrArg (List.take (front.length + text.length + 1)) same
    rw [List.take_take, List.take_take, Nat.min_eq_left (by omega)] at shorter
    rw [shorter, show front ++ text ++ stop :: rest = front ++ text ++ [stop] ++ rest by simp]
    exact List.take_left' (by simp [Nat.add_assoc])
  have whole := List.take_append_drop (front.length + text.length + 1) after
  rw [cut, List.append_assoc _ [stop]] at whole
  exact whole.symm

/-- A terminator ends the string in front of it. -/
theorem holds_set {stop : α} {buf : List α} (inside : i < buf.length) (clean : stop ∉ buf.take i) :
    Holds stop (buf.set i stop) 0 (buf.take i) :=
  ⟨[], buf.drop (i + 1), by rw [List.nil_append, List.set_eq_take_append_cons_drop, if_pos inside], rfl, clean⟩

/-! ## Words -/

/-- The maximal runs of elements that are not blank. -/
def words (blank : α → Bool) (text : List α) : List (List α) :=
  (text.splitOnP blank).filter (!·.isEmpty)

theorem words_blank (isBlank : blank c = true) (text : List α) : words blank (c :: text) = words blank text := by
  unfold words
  have split := List.splitOnP_append_cons [] text isBlank
  rw [List.nil_append, List.splitOnP_nil] at split
  rw [split]
  rfl

theorem words_blanks (all : ∀ c ∈ blanks, blank c = true) (text : List α) :
    words blank (blanks ++ text) = words blank text := by
  induction blanks with
  | nil => rfl
  | cons c blanks ih =>
    rw [List.cons_append, words_blank (all c List.mem_cons_self)]
    exact ih (fun d member => all d (List.mem_cons_of_mem c member))

theorem words_nil (blank : α → Bool) : words blank [] = [] := by
  unfold words
  rw [List.splitOnP_nil]
  rfl

/-- One word that ends with the text. -/
theorem words_single (none : ∀ c ∈ word, blank c = false) (nonempty : word ≠ []) : words blank word = [word] := by
  unfold words
  rw [List.splitOnP_eq_singleton none]
  simp [nonempty]

/-- The first word ends at a blank. -/
theorem words_word (none : ∀ c ∈ word, blank c = false) (nonempty : word ≠ []) (isBlank : blank c = true)
    (text : List α) : words blank (word ++ c :: text) = word :: words blank text := by
  unfold words
  rw [List.splitOnP_append_cons_of_forall_mem none c isBlank, List.filter_cons_of_pos (by simpa using nonempty)]

/-- A text is blank, or begins with its first word, which ends with the text or at a blank. -/
theorem words_cases (blank : α → Bool) (text : List α) :
    (∀ c ∈ text, blank c = true) ∨
      ∃ blanks word rest, text = blanks ++ word ++ rest ∧ (∀ c ∈ blanks, blank c = true) ∧
        (∀ c ∈ word, blank c = false) ∧ word ≠ [] ∧
          (rest = [] ∨ ∃ c tail, rest = c :: tail ∧ blank c = true) := by
  have first := List.takeWhile_append_dropWhile (p := blank) (l := text)
  cases dropped : text.dropWhile blank with
  | nil =>
    left
    rw [dropped, List.append_nil] at first
    rw [← first]
    exact fun c member => List.mem_takeWhile_imp member
  | cons c tail =>
    right
    have starts : blank c = false := by
      have head := List.head?_dropWhile_not blank text
      rw [dropped] at head
      simpa using head
    refine ⟨text.takeWhile blank, (c :: tail).takeWhile (!blank ·), (c :: tail).dropWhile (!blank ·), ?_,
      fun d member => List.mem_takeWhile_imp member, fun d member => by simpa using List.mem_takeWhile_imp member,
        ?_, ?_⟩
    · rw [List.append_assoc, List.takeWhile_append_dropWhile, ← dropped, first]
    · rw [List.takeWhile_cons_of_pos (by simp [starts])]
      exact List.cons_ne_nil _ _
    · cases behind : (c :: tail).dropWhile (!blank ·) with
      | nil => exact Or.inl rfl
      | cons d tail' =>
        have head := List.head?_dropWhile_not (!blank ·) (c :: tail)
        rw [behind] at head
        exact Or.inr ⟨d, tail', rfl, by simpa using head⟩

theorem words_eq_nil (empty : words blank text = []) : ∀ c ∈ text, blank c = true := by
  rcases words_cases blank text with all | ⟨blanks, word, rest, rfl, allBlank, none, nonempty,
    rfl | ⟨c, tail, rfl, isBlank⟩⟩
  · exact all
  · rw [List.append_nil, words_blanks allBlank, words_single none nonempty] at empty
    cases empty
  · rw [List.append_assoc, words_blanks allBlank, words_word none nonempty isBlank] at empty
    cases empty

/-! ## Common prefixes -/

/-- The longest common prefix of texts: what is a prefix of it is a prefix of each of them. -/
def Longest (text : List α) (texts : List (List α)) : Prop := ∀ start, start <+: text ↔ ∀ other ∈ texts, start <+: other

theorem Longest.unique (longest : Longest text texts) (same : Longest text' texts) : text = text' := by
  have forth : text <+: text' := (same text).mpr ((longest text).mp List.prefix_rfl)
  have back : text' <+: text := (longest text').mpr ((same text').mp List.prefix_rfl)
  exact forth.eq_of_length (Nat.le_antisymm forth.length_le back.length_le)

section
variable [DecidableEq α]

def commonPrefix : (text other : List α) → List α
  | c :: text, d :: other => if c = d then c :: commonPrefix text other else []
  | _, _ => []

theorem start_commonPrefix (start text other : List α) :
    start <+: commonPrefix text other ↔ start <+: text ∧ start <+: other := by
  induction text generalizing start other with
  | nil =>
    rw [commonPrefix.eq_2 _ _ (by simp)]
    exact (and_iff_left_of_imp fun empty => List.prefix_nil.mp empty ▸ List.nil_prefix).symm
  | cons c text ih =>
    cases other with
    | nil =>
      rw [commonPrefix.eq_2 _ _ (by simp)]
      exact (and_iff_right_of_imp fun empty => List.prefix_nil.mp empty ▸ List.nil_prefix).symm
    | cons d other =>
      cases start with
      | nil => simp
      | cons e start =>
        rw [commonPrefix, List.cons_prefix_cons, List.cons_prefix_cons]
        by_cases same : c = d
        · rw [if_pos same, List.cons_prefix_cons, ih, ← same]
          exact and_and_left
        · rw [if_neg same]
          refine iff_of_false (by simp) ?_
          rintro ⟨⟨rfl, -⟩, rfl, -⟩
          exact same rfl

/-- The common prefix of one text or several. -/
def commonPrefixes : (texts : List (List α)) → List α
  | [] => []
  | text :: texts => texts.foldl commonPrefix text

theorem commonPrefixes_longest (text : List α) (texts : List (List α)) :
    Longest (commonPrefixes (text :: texts)) (text :: texts) := by
  intro start
  rw [commonPrefixes, List.forall_mem_cons]
  induction texts generalizing text with
  | nil => simp
  | cons other texts ih => rw [List.foldl_cons, ih, start_commonPrefix, List.forall_mem_cons, and_assoc]

end

end RockOs.TextBuffers
