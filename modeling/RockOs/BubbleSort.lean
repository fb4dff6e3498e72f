import Mathlib.Data.List.Pairwise
import Mathlib.Order.Defs.Unbundled

/-! Bubble sort with a bound that shrinks by one after each pass and an exit after a
pass without swaps. The array is a list; the recursion of a pass has the place it
compares at the head. -/
namespace RockOs.BubbleSort

/-- `i` comparisons of neighbours from the head on: the list and how many were swapped. -/
def pass (greater : α → α → Bool) : (i : Nat) → (xs : List α) → List α × Nat
  | i + 1, x :: y :: xs =>
    if greater x y then
      let (rest, swaps) := pass greater i (x :: xs)
      (y :: rest, swaps + 1)
    else
      let (rest, swaps) := pass greater i (y :: xs)
      (x :: rest, swaps)
  | _, xs => (xs, 0)

/-- Passes with `i` comparisons, then one less each time. -/
def loop (greater : α → α → Bool) : (i : Nat) → (xs : List α) → List α
  | 0, xs => xs
  | i + 1, xs =>
    let (xs, swaps) := pass greater (i + 1) xs
    if swaps = 0 then xs else loop greater i xs

def sort (greater : α → α → Bool) (xs : List α) : List α := loop greater (xs.length - 1) xs

private theorem pass_perm (greater : α → α → Bool) (i : Nat) (xs : List α) : (pass greater i xs).1.Perm xs := by
  fun_induction pass greater i xs with
  | case1 i x y xs more rest swaps result ih =>
    rw [result] at ih
    exact (ih.cons y).trans (.swap x y xs)
  | case2 i x y xs less rest swaps result ih =>
    rw [result] at ih
    exact ih.cons x
  | case3 => exact .refl _

theorem loop_perm (greater : α → α → Bool) (i : Nat) (xs : List α) : (loop greater i xs).Perm xs := by
  induction i generalizing xs with
  | zero => exact .refl _
  | succ i ih =>
    have passed := pass_perm greater (i + 1) xs
    rw [loop]
    dsimp only
    split
    · exact passed
    · exact (ih _).trans passed

/-- Only comparisons of members matter. -/
theorem pass_congr {greater greater' : α → α → Bool} (i : Nat) (xs : List α)
    (same : ∀ x ∈ xs, ∀ y ∈ xs, greater x y = greater' x y) : pass greater i xs = pass greater' i xs := by
  fun_induction pass greater' i xs with
  | case1 i x y xs more rest swaps result ih =>
    have here : greater x y = true := (same x (by simp) y (by simp)).trans more
    have inside : x :: xs ⊆ x :: y :: xs := List.cons_subset_cons x (List.subset_cons_self y xs)
    have onward := ih fun a ha b hb => same a (inside ha) b (inside hb)
    rw [pass, if_pos here, onward, result]
  | case2 i x y xs less rest swaps result ih =>
    have here : ¬ greater x y = true := by rwa [same x (by simp) y (by simp)]
    have inside : y :: xs ⊆ x :: y :: xs := List.subset_cons_self x (y :: xs)
    have onward := ih fun a ha b hb => same a (inside ha) b (inside hb)
    rw [pass, if_neg here, onward, result]
  | case3 i xs short =>
    unfold pass
    split
    · next i x y xs => exact absurd rfl (short i x y xs rfl)
    · rfl

theorem loop_congr {greater greater' : α → α → Bool} (i : Nat) (xs : List α)
    (same : ∀ x ∈ xs, ∀ y ∈ xs, greater x y = greater' x y) : loop greater i xs = loop greater' i xs := by
  induction i generalizing xs with
  | zero => rfl
  | succ i ih =>
    have passed := pass_perm greater' (i + 1) xs
    rw [loop, loop, pass_congr (i + 1) xs same]
    dsimp only
    rw [ih _ fun x hx y hy => same x (passed.mem_iff.mp hx) y (passed.mem_iff.mp hy)]

/-- A pass does not look behind the elements it compares. -/
theorem pass_append (greater : α → α → Bool) (front back : List α) (x : α) :
    pass greater front.length (x :: front ++ back) =
      ((pass greater front.length (x :: front)).1 ++ back, (pass greater front.length (x :: front)).2) := by
  induction front generalizing x with
  | nil => cases back <;> rfl
  | cons y front ih =>
    simp only [List.cons_append, List.length_cons, pass]
    split
    · have onward := ih x
      rw [List.cons_append] at onward
      rw [onward]
      rfl
    · have onward := ih y
      rw [List.cons_append] at onward
      rw [onward]
      rfl

section
variable {α : Type} (r : α → α → Prop) [DecidableRel r]

/-- The comparison of an order. -/
def above (x y : α) : Bool := !decide (r x y)

private theorem below_of_above [Std.Total r] (greater : above r x y = true) : r y x := by
  have not : ¬ r x y := by simpa [above] using greater
  exact (Std.Total.total x y).resolve_left not

/-- A pass moves a greatest element to the end. -/
theorem pass_last [IsTrans α r] [Std.Total r] (front : List α) (x : α) :
    ∃ init last, (pass (above r) front.length (x :: front)).1 = init ++ [last] ∧ init.length = front.length ∧
      (∀ y ∈ init, r y last) ∧ r x last := by
  induction front generalizing x with
  | nil => exact ⟨[], x, rfl, rfl, by simp, (Std.Total.total x x).elim id id⟩
  | cons y front ih =>
    simp only [List.length_cons, pass]
    by_cases greater : above r x y = true
    · obtain ⟨init, last, passed, length, below, start⟩ := ih x
      rw [if_pos greater]
      refine ⟨y :: init, last, congrArg (y :: ·) passed, congrArg (· + 1) length, ?_, start⟩
      intro z member
      rcases List.mem_cons.mp member with rfl | member
      · exact trans_of r (below_of_above r greater) start
      · exact below z member
    · obtain ⟨init, last, passed, length, below, start⟩ := ih y
      have less : r x y := by simpa [above] using greater
      have start' : r x last := trans_of r less start
      rw [if_neg greater]
      refine ⟨x :: init, last, congrArg (x :: ·) passed, congrArg (· + 1) length, ?_, start'⟩
      intro z member
      rcases List.mem_cons.mp member with rfl | member
      · exact start'
      · exact below z member

/-- A pass without swaps has found the elements in order, and left them. -/
theorem pass_none [IsTrans α r] (front : List α) (x : α) (none : (pass (above r) front.length (x :: front)).2 = 0) :
    (pass (above r) front.length (x :: front)).1 = x :: front ∧ (x :: front).Pairwise r := by
  induction front generalizing x with
  | nil => exact ⟨rfl, List.pairwise_singleton r x⟩
  | cons y front ih =>
    simp only [List.length_cons, pass] at none ⊢
    by_cases greater : above r x y = true
    · rw [if_pos greater] at none
      exact absurd none (Nat.succ_ne_zero _)
    · rw [if_neg greater] at none ⊢
      obtain ⟨passed, sorted⟩ := ih y none
      have less : r x y := by simpa [above] using greater
      refine ⟨congrArg (x :: ·) passed, List.pairwise_cons.mpr ⟨?_, sorted⟩⟩
      intro z member
      rcases List.mem_cons.mp member with rfl | member
      · exact less
      · exact trans_of r less ((List.pairwise_cons.mp sorted).1 z member)

/-- The passes sort what is in front of a sorted end that nothing in front exceeds. -/
theorem loop_sorted [IsTrans α r] [Std.Total r] (front back : List α) (x : α) (sorted : back.Pairwise r)
    (below : ∀ y ∈ x :: front, ∀ z ∈ back, r y z) : (loop (above r) front.length (x :: front ++ back)).Pairwise r := by
  obtain ⟨i, length⟩ : ∃ i, front.length = i := ⟨_, rfl⟩
  induction i generalizing front back x with
  | zero =>
    rw [List.length_eq_zero_iff.mp length]
    exact List.pairwise_cons.mpr ⟨below x List.mem_cons_self, sorted⟩
  | succ i ih =>
    have passed := pass_append (above r) front back x
    have members : ∀ a, a ∈ (pass (above r) front.length (x :: front)).1 ↔ a ∈ x :: front :=
      fun a => (pass_perm (above r) front.length (x :: front)).mem_iff
    rw [length] at passed members ⊢
    rw [loop, passed]
    dsimp only
    split
    · next none =>
      rw [← length] at none ⊢
      obtain ⟨kept, inOrder⟩ := pass_none r front x none
      rw [kept]
      exact List.pairwise_append.mpr ⟨inOrder, sorted, below⟩
    · obtain ⟨init, last, moved, long, greatest, -⟩ := pass_last r front x
      rw [length] at moved long
      rw [moved] at members ⊢
      cases init with
      | nil => cases long
      | cons y init =>
        have shorter : init.length = i := Nat.succ.inj long
        have onward := ih init (last :: back) y
          (List.pairwise_cons.mpr ⟨fun z hz => below last ((members last).mp (by simp)) z hz, sorted⟩) ?_ shorter
        · rw [List.append_assoc]
          rwa [← shorter]
        · intro a ha z hz
          rcases List.mem_cons.mp hz with rfl | hz
          · exact greatest a ha
          · exact below a ((members a).mp (List.mem_append_left _ ha)) z hz

theorem sort_sorted [IsTrans α r] [Std.Total r] (xs : List α) : (sort (above r) xs).Pairwise r := by
  cases xs with
  | nil => exact .nil
  | cons x front =>
    have sorted := loop_sorted r front [] x .nil fun y _ z hz => absurd hz List.not_mem_nil
    rw [List.append_nil] at sorted
    exact sorted

end

end RockOs.BubbleSort
