import Mathlib.Data.List.Basic
import Mathlib.Data.Nat.ModEq

/-! A queue in a ring of `n` cells. The window of `count` cells from `head` on
holds the queue; a cell outside the window can be written without anyone
noticing, until the window takes it in. -/
namespace RockOs.RingQueue

variable {α : Type} {cell : Nat → α} {n head tail count : Nat}

/-- How far the tail is ahead of the head. -/
def distance (n head tail : Nat) : Nat := (tail + n - head) % n

/-- The cells of the window in order. -/
def window (cell : Nat → α) (n head count : Nat) : List α := (List.range count).map (fun i => cell ((head + i) % n))

theorem distance_lt (some : 0 < n) : distance n head tail < n := Nat.mod_lt _ some

theorem distance_self : distance n head head = 0 := by
  unfold distance
  rw [Nat.add_sub_cancel_left, Nat.mod_self]

/-- The tail is the first cell behind the window. -/
theorem tail_eq (headInside : head < n) (tailInside : tail < n) : (head + distance n head tail) % n = tail := by
  unfold distance
  by_cases order : head ≤ tail
  · rw [show tail + n - head = tail - head + n by omega, Nat.add_mod_right,
      Nat.mod_eq_of_lt (by omega : tail - head < n), Nat.add_sub_cancel' order, Nat.mod_eq_of_lt tailInside]
  · rw [Nat.mod_eq_of_lt (by omega : tail + n - head < n), show head + (tail + n - head) = tail + n by omega,
      Nat.add_mod_right, Nat.mod_eq_of_lt tailInside]

private theorem distance_eq_zero_iff (headInside : head < n) (tailInside : tail < n) :
    distance n head tail = 0 ↔ head = tail := by
  constructor
  · intro none
    have last := tail_eq headInside tailInside
    rwa [none, Nat.add_zero, Nat.mod_eq_of_lt headInside] at last
  · rintro rfl
    exact distance_self

/-- Steps from the head are told apart as long as they do not go all around. -/
private theorem step_inj (i_lt : i < n) (j_lt : j < n) (same : (head + i) % n = (head + j) % n) : i = j := by
  have mods : i % n = j % n := Nat.ModEq.add_left_cancel' head same
  rwa [Nat.mod_eq_of_lt i_lt, Nat.mod_eq_of_lt j_lt] at mods

/-- The distance is the only number of steps below `n` that leads to the tail. -/
theorem distance_unique (headInside : head < n) (small : count < n) (leads : (head + count) % n = tail) :
    distance n head tail = count := by
  have some : 0 < n := by omega
  have tailInside : tail < n := leads ▸ Nat.mod_lt _ some
  exact step_inj (distance_lt some) small ((tail_eq headInside tailInside).trans leads.symm)

theorem distance_push (headInside : head < n) (tailInside : tail < n) (room : distance n head tail + 1 < n) :
    distance n head ((tail + 1) % n) = distance n head tail + 1 := by
  refine distance_unique headInside room ?_
  rw [← Nat.add_assoc, ← Nat.mod_add_mod, tail_eq headInside tailInside]

theorem distance_pop (headInside : head < n) (tailInside : tail < n) (some : head ≠ tail) :
    distance n ((head + 1) % n) tail + 1 = distance n head tail := by
  have positive : distance n head tail ≠ 0 := fun none => some ((distance_eq_zero_iff headInside tailInside).mp none)
  have bound : distance n head tail < n := distance_lt (by omega)
  have next : distance n ((head + 1) % n) tail = distance n head tail - 1 := by
    refine distance_unique (Nat.mod_lt _ (by omega)) (by omega) ?_
    rw [Nat.mod_add_mod, show head + 1 + (distance n head tail - 1) = head + distance n head tail by omega]
    exact tail_eq headInside tailInside
  omega

/-- Only the cells of the window matter. -/
theorem window_congr {after : Nat → α} (same : ∀ i < count, after ((head + i) % n) = cell ((head + i) % n)) :
    window after n head count = window cell n head count :=
  List.map_congr_left (fun i member => same i (List.mem_range.mp member))

/-- The cell behind the window is written. -/
theorem window_frame {after : Nat → α} (headInside : head < n) (tailInside : tail < n)
    (unchanged : ∀ i < n, i ≠ tail → after i = cell i) :
    window after n head (distance n head tail) = window cell n head (distance n head tail) := by
  have some : 0 < n := by omega
  refine window_congr (fun i small => unchanged _ (Nat.mod_lt _ some) (fun here => ?_))
  have bound : distance n head tail < n := distance_lt some
  have step : i = distance n head tail :=
    step_inj (by omega) bound (show (head + i) % n = _ from here.trans (tail_eq headInside tailInside).symm)
  omega

/-- The window takes in the cell behind it. -/
theorem window_push (headInside : head < n) (tailInside : tail < n) (room : distance n head tail + 1 < n) :
    window cell n head (distance n head ((tail + 1) % n)) = window cell n head (distance n head tail) ++
    [cell tail] := by
  rw [distance_push headInside tailInside room, window, List.range_succ, List.map_append, List.map_singleton,
    tail_eq headInside tailInside]
  rfl

/-- The window leaves its first cell. -/
theorem window_pop (headInside : head < n) (tailInside : tail < n) (some : head ≠ tail) :
    window cell n head (distance n head tail) =
      cell head :: window cell n ((head + 1) % n) (distance n ((head + 1) % n) tail) := by
  rw [← distance_pop headInside tailInside some, window, List.range_succ_eq_map, List.map_cons, List.map_map,
    Nat.add_zero, Nat.mod_eq_of_lt headInside, window]
  congr 1
  refine List.map_congr_left (fun i _ => ?_)
  rw [Function.comp, Nat.mod_add_mod, Nat.succ_eq_add_one, Nat.add_assoc, Nat.add_comm 1]

end RockOs.RingQueue
