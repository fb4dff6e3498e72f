import Mathlib.Algebra.Ring.Nat
import Mathlib.Data.List.Pairwise

/-! The microsecond clocks and delays of `lib/time.c` and the timer of the architecture,
over the readings of a counter with the frequency `f` that `get_tbclk` returns. -/
namespace RockOs.Timers

/-! ## The clocks -/

/-- The quotient `do_div` leaves: its divisor is cut to 32 bits. -/
def doDiv (n base : Nat) : Nat := n / (base % 2 ^ 32)

/-- `CONFIG_SYS_HZ`. -/
def sysHz : Nat := 1000

def tickToTime (f tick : Nat) : Nat := doDiv (tick * sysHz % 2 ^ 64) f

/-- The result when `get_ticks` reads `ticks`. -/
def timerGetUs (f ticks : Nat) : Nat := tickToTime f (ticks * 1000 % 2 ^ 64)

/-- The result when `get_ticks` reads `ticks`. -/
def timerGetBootUs (f ticks : Nat) : Nat := ticks * 1000000 % 2 ^ 64 / f

/-- Microseconds since the counter was zero. -/
def microseconds (f ticks : Nat) : Nat := ticks * 10 ^ 6 / f

private theorem timerGetUs_eq (f ticks : Nat) (narrow : f < 2 ^ 32) :
    timerGetUs f ticks = ticks * 10 ^ 6 % 2 ^ 64 / f := by
  have product : ticks * 1000 % 2 ^ 64 * sysHz % 2 ^ 64 = ticks * 10 ^ 6 % 2 ^ 64 := by
    rw [sysHz, Nat.mod_mul_mod, Nat.mul_assoc, show 1000 * 1000 = 10 ^ 6 from rfl]
  rw [timerGetUs, tickToTime, doDiv, product, Nat.mod_eq_of_lt narrow]

/-- What is lost when the product wraps is at least one quotient. -/
theorem wrapped_quotient (positive : 0 < f) (narrow : f ≤ 2 ^ 64) : n % 2 ^ 64 / f = n / f ↔ n < 2 ^ 64 := by
  constructor
  · intro same
    by_contra large
    have step : (n % 2 ^ 64 + f) / f = n % 2 ^ 64 / f + 1 := Nat.add_div_right _ positive
    have least : (n % 2 ^ 64 + f) / f ≤ n / f := Nat.div_le_div_right (by omega)
    omega
  · intro small
    rw [Nat.mod_eq_of_lt small]

/-- Both clocks are exact for as long as the product of the ticks with a million is less
than `2 ^ 64`, and they do not run backwards until then. -/
theorem clocks_exact_iff (f : Nat) (low : 1000 ≤ f) (high : f < 2 ^ 32) :
    (∀ t < 2 ^ 64, microseconds f t < 2 ^ 64 →
      (timerGetUs f t = microseconds f t ↔ t * 10 ^ 6 < 2 ^ 64) ∧
        (timerGetBootUs f t = microseconds f t ↔ t * 10 ^ 6 < 2 ^ 64)) ∧
      ∀ t₁ t₂, t₁ ≤ t₂ → t₂ * 10 ^ 6 < 2 ^ 64 →
        timerGetUs f t₁ ≤ timerGetUs f t₂ ∧ timerGetBootUs f t₁ ≤ timerGetBootUs f t₂ := by
  have exact (t : Nat) : t * 10 ^ 6 % 2 ^ 64 / f = microseconds f t ↔ t * 10 ^ 6 < 2 ^ 64 :=
    wrapped_quotient (by omega) (by omega)
  refine ⟨fun t _ _ => ?_, fun t₁ t₂ later small => ?_⟩
  · rw [timerGetUs_eq f t high]
    exact ⟨exact t, exact t⟩
  · have forward : t₁ * 10 ^ 6 % 2 ^ 64 / f ≤ t₂ * 10 ^ 6 % 2 ^ 64 / f := by
      rw [Nat.mod_eq_of_lt small, Nat.mod_eq_of_lt (Nat.lt_of_le_of_lt (Nat.mul_le_mul_right _ later) small)]
      exact Nat.div_le_div_right (Nat.mul_le_mul_right _ later)
    rw [timerGetUs_eq f t₁ high, timerGetUs_eq f t₂ high]
    exact ⟨forward, forward⟩

theorem clocks_exact_second :
    (1000 ≤ 10 ^ 6 ∧ 10 ^ 6 < 2 ^ 32) ∧ timerGetUs (10 ^ 6) (10 ^ 6) = microseconds (10 ^ 6) (10 ^ 6) := by
  have low : 1000 ≤ 10 ^ 6 := by decide
  have high : 10 ^ 6 < 2 ^ 32 := by decide
  exact ⟨⟨low, high⟩, (((clocks_exact_iff (10 ^ 6) low high).1 (10 ^ 6) (by decide) (by decide)).1).mpr (by decide)⟩

/-- At 62.5 MHz, in the fourth day after the start: one tick later both clocks are back at
zero. -/
theorem clocks_wrap :
    microseconds 62500000 18446744073710 = 295147905179 ∧
      timerGetUs 62500000 18446744073709 = 295147905179 ∧ timerGetUs 62500000 18446744073710 = 0 ∧
      timerGetBootUs 62500000 18446744073709 = 295147905179 ∧ timerGetBootUs 62500000 18446744073710 = 0 := by
  decide

/-! ## Delays -/

/-- `CONFIG_WD_PERIOD`. -/
def wdPeriod : Nat := 10 * 1000 * 1000

def usecToTick (f usec : Nat) : Nat := doDiv (usec * f % 2 ^ 64) 1000000

/-- `while (get_ticks() < deadline)`: the last reading, and those to come. No result stands
for a loop that has not ended with the last of the readings. -/
def waitLoop (deadline : Nat) : (readings : List Nat) → Option (Nat × List Nat)
  | [] => none
  | reading :: readings => if reading < deadline then waitLoop deadline readings else some (reading, readings)

/-- One call of `__udelay`: its argument, and the first and the last reading. -/
structure Chunk where
  usec : Nat
  first : Nat
  last : Nat
  deriving DecidableEq, Repr

def udelayChunk (f usec : Nat) : (readings : List Nat) → Option (Chunk × List Nat)
  | [] => none
  | reading :: readings => do
    let tmp := (reading + usecToTick f usec) % 2 ^ 64
    let (last, readings) ← waitLoop ((tmp + 1) % 2 ^ 64) readings
    return (⟨usec, reading, last⟩, readings)

/-- The calls of `__udelay`, and the readings to come. -/
def udelay (f usec : Nat) (readings : List Nat) : Option (List Chunk × List Nat) := do
  let kv := if usec > wdPeriod then wdPeriod else usec
  let (chunk, readings) ← udelayChunk f kv readings
  if usec - kv = 0 then return ([chunk], readings)
  else
    let (chunks, readings) ← udelay f (usec - kv) readings
    return (chunk :: chunks, readings)
  termination_by usec
  decreasing_by
    unfold wdPeriod at *
    split at * <;> omega

/-! ### Long enough -/

private theorem waitLoop_spec (sorted : (previous :: readings).Pairwise (· ≤ ·))
    (returned : waitLoop deadline readings = some (last, rest)) :
    deadline ≤ last ∧ previous ≤ last ∧ (last :: rest).Pairwise (· ≤ ·) := by
  induction readings generalizing previous with
  | nil => cases returned
  | cons reading readings ih =>
    have next : previous ≤ reading := List.rel_of_pairwise_cons sorted List.mem_cons_self
    rw [waitLoop] at returned
    split at returned
    · obtain ⟨reached, later, sorted'⟩ := ih sorted.of_cons returned
      exact ⟨reached, Nat.le_trans next later, sorted'⟩
    · next reached =>
      cases returned
      exact ⟨Nat.le_of_not_lt reached, next, sorted.of_cons⟩

private theorem usecToTick_eq (exact : usec * f < 2 ^ 64) : usecToTick f usec = usec * f / 10 ^ 6 := by
  rw [usecToTick, doDiv, Nat.mod_eq_of_lt exact, show 1000000 % 2 ^ 32 = 10 ^ 6 from rfl]

/-- The time that a chunk must end at is a reading of the counter. -/
def Chunk.Ends (f : Nat) (chunk : Chunk) : Prop := chunk.first + usecToTick f chunk.usec + 1 < 2 ^ 64

instance : Decidable (Chunk.Ends f chunk) := inferInstanceAs (Decidable (_ < _))

/-- The ticks are rounded down, and the loop waits for one more. -/
theorem udelayChunk_spec (exact : usec * f < 2 ^ 64) (sorted : readings.Pairwise (· ≤ ·))
    (returned : udelayChunk f usec readings = some (chunk, rest)) :
    chunk.usec = usec ∧ readings.head? = some chunk.first ∧ (chunk.last :: rest).Pairwise (· ≤ ·) ∧
      (chunk.Ends f → usec * f + 10 ^ 6 * chunk.first ≤ 10 ^ 6 * chunk.last) := by
  cases readings with
  | nil => cases returned
  | cons reading readings =>
    obtain ⟨⟨last, rest⟩, waited, result⟩ := Option.bind_eq_some_iff.mp returned
    cases result
    obtain ⟨reached, later, sorted'⟩ := waitLoop_spec sorted waited
    refine ⟨rfl, rfl, sorted', fun ends => ?_⟩
    unfold Chunk.Ends at ends
    dsimp only at ends ⊢
    rw [Nat.mod_eq_of_lt (show reading + usecToTick f usec < 2 ^ 64 by omega), Nat.mod_eq_of_lt ends,
      usecToTick_eq exact] at reached
    have quotient := Nat.lt_div_mul_add (show 0 < 10 ^ 6 by decide) (a := usec * f)
    omega

private theorem udelay_last (short : usec ≤ wdPeriod) :
    udelay f usec readings = (udelayChunk f usec readings).map fun (chunk, rest) => ([chunk], rest) := by
  rw [udelay, if_neg (Nat.not_lt.mpr short)]
  cases udelayChunk f usec readings with
  | none => rfl
  | some called => exact if_pos (Nat.sub_self usec)

private theorem udelay_more (long : wdPeriod < usec) :
    udelay f usec readings = (udelayChunk f wdPeriod readings).bind fun (chunk, left) =>
      (udelay f (usec - wdPeriod) left).map fun (chunks, rest) => (chunk :: chunks, rest) := by
  rw [udelay, if_pos long]
  refine Option.bind_congr fun (chunk, left) _ => ?_
  dsimp only
  rw [if_neg (Nat.sub_ne_zero_of_lt long), Option.map_eq_bind]
  rfl

private theorem product_parts (f : Nat) (long : wdPeriod < usec) : usec * f = wdPeriod * f + (usec - wdPeriod) * f := by
  rw [← Nat.add_mul, Nat.add_sub_cancel' (Nat.le_of_lt long)]

private theorem getLast_cons_of_found (found : chunks.getLast?.map Chunk.last = some last) (chunk : Chunk) :
    (chunk :: chunks).getLast?.map Chunk.last = some last := by
  cases chunks with
  | nil => cases found
  | cons next chunks => rwa [List.getLast?_cons_cons]

/-- By induction on the microseconds that are left. The clock is read again for every
chunk, and not before the end of the last one. -/
theorem udelay_spec (bound : 10 ^ 7 * f < 2 ^ 64) (usec : Nat) (sorted : readings.Pairwise (· ≤ ·))
    (returned : udelay f usec readings = some (chunks, rest)) :
    (chunks.map Chunk.usec).sum = usec ∧
      ∃ first last, chunks.head?.map Chunk.first = some first ∧ chunks.getLast?.map Chunk.last = some last ∧
        readings.head? = some first ∧
        ((∀ chunk ∈ chunks, chunk.Ends f) → usec * f + 10 ^ 6 * first ≤ 10 ^ 6 * last) := by
  have exact (usec : Nat) (short : usec ≤ wdPeriod) : usec * f < 2 ^ 64 :=
    Nat.lt_of_le_of_lt (Nat.mul_le_mul_right f short) bound
  induction usec using Nat.strongRecOn generalizing readings chunks rest with
  | _ usec ih =>
    by_cases short : usec ≤ wdPeriod
    · rw [udelay_last short, Option.map_eq_some_iff] at returned
      obtain ⟨⟨chunk, _⟩, called, result⟩ := returned
      cases result
      obtain ⟨same, head, -, enough⟩ := udelayChunk_spec (exact usec short) sorted called
      refine ⟨?_, chunk.first, chunk.last, rfl, rfl, head, fun ends => enough (ends chunk List.mem_cons_self)⟩
      rw [List.map_singleton, List.sum_singleton, same]
    · have long := Nat.lt_of_not_le short
      rw [udelay_more long, Option.bind_eq_some_iff] at returned
      obtain ⟨⟨chunk, left⟩, called, returned⟩ := returned
      obtain ⟨⟨chunks, _⟩, called', result⟩ := Option.map_eq_some_iff.mp returned
      cases result
      obtain ⟨same, head, sorted', enough⟩ := udelayChunk_spec (exact wdPeriod (Nat.le_refl _)) sorted called
      have less : usec - wdPeriod < usec := Nat.sub_lt (Nat.zero_lt_of_lt long) (by decide)
      obtain ⟨sum, first, last, -, found, next, enough'⟩ := ih (usec - wdPeriod) less sorted'.of_cons called'
      -- what passes between two chunks is not counted, but it does no harm
      have between : chunk.last ≤ first := List.rel_of_pairwise_cons sorted' (List.mem_of_head? next)
      refine ⟨?_, chunk.first, last, rfl, getLast_cons_of_found found chunk, head, fun ends => ?_⟩
      · rw [List.map_cons, List.sum_cons, same, sum, Nat.add_sub_cancel' (Nat.le_of_lt long)]
      · obtain ⟨ends, ends'⟩ := List.forall_mem_cons.mp ends
        have one := enough ends
        have others := enough' ends'
        have parts := product_parts f long
        omega

/-- A delay takes at least the time that was asked for, in chunks that are that time
together, where the counter does not wrap before the end of one. -/
theorem udelay_not_early (f usec : Nat) (readings : List Nat) (bound : 10 ^ 7 * f < 2 ^ 64)
    (sorted : readings.Pairwise (· ≤ ·)) (returned : udelay f usec readings = some (chunks, rest))
    (unwrapped : ∀ chunk ∈ chunks, chunk.Ends f) :
    (chunks.map Chunk.usec).sum = usec ∧
      ∃ first last, chunks.head?.map Chunk.first = some first ∧ chunks.getLast?.map Chunk.last = some last ∧
        usec * f ≤ 10 ^ 6 * (last - first) := by
  obtain ⟨sum, first, last, head, found, -, enough⟩ := udelay_spec bound usec sorted returned
  have long := enough unwrapped
  exact ⟨sum, first, last, head, found, by omega⟩

/-- Three microseconds at 1 MHz. -/
theorem udelay_three :
    10 ^ 7 * 10 ^ 6 < 2 ^ 64 ∧ udelay (10 ^ 6) 3 [5, 6, 8, 9, 11] = some ([⟨3, 5, 9⟩], [11]) ∧
      3 * 10 ^ 6 ≤ 10 ^ 6 * (9 - 5) := by
  have bound : 10 ^ 7 * 10 ^ 6 < 2 ^ 64 := by decide
  have returned : udelay (10 ^ 6) 3 [5, 6, 8, 9, 11] = some ([⟨3, 5, 9⟩], [11]) := by
    rw [udelay_last (by decide)]
    decide
  obtain ⟨-, first, last, head, found, long⟩ :=
    udelay_not_early (10 ^ 6) 3 [5, 6, 8, 9, 11] bound (by decide) returned (by decide)
  cases head
  cases found
  exact ⟨bound, returned, long⟩

/-- Two ticks before the counter wraps, ten microseconds at 1 MHz: the deadline
is 9, and the next reading is behind it. -/
theorem udelay_early :
    10 ^ 7 * 10 ^ 6 < 2 ^ 64 ∧ [2 ^ 64 - 2, 2 ^ 64 - 1].Pairwise (· ≤ ·) ∧
      udelay (10 ^ 6) 10 [2 ^ 64 - 2, 2 ^ 64 - 1] = some ([⟨10, 2 ^ 64 - 2, 2 ^ 64 - 1⟩], []) ∧
      ¬ 10 * 10 ^ 6 ≤ 10 ^ 6 * ((2 ^ 64 - 1) - (2 ^ 64 - 2)) := by
  refine ⟨by decide, by decide, ?_, by decide⟩
  rw [udelay_last (by decide)]
  decide

/-! ### Not for ever -/

private theorem waitLoop_returns (rising : (previous :: readings).Pairwise (· < ·)) (more : readings ≠ [])
    (enough : deadline ≤ previous + readings.length) :
    ∃ last rest, waitLoop deadline readings = some (last, rest) ∧ rest.Pairwise (· < ·) ∧
      readings.length ≤ rest.length + max 1 (deadline - previous) := by
  induction readings generalizing previous with
  | nil => exact absurd rfl more
  | cons reading readings ih =>
    have next : previous < reading := List.rel_of_pairwise_cons rising List.mem_cons_self
    rw [List.length_cons] at enough ⊢
    by_cases early : reading < deadline
    · have more' : readings ≠ [] := by
        rintro rfl
        rw [List.length_nil] at enough
        omega
      obtain ⟨last, rest, waited, rising', used⟩ := ih rising.of_cons more' (by omega)
      exact ⟨last, rest, (if_pos early).trans waited, rising', by omega⟩
    · exact ⟨reading, readings, if_neg early, rising.of_cons.of_cons, by omega⟩

private theorem udelayChunk_returns (f usec : Nat) (rising : readings.Pairwise (· < ·))
    (enough : usecToTick f usec + 2 ≤ readings.length) :
    ∃ chunk rest, udelayChunk f usec readings = some (chunk, rest) ∧ rest.Pairwise (· < ·) ∧
      readings.length ≤ rest.length + (usecToTick f usec + 2) := by
  cases readings with
  | nil => cases enough
  | cons reading readings =>
    rw [List.length_cons] at enough ⊢
    have more : readings ≠ [] := by
      rintro rfl
      rw [List.length_nil] at enough
      omega
    -- a deadline that wraps is an earlier one
    have deadline : ((reading + usecToTick f usec) % 2 ^ 64 + 1) % 2 ^ 64 ≤ reading + usecToTick f usec + 1 :=
      Nat.le_trans (Nat.mod_le _ _) (Nat.succ_le_succ (Nat.mod_le _ _))
    obtain ⟨last, rest, waited, rising', used⟩ := waitLoop_returns rising more
      (Nat.le_trans deadline (show reading + usecToTick f usec + 1 ≤ reading + readings.length by omega))
    refine ⟨⟨usec, reading, last⟩, rest, ?_, rising', by omega⟩
    rw [udelayChunk, waited]
    rfl

/-- With a counter that never reads the same twice a delay ends, after a reading for each
tick and two for each chunk. -/
theorem udelay_returns (bound : 10 ^ 7 * f < 2 ^ 64) (usec : Nat) (rising : readings.Pairwise (· < ·))
    (enough : usec * f / 10 ^ 6 + 2 * (usec / wdPeriod + 1) ≤ readings.length) :
    ∃ chunks rest, udelay f usec readings = some (chunks, rest) := by
  induction usec using Nat.strongRecOn generalizing readings with
  | _ usec ih =>
    by_cases short : usec ≤ wdPeriod
    · have exact : usec * f < 2 ^ 64 := Nat.lt_of_le_of_lt (Nat.mul_le_mul_right f short) bound
      have ticks := usecToTick_eq exact
      have others := Nat.zero_le (usec / wdPeriod)
      obtain ⟨chunk, rest, called, -⟩ := udelayChunk_returns f usec rising (by omega)
      exact ⟨[chunk], rest, by rw [udelay_last short, called]; rfl⟩
    · have long := Nat.lt_of_not_le short
      have ticks : usecToTick f wdPeriod = 10 ^ 7 * f / 10 ^ 6 := usecToTick_eq bound
      have product : wdPeriod * f = 10 ^ 7 * f := rfl
      have parts := product_parts f long
      have one := Nat.div_eq_sub_div (show 0 < wdPeriod by decide) (Nat.le_of_lt long)
      have others := Nat.zero_le ((usec - wdPeriod) / wdPeriod)
      have less : usec - wdPeriod < usec := Nat.sub_lt (Nat.zero_lt_of_lt long) (by decide)
      obtain ⟨chunk, left, called, rising', used⟩ := udelayChunk_returns f wdPeriod rising (by omega)
      obtain ⟨chunks, rest, called'⟩ := ih (usec - wdPeriod) less rising' (by omega)
      refine ⟨chunk :: chunks, rest, ?_⟩
      rw [udelay_more long, called, Option.bind_some]
      dsimp only
      rw [called', Option.map_some]

end RockOs.Timers
