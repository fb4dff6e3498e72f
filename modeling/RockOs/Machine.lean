import Mathlib.Logic.Basic

/-! Sequential code that can stop early. A computation takes the state it
runs in and either returns, stops in a panic, makes an access the language
leaves undefined, or loops for ever; the first three say in which state. The
binding lemmas let a proof peel a computation apart one call at a time. -/
namespace RockOs.Machine

/-- How a computation over states `σ`, with panics `ε`, can end. -/
inductive Outcome (σ ε α : Type) where
  | ret (value : α) (state : σ)
  | panic (reason : ε) (state : σ)
  /-- A null dereference or an index outside an array. -/
  | fault (state : σ)
  | hang
  deriving DecidableEq, Repr

/-- Why a computation stopped, if it panicked. -/
def Outcome.reason? : Outcome σ ε α → Option ε
  | .panic reason _ => some reason
  | _ => none

theorem Outcome.panic_of_reason {outcome : Outcome σ ε α} (stopped : outcome.reason? = some reason) :
    ∃ state, outcome = .panic reason state := by
  cases outcome with
  | panic _ state =>
    cases stopped
    exact ⟨state, rfl⟩
  | ret | fault | hang => cases stopped

/-- The state a computation returned in. -/
def Outcome.after? : Outcome σ ε α → Option σ
  | .ret _ state => some state
  | _ => none

theorem Outcome.ret_of_after {outcome : Outcome σ ε α} (returned : outcome.after? = some state) :
    ∃ value, outcome = .ret value state := by
  cases outcome with
  | ret value _ =>
    cases returned
    exact ⟨value, rfl⟩
  | panic | fault | hang => cases returned

/-- A state passing computation. -/
def Code (σ ε α : Type) : Type := σ → Outcome σ ε α

variable {σ ε α β : Type}

instance : Monad (Code σ ε) where
  pure value := fun state => .ret value state
  bind first next := fun state =>
    match first state with
    | .ret value middle => next value middle
    | .panic reason stopped => .panic reason stopped
    | .fault stopped => .fault stopped
    | .hang => .hang

/-- The current state. -/
def read : Code σ ε σ := fun state => .ret state state

/-- Replace the state. -/
def write (state : σ) : Code σ ε Unit := fun _ => .ret () state

/-- Stop with a reason. -/
def panic (reason : ε) : Code σ ε α := fun state => .panic reason state

/-- An undefined access. -/
def fault : Code σ ε α := fun state => .fault state

/-- A loop that never ends. -/
def hang : Code σ ε α := fun _ => .hang

@[simp] theorem pure_apply (value : α) (state : σ) :
    (pure value : Code σ ε α) state = .ret value state := rfl

@[simp] theorem read_apply (state : σ) : (read : Code σ ε σ) state = .ret state state := rfl

@[simp] theorem write_apply (new state : σ) :
    (write new : Code σ ε Unit) state = .ret () new := rfl

@[simp] theorem panic_apply (reason : ε) (state : σ) :
    (panic reason : Code σ ε α) state = .panic reason state := rfl

@[simp] theorem fault_apply (state : σ) : (fault : Code σ ε α) state = .fault state := rfl

@[simp] theorem hang_apply (state : σ) : (hang : Code σ ε α) state = .hang := rfl

theorem bind_apply (first : Code σ ε α) (next : α → Code σ ε β) (state : σ) : (first >>= next) state =
    match first state with
    | .ret value middle => next value middle
    | .panic reason stopped => .panic reason stopped
    | .fault stopped => .fault stopped
    | .hang => .hang := rfl

/-- A call that returns hands its value and state to the rest. -/
theorem bind_of_ret {first : Code σ ε α} {next : α → Code σ ε β}
    (returned : first state = .ret value middle) : (first >>= next) state = next value middle := by
  rw [bind_apply, returned]

/-- A sequence that returns is two calls that return. -/
theorem ret_of_bind {first : Code σ ε α} {next : α → Code σ ε β}
    (returned : (first >>= next) state = .ret result after) :
    ∃ value middle, first state = .ret value middle ∧ next value middle = .ret result after := by
  rw [bind_apply] at returned
  cases ended : first state with
  | ret value middle =>
    rw [ended] at returned
    exact ⟨value, middle, rfl, returned⟩
  | panic | fault | hang =>
    rw [ended] at returned
    cases returned

theorem bind_of_panic {first : Code σ ε α} {next : α → Code σ ε β}
    (stopped : first state = .panic reason middle) :
    (first >>= next) state = .panic reason middle := by
  rw [bind_apply, stopped]

theorem bind_assoc (first : Code σ ε α) (next : α → Code σ ε β) (last : β → Code σ ε γ) :
    first >>= next >>= last = first >>= fun value => next value >>= last := by
  funext state
  rw [bind_apply, bind_apply, bind_apply]
  cases first state <;> rfl

@[simp] theorem read_bind (next : σ → Code σ ε β) (state : σ) :
    (read >>= next) state = next state state := rfl

@[simp] theorem write_bind (new state : σ) (next : Unit → Code σ ε β) :
    (write new >>= next) state = next () new := rfl

@[simp] theorem pure_bind_apply (value : α) (next : α → Code σ ε β) (state : σ) :
    ((pure value : Code σ ε α) >>= next) state = next value state := rfl

@[simp] theorem panic_bind (reason : ε) (next : α → Code σ ε β) (state : σ) :
    ((panic reason : Code σ ε α) >>= next) state = .panic reason state := rfl

@[simp] theorem fault_bind (next : α → Code σ ε β) (state : σ) :
    ((fault : Code σ ε α) >>= next) state = .fault state := rfl

/-! ## Code that only returns or panics -/

/-- The computation makes no undefined access and does not loop. It returns
with `post`, or panics for a reason that `stops` allows. -/
def Outcome.Ends (stops : ε → Prop) (post : α → σ → Prop) : Outcome σ ε α → Prop
  | .ret value state => post value state
  | .panic reason _ => stops reason
  | .fault _ => False
  | .hang => False

/-- As before, with panics for any reason. -/
abbrev Outcome.Safe (post : α → σ → Prop) : Outcome σ ε α → Prop := Outcome.Ends (fun _ => True) post

variable {stops : ε → Prop}

@[simp] theorem ends_ret {post : α → σ → Prop} :
    (Outcome.ret value state : Outcome σ ε α).Ends stops post ↔ post value state := Iff.rfl

@[simp] theorem ends_panic {post : α → σ → Prop} :
    (Outcome.panic reason state : Outcome σ ε α).Ends stops post ↔ stops reason := Iff.rfl

theorem Outcome.Ends.mono {outcome : Outcome σ ε α} {more : ε → Prop} {weak strong : α → σ → Prop}
    (ends : outcome.Ends stops strong) (allowed : ∀ reason, stops reason → more reason)
    (weaker : ∀ value state, strong value state → weak value state) : outcome.Ends more weak := by
  cases outcome with
  | ret value state => exact weaker value state ends
  | panic reason => exact allowed reason ends
  | fault | hang => exact ends

/-- A sequence ends well when its first part does and the rest ends well from
every state the first part returns in. -/
theorem Outcome.Ends.bind {first : Code σ ε α} {next : α → Code σ ε β} {middle : α → σ → Prop}
    {post : β → σ → Prop} (ends : (first state).Ends stops middle)
    (rest : ∀ value between, first state = .ret value between → middle value between →
      (next value between).Ends stops post) :
    ((first >>= next) state).Ends stops post := by
  rw [bind_apply]
  cases ended : first state with
  | ret value between =>
    rw [ended] at ends
    exact rest value between ended ends
  | panic | fault | hang =>
    rw [ended] at ends
    exact ends

/-- And when it ends well so did its first part. -/
theorem Outcome.Ends.of_bind {first : Code σ ε α} {next : α → Code σ ε β} {post : β → σ → Prop}
    (ends : ((first >>= next) state).Ends stops post) :
    (first state).Ends stops (fun value between => (next value between).Ends stops post) := by
  rw [bind_apply] at ends
  cases ended : first state with
  | ret value between | panic reason between | fault between | hang =>
    rw [ended] at ends
    exact ends

/-- What returned had ended well. -/
theorem Outcome.Ends.of_ret {outcome : Outcome σ ε α} {post : α → σ → Prop} (ends : outcome.Ends stops post)
    (returned : outcome = .ret value state) : post value state := by
  rw [returned] at ends
  exact ends

/-! ## What holds however code stops -/

/-- Wherever the computation stops the state satisfies `always`, and if it
returns then also `post`. -/
def Outcome.Guards (always : σ → Prop) (post : α → σ → Prop) : Outcome σ ε α → Prop
  | .ret value state => always state ∧ post value state
  | .panic _ state => always state
  | .fault state => always state
  | .hang => True

theorem Outcome.Guards.mono {outcome : Outcome σ ε α} {always every : σ → Prop} {strong weak : α → σ → Prop}
    (guards : outcome.Guards always strong) (more : ∀ state, always state → every state)
    (weaker : ∀ value state, strong value state → weak value state) : outcome.Guards every weak := by
  cases outcome with
  | ret value state => exact ⟨more state guards.1, weaker value state guards.2⟩
  | panic _ state | fault state => exact more state guards
  | hang => trivial

/-- A sequence is guarded when its first part is and the rest is from every
state the first part returns in. -/
theorem Outcome.Guards.bind {first : Code σ ε α} {next : α → Code σ ε β} {always : σ → Prop} {middle : α → σ → Prop}
    {post : β → σ → Prop} (guards : (first state).Guards always middle)
    (rest : ∀ value between, always between → middle value between → (next value between).Guards always post) :
    ((first >>= next) state).Guards always post := by
  rw [bind_apply]
  cases ended : first state with
  | ret value between =>
    rw [ended] at guards
    exact rest value between guards.1 guards.2
  | panic | fault | hang =>
    rw [ended] at guards
    exact guards

/-- Code that keeps `always`, however it stops. -/
structure Preserves (always : σ → Prop) (code : Code σ ε α) : Prop where
  guards : ∀ state, always state → (code state).Guards always fun _ _ => True

namespace Preserves
variable {always : σ → Prop}

theorem ret (value : α) : Preserves always (pure value : Code σ ε α) := ⟨fun _ held => ⟨held, trivial⟩⟩

theorem fault : Preserves always (Machine.fault : Code σ ε α) := ⟨fun _ held => held⟩

theorem write (held : always new) : Preserves always (Machine.write new : Code σ ε Unit) :=
  ⟨fun _ _ => ⟨held, trivial⟩⟩

theorem bind {first : Code σ ε α} {next : α → Code σ ε β} (keeps : Preserves always first)
    (rest : ∀ value, Preserves always (next value)) : Preserves always (first >>= next) :=
  ⟨fun state held => (keeps.guards state held).bind fun value between still _ => (rest value).guards between still⟩

/-- Code that begins by reading the state may use what is kept of it. -/
theorem read {next : σ → Code σ ε β} (rest : ∀ state, always state → Preserves always (next state)) :
    Preserves always (Machine.read >>= next) := ⟨fun state held => (rest state held).guards state held⟩

theorem ite [Decidable condition] {first second : Code σ ε α} (yes : condition → Preserves always first)
    (no : ¬ condition → Preserves always second) : Preserves always (if condition then first else second) := by
  split
  · exact yes ‹_›
  · exact no ‹_›

/-- A sequence that returned passed through a state its first part left. -/
theorem rest_ret {first : Code σ ε α} {next : α → Code σ ε β} (keeps : Preserves always first) (held : always state)
    (returned : (first >>= next) state = .ret result after) :
    ∃ value middle, always middle ∧ next value middle = .ret result after := by
  obtain ⟨value, middle, ended, rest⟩ := ret_of_bind returned
  have guards := keeps.guards state held
  rw [ended] at guards
  exact ⟨value, middle, guards.1, rest⟩

end Preserves

/-! ## Runs -/

/-- A run takes the events one after another and stops at the first one that
cannot be taken. -/
def run {event : Type} (step : σ → event → Option σ) : σ → List event → Option σ
  | state, [] => some state
  | state, next :: events =>
    match step state next with
    | some middle => run step middle events
    | none => none

/-- What holds at the start and survives every step holds after every run. -/
theorem run_invariant {event : Type} {step : σ → event → Option σ} {holds : σ → Prop}
    (preserved : ∀ state event after, holds state → step state event = some after → holds after)
    (start : holds state) (events : List event) (ran : run step state events = some final) :
    holds final := by
  induction events generalizing state with
  | nil =>
    cases ran
    exact start
  | cons next events ih =>
    cases taken : step state next with
    | none => simp [run, taken] at ran
    | some middle =>
      simp only [run, taken] at ran
      exact ih (preserved state next middle start taken) ran

end RockOs.Machine
