import Mathlib.Logic.Relation

/-! Runs of a deterministic step function. Each event of a run has to be
admissible in the state it is applied to; a run without restrictions uses the
condition that is always true. -/

set_option autoImplicit false

namespace Runs

variable {State Event : Type} {step : Event → State → State}

/-- The states reached from `start` by admissible events. -/
inductive Path (step : Event → State → State) (admissible : State → Event → Prop) (start : State) : State → Prop where
  | start : Path step admissible start start
  | next {state : State} {event : Event} :
      Path step admissible start state → admissible state event →
      Path step admissible start (step event state)

def anyEvent (_ : State) (_ : Event) : Prop := True

variable {admissible : State → Event → Prop}
variable {start state : State}

theorem Path.invariant (path : Path step admissible start state) (invariant : State → Prop) (initial : invariant start)
    (preserved : ∀ state event, invariant state → admissible state event → invariant (step event state)) :
    invariant state := by
  induction path with
  | start => exact initial
  | next _ admitted ih => exact preserved _ _ ih admitted

def Admits (step : Event → State → State) (admissible : State → Event → Prop) : State → List Event → Prop
  | _, [] => True
  | state, event :: rest =>
    admissible state event ∧ Admits step admissible (step event state) rest

def after (step : Event → State → State) : State → List Event → State
  | state, [] => state
  | state, event :: rest => after step (step event state) rest

theorem Path.extend (path : Path step admissible start state) (events : List Event)
    (admitted : Admits step admissible state events) : Path step admissible start (after step state events) := by
  induction events generalizing state with
  | nil => exact path
  | cons event rest ih =>
    obtain ⟨first, later⟩ := admitted
    exact ih (.next path first) later

theorem path_after {start : State} (events : List Event) (admitted : Admits step admissible start events) :
    Path step admissible start (after step start events) :=
  Path.extend .start events admitted

theorem admits_of_forall (always : ∀ state event, admissible state event) (start : State) (events : List Event) :
    Admits step admissible start events := by
  induction events generalizing start with
  | nil => trivial
  | cons event rest ih => exact ⟨always start event, ih _⟩

/-- A run beside the run of some of its events: the events they share keep the relation,
and so do the others on the one side alone. -/
theorem related_filter {kept : Event → Bool} (related : State → State → Prop)
    (lockstep : ∀ left right event, related left right → admissible left event → kept event = true → related (step event left) (step event right))
    (silent : ∀ left right event, related left right → admissible left event → kept event = false → related (step event left) right)
    (events : List Event) {left right : State} (start : related left right)
    (admitted : Admits step admissible left events) :
    related (after step left events) (after step right (events.filter kept)) := by
  induction events generalizing left right with
  | nil => exact start
  | cons event rest ih =>
    obtain ⟨first, later⟩ := admitted
    cases keep : kept event with
    | true =>
      rw [List.filter_cons_of_pos keep]
      exact ih (lockstep left right event start first keep) later
    | false =>
      rw [List.filter_cons_of_neg (by simp [keep])]
      exact ih (silent left right event start first keep) later

theorem reached (step : Event → State → State) (start : State) (events : List Event) :
    Path step anyEvent start (after step start events) :=
  path_after events (admits_of_forall (fun _ _ => trivial) start events)

end Runs
