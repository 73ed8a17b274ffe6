import Mathlib.Tactic.ByContra

/-! A loop that goes on while a condition holds, with a measure that its body never raises: it ends
unless it comes to a state that it cannot leave. -/

set_option autoImplicit false

namespace Loop

variable {State : Type} (going : State → Prop) [DecidablePred going] (body : State → State)

def step (state : State) : State := if going state then body state else state

def passes : Nat → State → State
  | 0, state => state
  | n + 1, state => step going body (passes n state)

variable {going} {body} {state : State}

theorem step_going (goes : going state) : step going body state = body state := if_pos goes

theorem step_ended (ended : ¬ going state) : step going body state = state := if_neg ended

theorem passes_add (n m : Nat) : passes going body (n + m) state = passes going body m (passes going body n state) := by
  induction m with
  | zero => rfl
  | succ m ih => exact congrArg (step going body) ih

theorem passes_succ (n : Nat) : passes going body (n + 1) state = passes going body n (step going body state) := by
  rw [Nat.add_comm, passes_add]
  rfl

theorem passes_ended (ended : ¬ going state) (n : Nat) : passes going body n state = state := by
  induction n with
  | zero => rfl
  | succ n ih =>
    rw [passes, ih]
    exact step_ended ended

theorem going_of_le {n m : Nat} (before : n ≤ m) (goes : going (passes going body m state)) :
    going (passes going body n state) := by
  by_contra ended
  obtain ⟨more, rfl⟩ := Nat.exists_eq_add_of_le before
  rw [passes_add, passes_ended ended] at goes
  exact ended goes

variable {measure : State → Nat}

theorem passes_measure_le (lowers : ∀ state, measure (body state) ≤ measure state) (n m : Nat) :
    measure (passes going body (n + m) state) ≤ measure (passes going body n state) := by
  induction m with
  | zero => exact Nat.le_refl _
  | succ m ih =>
    have one : measure (step going body (passes going body (n + m) state)) ≤
        measure (passes going body (n + m) state) := by
      unfold step
      split
      · exact lowers _
      · exact Nat.le_refl _
    exact Nat.le_trans one ih

theorem exists_settled (lowers : ∀ state, measure (body state) ≤ measure state) (state : State) :
    ∃ n, ∀ m, measure (passes going body (n + m) state) = measure (passes going body n state) := by
  have bounded : ∀ bound n, measure (passes going body n state) ≤ bound →
      ∃ n, ∀ m, measure (passes going body (n + m) state) = measure (passes going body n state) := by
    intro bound
    induction bound with
    | zero =>
      intro n low
      refine ⟨n, fun m => ?_⟩
      have later : measure (passes going body (n + m) state) ≤ measure (passes going body n state) :=
        passes_measure_le lowers n m
      omega
    | succ bound ih =>
      intro n low
      by_cases drops : ∃ m, measure (passes going body (n + m) state) ≤ bound
      · obtain ⟨m, lower⟩ := drops
        exact ih (n + m) lower
      · refine ⟨n, fun m => ?_⟩
        have later : measure (passes going body (n + m) state) ≤ measure (passes going body n state) :=
          passes_measure_le lowers n m
        have high : ¬ measure (passes going body (n + m) state) ≤ bound := fun lower => drops ⟨m, lower⟩
        have start : ¬ measure (passes going body n state) ≤ bound := fun lower => drops ⟨0, lower⟩
        omega
  exact bounded _ 0 (Nat.le_refl _)

/-- The loop ends exactly when it never comes to a state in which it is stuck: a body keeps such a
state stuck, and where the measure does not fall any more the state is one. -/
theorem ends_iff {stuck : State → Prop} (lowers : ∀ state, measure (body state) ≤ measure state)
    (stays : ∀ state, going state → stuck state → going (body state) ∧ stuck (body state))
    (settles : ∀ state, (∀ n, going (passes going body n state)) →
      (∀ n, measure (passes going body n state) = measure state) → stuck state) (state : State) :
    (∃ n, ¬ going (passes going body n state)) ↔
      ∀ n, ¬ (going (passes going body n state) ∧ stuck (passes going body n state)) := by
  constructor
  · rintro ⟨last, ended⟩ n ⟨goes, jams⟩
    have forever : ∀ m, going (passes going body (n + m) state) ∧ stuck (passes going body (n + m) state) := by
      intro m
      induction m with
      | zero => exact ⟨goes, jams⟩
      | succ m ih =>
        have next := stays _ ih.1 ih.2
        have same : passes going body (n + (m + 1)) state = body (passes going body (n + m) state) := step_going ih.1
        rwa [← same] at next
    exact ended (going_of_le (Nat.le_add_left last n) (forever last).1)
  · intro free
    by_contra endless
    have goes : ∀ n, going (passes going body n state) := fun n => by_contra fun ended => endless ⟨n, ended⟩
    obtain ⟨n, settled⟩ := @exists_settled State going _ body measure lowers state
    refine free n ⟨goes n, settles _ ?_ ?_⟩
    · intro m
      rw [← passes_add]
      exact goes (n + m)
    · intro m
      rw [← passes_add]
      exact settled m

end Loop
