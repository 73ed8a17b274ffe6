import Mathlib.Data.List.Basic

/-! Programs that look at cells of a memory, one after another. A run depends on the memory through
the cells that it reads, and on nothing else. -/

set_option autoImplicit false

inductive Reading (Cell Value : Type) where
  | done (value : Value)
  | read (index : Nat) (next : Cell → Reading Cell Value)

namespace Reading

variable {Cell Value Result : Type}

def andThen : Reading Cell Value → (Value → Reading Cell Result) → Reading Cell Result
  | done value, next => next value
  | read index rest, next => read index fun cell => (rest cell).andThen next

instance : Monad (Reading Cell) where
  pure := done
  bind := andThen

def cell (index : Nat) : Reading Cell Cell := read index done

def value (memory : Nat → Cell) : Reading Cell Value → Value
  | done value => value
  | read index next => (next (memory index)).value memory

def reads (memory : Nat → Cell) : Reading Cell Value → List Nat
  | done _ => []
  | read index next => index :: (next (memory index)).reads memory

def Within (memory : Nat → Cell) (bound : Nat) (program : Reading Cell Value) : Prop :=
  ∀ index ∈ program.reads memory, index < bound

variable {memory other : Nat → Cell} {bound : Nat}

/-! ### The parts of a program -/

@[simp] theorem value_pure (result : Value) : (pure result : Reading Cell Value).value memory = result := rfl

@[simp] theorem value_cell (index : Nat) : (cell index).value memory = memory index := rfl

@[simp] theorem value_bind (program : Reading Cell Value) (next : Value → Reading Cell Result) :
    (program >>= next).value memory = (next (program.value memory)).value memory := by
  induction program with
  | done value => rfl
  | read index rest ih => exact ih (memory index)

@[simp] theorem reads_pure (result : Value) : (pure result : Reading Cell Value).reads memory = [] := rfl

@[simp] theorem reads_cell (index : Nat) : (cell index).reads memory = [index] := rfl

@[simp] theorem reads_bind (program : Reading Cell Value) (next : Value → Reading Cell Result) :
    (program >>= next).reads memory = program.reads memory ++ (next (program.value memory)).reads memory := by
  induction program with
  | done value => rfl
  | read index rest ih => exact congrArg (List.cons index) (ih (memory index))

@[simp] theorem within_pure (result : Value) : (pure result : Reading Cell Value).Within memory bound := by
  simp [Within]

variable {index start count : Nat}

@[simp] theorem within_cell : (cell index).Within memory bound ↔ index < bound := by
  simp [Within]

variable {program : Reading Cell Value}

@[simp] theorem within_bind {next : Value → Reading Cell Result} : (program >>= next).Within memory bound ↔
      program.Within memory bound ∧ (next (program.value memory)).Within memory bound := by
  simp [Within, or_imp, forall_and]

theorem value_read (next : Cell → Reading Cell Result) :
    (cell index >>= next).value memory = (next (memory index)).value memory := rfl

theorem within_read {next : Cell → Reading Cell Result} :
    (cell index >>= next).Within memory bound ↔ index < bound ∧ (next (memory index)).Within memory bound := by
  rw [within_bind, within_cell, value_cell]

def cells : Nat → Nat → Reading Cell (List Cell)
  | _, 0 => pure []
  | start, count + 1 => do
      let first ← cell start
      let rest ← cells (start + 1) count
      return first :: rest

@[simp] theorem value_cells : (cells start count).value memory = (List.range' start count).map memory := by
  induction count generalizing start with
  | zero => rfl
  | succ count ih => rw [cells, value_read, value_bind, ih, value_pure, List.range'_succ, List.map_cons]

theorem within_cells (inside : start + count ≤ bound) :
    (cells start count : Reading Cell (List Cell)).Within memory bound := by
  induction count generalizing start with
  | zero => exact within_pure []
  | succ count ih =>
    rw [cells, within_read, within_bind]
    exact ⟨by omega, ih (by omega), within_pure _⟩

theorem within_cells_iff :
    (cells start count : Reading Cell (List Cell)).Within memory bound ↔ count = 0 ∨ start + count ≤ bound := by
  constructor
  · intro within
    induction count generalizing start with
    | zero => exact .inl rfl
    | succ count ih =>
      rw [cells, within_read, within_bind] at within
      obtain ⟨first, others, _⟩ := within
      have behind := ih others
      omega
  · intro inside
    cases inside with
    | inl none =>
      rw [none]
      exact within_pure []
    | inr inside => exact within_cells inside

theorem congr (agree : ∀ index ∈ program.reads memory, memory index = other index) :
    program.value memory = program.value other ∧ program.reads memory = program.reads other := by
  induction program with
  | done value => exact ⟨rfl, rfl⟩
  | read index rest ih =>
    have here : memory index = other index := agree index (List.mem_cons_self ..)
    obtain ⟨value, reads⟩ := ih (memory index) fun place member => agree place (List.mem_cons_of_mem _ member)
    rw [Reading.value, Reading.value, Reading.reads, Reading.reads, value, reads, here]
    exact ⟨rfl, rfl⟩

theorem Within.value_eq (within : program.Within memory bound) (agree : ∀ index < bound, memory index = other index) :
    program.value memory = program.value other :=
  (congr fun index member => agree index (within index member)).1

/-! ### Loops -/

section

variable {State : Type} (pass : State → Reading Cell (State ⊕ Result))

def iterate : Nat → State → Reading Cell (Option Result)
  | 0, _ => pure none
  | fuel + 1, state => do
      match ← pass state with
      | .inl next => iterate fuel next
      | .inr result => pure (some result)

inductive Reaches (memory : Nat → Cell) (start : State) : State → Prop where
  | start : Reaches memory start start
  | next {state next : State} : Reaches memory start state → (pass state).value memory = .inl next →
      Reaches memory start next

variable {pass} {start state next : State}

theorem Reaches.head (first : (pass start).value memory = .inl next) (reaches : Reaches pass memory next state) :
    Reaches pass memory start state := by
  induction reaches with
  | start => exact .next .start first
  | next _ step ih => exact .next ih step

theorem Reaches.cases_head (reaches : Reaches pass memory start state) :
    state = start ∨ ∃ next, (pass start).value memory = .inl next ∧ Reaches pass memory next state := by
  induction reaches with
  | start => exact .inl rfl
  | next _ step ih =>
    right
    cases ih with
    | inl here =>
      rw [here] at step
      exact ⟨_, step, .start⟩
    | inr further =>
      obtain ⟨first, begins, reaches⟩ := further
      exact ⟨first, begins, .next reaches step⟩

theorem value_iterate (fuel : Nat) : (iterate pass (fuel + 1) state).value memory =
      match (pass state).value memory with
      | .inl next => (iterate pass fuel next).value memory
      | .inr result => some result := by
  rw [iterate, value_bind]
  cases (pass state).value memory with
  | inl next => rfl
  | inr result => rfl

theorem within_iterate_succ (fuel : Nat) : (iterate pass (fuel + 1) state).Within memory bound ↔
      (pass state).Within memory bound ∧
        ∀ next, (pass state).value memory = .inl next → (iterate pass fuel next).Within memory bound := by
  rw [iterate, within_bind]
  cases (pass state).value memory with
  | inl next => simp
  | inr result => simp

variable {fuel : Nat} {measure : State → Nat}

section

variable (smaller : ∀ state next, (pass state).value memory = .inl next → measure next < measure state)
  (enough : measure start < fuel)
include smaller enough

/-- A loop reads within the bound if each state it reaches does, and only then. -/
theorem within_iterate : (iterate pass fuel start).Within memory bound ↔
      ∀ state, Reaches pass memory start state → (pass state).Within memory bound := by
  induction fuel generalizing start with
  | zero => exact absurd enough (Nat.not_lt_zero _)
  | succ fuel ih =>
    rw [within_iterate_succ]
    constructor
    · intro ⟨here, later⟩ state reaches
      cases reaches.cases_head with
      | inl same =>
        rw [same]
        exact here
      | inr further =>
        obtain ⟨next, step, reaches⟩ := further
        have less := smaller start next step
        exact (ih (by omega)).mp (later next step) state reaches
    · intro every
      constructor
      · exact every start .start
      · intro next step
        have less := smaller start next step
        exact (ih (by omega)).mpr fun state reaches => every state (reaches.head step)

theorem Reaches.value_eq (reaches : Reaches pass memory start state) {result : Result}
    (ends : (pass state).value memory = .inr result) : (iterate pass fuel start).value memory = some result := by
  induction fuel generalizing start with
  | zero => exact absurd enough (Nat.not_lt_zero _)
  | succ fuel ih =>
    rw [value_iterate]
    cases reaches.cases_head with
    | inl same =>
      rw [← same, ends]
    | inr further =>
      obtain ⟨next, step, reaches⟩ := further
      have less := smaller start next step
      rw [step]
      exact ih (by omega) reaches

end

/-- A loop with a measure that falls comes to its result. -/
theorem exists_result {measure : State → Nat}
    (smaller : ∀ state next, (pass state).value memory = .inl next → measure next < measure state) {fuel : Nat}
    (enough : measure start < fuel) :
    ∃ state result, Reaches pass memory start state ∧ (pass state).value memory = .inr result ∧
      (iterate pass fuel start).value memory = some result := by
  induction fuel generalizing start with
  | zero => exact absurd enough (Nat.not_lt_zero _)
  | succ fuel ih =>
    rw [value_iterate]
    cases step : (pass start).value memory with
    | inl next =>
      have less := smaller start next step
      obtain ⟨state, result, reaches, ends, value⟩ := @ih next (by omega)
      exact ⟨state, result, reaches.head step, ends, value⟩
    | inr result => exact ⟨start, result, .start, step, rfl⟩

end

end Reading
