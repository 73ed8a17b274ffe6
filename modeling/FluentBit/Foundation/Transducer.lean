import Mathlib.Data.List.Basic

/-! Machines that read one symbol after the other and write some outputs for
each, and functions that do the work of such a machine for a part of the input at a time. -/

set_option autoImplicit false

namespace Transducer

open List

variable {State Symbol Output Impl : Type}

def run (step : State → Symbol → List Output × State) : State → List Symbol → List Output × State
  | state, [] => ([], state)
  | state, symbol :: text =>
    let (outputs, state) := step state symbol
    let (later, state) := run step state text
    (outputs ++ later, state)

variable {step : State → Symbol → List Output × State}

@[simp] theorem run_nil (state : State) : run step state [] = ([], state) := rfl

theorem run_cons (state : State) (symbol : Symbol) (text : List Symbol) : run step state (symbol :: text) =
      ((step state symbol).1 ++ (run step (step state symbol).2 text).1, (run step (step state symbol).2 text).2) :=
  rfl

theorem run_append (state : State) (first second : List Symbol) : run step state (first ++ second) =
      ((run step state first).1 ++ (run step (run step state first).2 second).1,
        (run step (run step state first).2 second).2) := by
  induction first generalizing state with
  | nil => rfl
  | cons symbol first ih =>
    rw [cons_append, run_cons, run_cons, ih, append_assoc]

variable {state next : State} {outputs : List Output}

theorem run_resumed {first : List Symbol} (known : run step state first = (outputs, next)) (second : List Symbol) :
    run step state (first ++ second) = (outputs ++ (run step next second).1, (run step next second).2) := by
  rw [run_append, known]

structure Called (Symbol Output Impl : Type) where
  outputs : List Output
  rest : List Symbol
  impl : Impl

def Continues (step : State → Symbol → List Output × State) (state : State) (text : List Symbol)
    (outputs : List Output) (next : State) (rest : List Symbol) : Prop :=
  run step state text = (outputs ++ (run step next rest).1, (run step next rest).2)

theorem Continues.refl (state : State) (text : List Symbol) : Continues step state text [] state text := rfl

variable {text : List Symbol}

theorem Continues.trans {first second third : State} {middle rest : List Symbol} {early late : List Output}
    (left : Continues step first text early second middle) (right : Continues step second middle late third rest) :
    Continues step first text (early ++ late) third rest := by
  unfold Continues at *
  rw [left, right, append_assoc]

theorem Continues.append {state next : State} {text rest : List Symbol} {outputs : List Output}
    (continues : Continues step state text outputs next rest) (more : List Symbol) :
    Continues step state (text ++ more) outputs next (rest ++ more) := by
  unfold Continues at *
  rw [run_append, run_append, continues, append_assoc]

theorem Continues.of_run (known : run step state text = (outputs, next)) (rest : List Symbol) :
    Continues step state (text ++ rest) outputs next rest :=
  run_resumed known rest

theorem Continues.one (symbol : Symbol) (rest : List Symbol) :
    Continues step state (symbol :: rest) (step state symbol).1 (step state symbol).2 rest :=
  run_cons state symbol rest

def Simulates (step : State → Symbol → List Output × State) (related : Impl → State → Prop)
    (call : Impl → List Symbol → Option (Called Symbol Output Impl)) : Prop :=
  ∀ impl state text, related impl state → ∃ called next, call impl text = some called ∧ related called.impl next ∧
    Continues step state text called.outputs next called.rest

def calls (call : Impl → List Symbol → Option (Called Symbol Output Impl)) (impl : Impl) (text : List Symbol) :
    List Nat → Option (Called Symbol Output Impl)
  | [] => some ⟨[], text, impl⟩
  | size :: sizes =>
    match call impl (text.take size) with
    | none => none
    | some first =>
      match calls call first.impl (first.rest ++ text.drop size) sizes with
      | none => none
      | some later => some { later with outputs := first.outputs ++ later.outputs }

variable {call : Impl → List Symbol → Option (Called Symbol Output Impl)}
variable {related : Impl → State → Prop} {impl : Impl}

theorem Simulates.calls (simulates : Simulates step related call) (start : related impl state) (text : List Symbol)
    (sizes : List Nat) : ∃ called next, calls call impl text sizes = some called ∧ related called.impl next ∧
      Continues step state text called.outputs next called.rest := by
  induction sizes generalizing impl state text with
  | nil => exact ⟨_, state, rfl, start, .refl state text⟩
  | cons size sizes ih =>
    obtain ⟨first, middle, done, reached, early⟩ := simulates impl state (text.take size) start
    obtain ⟨later, next, rest, ended, late⟩ := ih reached (first.rest ++ text.drop size)
    have whole := early.append (text.drop size)
    rw [take_append_drop] at whole
    refine ⟨{ later with outputs := first.outputs ++ later.outputs }, next, ?_, ended, whole.trans late⟩
    unfold Transducer.calls
    rw [done]
    simp [rest]

structure Proceeds (related : Impl → State → Prop) (call : Impl → List Symbol → Option (Called Symbol Output Impl))
    (pending : Impl → Nat) : Prop where
  nothing : ∀ impl state called, related impl state → call impl [] = some called → called.rest = []
  less : ∀ impl state text called, related impl state → text ≠ [] → call impl text = some called →
    2 * called.rest.length + pending called.impl < 2 * text.length + pending impl

/-- Calls that proceed take the whole text in the end. -/
theorem Simulates.calls_all {pending : Impl → Nat} (simulates : Simulates step related call)
    (proceeds : Proceeds related call pending) (start : related impl state) (text : List Symbol) {sizes : List Nat}
    (positive : ∀ size ∈ sizes, 0 < size) (enough : text = [] ∨ 2 * text.length + pending impl ≤ sizes.length)
    {called : Called Symbol Output Impl} (done : Transducer.calls call impl text sizes = some called) :
    called.rest = [] := by
  induction sizes generalizing impl state text called with
  | nil =>
    cases done
    cases enough with
    | inl nothing => exact nothing
    | inr short =>
      rw [length_nil] at short
      exact eq_nil_of_length_eq_zero (show text.length = 0 by omega)
  | cons size sizes ih =>
    obtain ⟨first, middle, found, reached, -⟩ := simulates impl state (text.take size) start
    unfold Transducer.calls at done
    rw [found] at done
    simp only at done
    cases rest : Transducer.calls call first.impl (first.rest ++ text.drop size) sizes with
    | none =>
      rw [rest] at done
      cases done
    | some later =>
      rw [rest] at done
      cases done
      have positive' := fun other member => positive other (mem_cons_of_mem _ member)
      have ahead : first.rest ++ text.drop size = [] ∨
          2 * (first.rest ++ text.drop size).length + pending first.impl ≤ sizes.length := by
        by_cases empty : text = []
        · subst empty
          left
          rw [drop_nil, append_nil]
          exact proceeds.nothing impl state first start (take_nil ▸ found)
        · right
          have window : text.take size ≠ [] := by
            rw [ne_eq, take_eq_nil_iff]
            rintro (zero | nothing)
            · exact absurd (positive size mem_cons_self) (zero ▸ Nat.lt_irrefl 0)
            · exact empty nothing
          have less := proceeds.less impl state _ first start window found
          have bound := enough.resolve_left empty
          have whole := congrArg List.length (take_append_drop size text)
          rw [length_append] at whole
          rw [length_cons] at bound
          rw [length_append]
          omega
      have all : later.rest = [] :=
        ih reached _ (fun other member => positive other (mem_cons_of_mem _ member)) ahead rest
      exact all

end Transducer
