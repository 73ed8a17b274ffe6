import Mathlib.Data.List.Basic

/-! Parts that stand one behind another, and the places where they end. -/

set_option autoImplicit false

namespace Boundaries

open List

variable {α : Type}

def ends : Nat → List (List α) → List Nat
  | _, [] => []
  | start, part :: parts => (start + part.length) :: ends (start + part.length) parts

def inner (start : Nat) (parts : List (List α)) : List Nat := (ends start parts).dropLast

def pieces : Nat → List Nat → List α → List (List α)
  | _, [], _ => []
  | start, stop :: stops, text => text.take (stop - start) :: pieces stop stops (text.drop (stop - start))

variable {start place : Nat} {part : List α} {parts : List (List α)}

@[simp] theorem length_ends : (ends start parts).length = parts.length := by
  induction parts generalizing start with
  | nil => rfl
  | cons part parts ih => rw [ends, length_cons, ih, length_cons]

@[simp] theorem length_inner : (inner start parts).length = parts.length - 1 := by
  rw [inner, length_dropLast, length_ends]

theorem ends_ne_nil (nonempty : parts ≠ []) : ends start parts ≠ [] := by
  rw [← length_pos_iff, length_ends]
  exact length_pos_iff.mpr nonempty

theorem pieces_ends : pieces start (ends start parts) parts.flatten = parts := by
  induction parts generalizing start with
  | nil => rfl
  | cons part parts ih =>
    rw [ends, pieces, Nat.add_sub_cancel_left, flatten_cons, take_left, drop_left, ih]

theorem getLast_ends (nonempty : parts ≠ []) :
    (ends start parts).getLast (ends_ne_nil nonempty) = start + parts.flatten.length := by
  induction parts generalizing start with
  | nil => exact absurd rfl nonempty
  | cons part parts ih =>
    cases parts with
    | nil => simp [ends]
    | cons next parts =>
      have last := @ih (start + part.length) (cons_ne_nil _ _)
      rw [flatten_cons, length_append, ← Nat.add_assoc, ← last]
      rfl

theorem ends_eq (nonempty : parts ≠ []) : ends start parts = inner start parts ++ [start + parts.flatten.length] := by
  rw [← getLast_ends nonempty, inner, dropLast_append_getLast]

theorem inner_cons_cons (first second : List α) :
    inner start (first :: second :: parts) = (start + first.length) :: inner (start + first.length) (second :: parts) := rfl

/-- An inner boundary has parts in front of it and behind it. -/
theorem mem_inner_iff : place ∈ inner start parts ↔
    ∃ front back, parts = front ++ back ∧ front ≠ [] ∧ back ≠ [] ∧ place = start + front.flatten.length := by
  induction parts generalizing start with
  | nil =>
    constructor
    · intro member
      cases member
    · rintro ⟨front, back, empty, nonempty, _⟩
      exact absurd (append_eq_nil_iff.mp empty.symm).1 nonempty
  | cons part parts ih =>
    cases parts with
    | nil =>
      constructor
      · intro member
        cases member
      · rintro ⟨front, back, single, nonempty, moreThanOne, _⟩
        have length := congrArg List.length single
        have first := length_pos_iff.mpr nonempty
        have second := length_pos_iff.mpr moreThanOne
        rw [length_append, length_singleton] at length
        omega
    | cons next parts =>
      rw [inner_cons_cons, mem_cons, ih]
      constructor
      · rintro (here | ⟨front, back, shape, nonempty, more, same⟩)
        · exact ⟨[part], next :: parts, rfl, cons_ne_nil _ _, cons_ne_nil _ _, by simpa using here⟩
        · refine ⟨part :: front, back, by rw [shape, cons_append], cons_ne_nil _ _, more, ?_⟩
          rw [same, flatten_cons, length_append, Nat.add_assoc]
      · rintro ⟨front, back, shape, nonempty, more, same⟩
        cases front with
        | nil => exact absurd rfl nonempty
        | cons first front =>
          obtain ⟨rfl, rest⟩ := List.cons.inj shape
          cases front with
          | nil => exact .inl (by simpa using same)
          | cons second front =>
            refine .inr ⟨second :: front, back, rest, cons_ne_nil _ _, more, ?_⟩
            rw [same, flatten_cons, length_append, Nat.add_assoc]

theorem pairwise_inner (nonempty : ∀ part ∈ parts, part ≠ []) : (inner start parts).Pairwise (· < ·) := by
  induction parts generalizing start with
  | nil => exact .nil
  | cons part parts ih =>
    cases parts with
    | nil => exact .nil
    | cons next parts =>
      have later : ∀ part ∈ next :: parts, part ≠ [] := fun part member => nonempty part (mem_cons_of_mem _ member)
      rw [inner_cons_cons, pairwise_cons]
      refine ⟨?_, ih later⟩
      intro place member
      obtain ⟨front, back, shape, notFirst, _, same⟩ := mem_inner_iff.mp member
      cases front with
      | nil => exact absurd rfl notFirst
      | cons first front =>
        have positive := length_pos_iff.mpr (later first (by rw [shape]; exact mem_cons_self ..))
        rw [same, flatten_cons, length_append]
        omega

end Boundaries
