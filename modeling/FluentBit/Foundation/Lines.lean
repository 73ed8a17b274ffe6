import Mathlib.Data.List.Basic

/-! Lines of a stream that arrives in pieces. A line is closed by a terminator;
what follows the last terminator is pending. Both are defined with the pending
part of the earlier pieces as an argument, so that pieces compose. -/

set_option autoImplicit false

namespace Lines

open List

variable {α : Type} [DecidableEq α]

/-- The lines `input` closes when `held` is already known of the first one. -/
def closed (terminator : α) : List α → List α → List (List α)
  | _, [] => []
  | held, symbol :: input =>
    if symbol = terminator then held :: closed terminator [] input
    else closed terminator (held ++ [symbol]) input

/-- What is pending after `input`. -/
def pending (terminator : α) : List α → List α → List α
  | held, [] => held
  | held, symbol :: input =>
    if symbol = terminator then pending terminator [] input
    else pending terminator (held ++ [symbol]) input

variable {terminator : α} {held first second : List α}

@[simp] theorem closed_nil : closed terminator held [] = [] := rfl

@[simp] theorem pending_nil : pending terminator held [] = held := rfl

/-- What the first bytes leave pending begins the first line of the others. -/
theorem closed_append : closed terminator held (first ++ second) =
      closed terminator held first ++ closed terminator (pending terminator held first) second := by
  induction first generalizing held with
  | nil => rfl
  | cons symbol first ih =>
    simp only [cons_append, closed, pending]
    split
    · simp [ih]
    · exact ih

theorem pending_append : pending terminator held (first ++ second) =
      pending terminator (pending terminator held first) second := by
  induction first generalizing held with
  | nil => rfl
  | cons symbol first ih =>
    simp only [cons_append, pending]
    split
    · exact ih
    · exact ih

theorem closed_of_not_mem (absent : terminator ∉ first) : closed terminator held first = [] := by
  induction first generalizing held with
  | nil => rfl
  | cons symbol first ih =>
    obtain ⟨different, absent⟩ := not_or.mp (mem_cons.not.mp absent)
    simp [closed, Ne.symm different, ih absent]

theorem pending_of_not_mem (absent : terminator ∉ first) : pending terminator held first = held ++ first := by
  induction first generalizing held with
  | nil => simp
  | cons symbol first ih =>
    obtain ⟨different, absent⟩ := not_or.mp (mem_cons.not.mp absent)
    simp [pending, Ne.symm different, ih absent]

theorem closed_line (absent : terminator ∉ first) : closed terminator held (first ++ terminator :: second) =
      (held ++ first) :: closed terminator [] second := by
  rw [closed_append, closed_of_not_mem absent, pending_of_not_mem absent]
  simp [closed]

theorem pending_line : pending terminator held (first ++ terminator :: second) = pending terminator [] second := by
  rw [pending_append]
  simp [pending]

theorem not_mem_pending (absent : terminator ∉ held) : terminator ∉ pending terminator held first := by
  induction first generalizing held with
  | nil => exact absent
  | cons symbol first ih =>
    simp only [pending]
    split
    · exact ih (by simp)
    next different => exact ih (by simp [absent, Ne.symm different])

theorem closed_held (absent : terminator ∉ held) :
    closed terminator [] (held ++ first) = closed terminator held first := by
  simp [closed_append, closed_of_not_mem absent, pending_of_not_mem absent]

theorem pending_held (absent : terminator ∉ held) :
    pending terminator [] (held ++ first) = pending terminator held first := by
  simp [pending_append, pending_of_not_mem absent]

theorem pending_suffix : pending terminator held first <:+ held ++ first := by
  induction first generalizing held with
  | nil => simp
  | cons symbol first ih =>
    simp only [pending]
    split
    · exact (ih.trans (suffix_cons _ _)).trans (suffix_append _ _)
    · simpa using @ih (held ++ [symbol])

theorem held_prefix (held first : List α) :
    ∃ line, (line ∈ closed terminator held first ∨ line = pending terminator held first) ∧ held <+: line := by
  induction first generalizing held with
  | nil => exact ⟨held, .inr rfl, prefix_rfl⟩
  | cons symbol first ih =>
    simp only [closed, pending]
    split
    · exact ⟨held, .inl (by simp), prefix_rfl⟩
    · obtain ⟨line, place, longer⟩ := ih (held ++ [symbol])
      exact ⟨line, place, (prefix_append _ _).trans longer⟩

theorem length_of_mem_closed {line : List α} (member : line ∈ closed terminator held first) :
    line.length + 1 ≤ held.length + first.length := by
  induction first generalizing held with
  | nil => simp at member
  | cons symbol first ih =>
    simp only [closed] at member
    split at member
    · rcases mem_cons.mp member with rfl | member
      · simp
      · have bound := ih member
        simp at bound ⊢
        omega
    · have bound := ih member
      simp at bound ⊢
      omega

end Lines
