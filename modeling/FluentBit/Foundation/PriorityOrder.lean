import Mathlib.Data.List.Basic
import Mathlib.Order.Lattice

/-! Which entry of a list is next when the lowest rank goes first, and the earliest among
those of one rank. -/

set_option autoImplicit false

namespace PriorityOrder

variable {Entry Rank : Type} [LinearOrder Rank] {rank : Entry → Rank} {entries : List Entry} {entry : Entry}

def IsNext (rank : Entry → Rank) (entries : List Entry) (entry : Entry) : Prop :=
  ∃ before after, entries = before ++ entry :: after ∧ (∀ other ∈ before, rank entry < rank other) ∧
    ∀ other ∈ after, rank entry ≤ rank other

def next? (rank : Entry → Rank) : List Entry → Option Entry
  | [] => none
  | entry :: rest =>
    match next? rank rest with
    | none => some entry
    | some other => if rank other < rank entry then some other else some entry

theorem next?_eq_none_iff : next? rank entries = none ↔ entries = [] := by
  cases entries with
  | nil => exact iff_of_true rfl rfl
  | cons first rest =>
    constructor
    · intro absent
      unfold next? at absent
      split at absent
      · cases absent
      · split at absent
        · cases absent
        · cases absent
    · intro impossible
      cases impossible

theorem isNext_of_next? (found : next? rank entries = some entry) : IsNext rank entries entry := by
  induction entries generalizing entry with
  | nil => cases found
  | cons first rest ih =>
    unfold next? at found
    cases later : next? rank rest with
    | none =>
      rw [later] at found
      cases found
      rw [next?_eq_none_iff.mp later]
      exact ⟨[], [], rfl, by simp, by simp⟩
    | some other =>
      obtain ⟨before, after, split, earlier, behind⟩ := ih later
      rw [later] at found
      by_cases lower : rank other < rank first
      · simp only [if_pos lower, Option.some.injEq] at found
        subst found
        refine ⟨first :: before, after, by rw [split, List.cons_append], ?_, behind⟩
        intro one member
        cases member with
        | head => exact lower
        | tail _ member => exact earlier one member
      · simp only [if_neg lower, Option.some.injEq] at found
        subst found
        refine ⟨[], rest, rfl, by simp, ?_⟩
        have least := not_lt.mp lower
        intro one member
        rw [split, List.mem_append, List.mem_cons] at member
        rcases member with before | rfl | after
        · exact le_trans least (le_of_lt (earlier one before))
        · exact least
        · exact le_trans least (behind one after)

theorem IsNext.unique {other : Entry} (first : IsNext rank entries entry) (second : IsNext rank entries other) :
    entry = other := by
  obtain ⟨before, after, rfl, earlier, behind⟩ := first
  obtain ⟨otherBefore, otherAfter, split, otherEarlier, otherBehind⟩ := second
  have apart : ∀ {one two : Entry}, rank one < rank two → ¬ rank two ≤ rank one := fun less => not_le.mpr less
  rcases List.append_eq_append_iff.mp split with ⟨middle, same, rest⟩ | ⟨middle, same, rest⟩
  · cases middle with
    | nil => exact (List.cons.inj rest).1
    | cons item middle =>
      -- the first one is before the other, and is not lower
      obtain ⟨rfl, tail⟩ := List.cons.inj rest
      have here := otherEarlier entry (by simp [same])
      exact absurd (behind other (by simp [tail])) (apart here)
  · cases middle with
    | nil => exact (List.cons.inj rest).1.symm
    | cons item middle =>
      obtain ⟨rfl, tail⟩ := List.cons.inj rest
      have here := earlier other (by simp [same])
      exact absurd (otherBehind entry (by simp [tail])) (apart here)

theorem next?_eq_some_iff : next? rank entries = some entry ↔ IsNext rank entries entry := by
  constructor
  · exact isNext_of_next?
  · intro isNext
    cases found : next? rank entries with
    | none =>
      obtain ⟨before, after, split, -⟩ := isNext
      rw [next?_eq_none_iff.mp found] at split
      simp at split
    | some other => rw [isNext.unique (isNext_of_next? found)]

theorem next?_of_level {level : Rank} (lowest : ∀ other ∈ entries, level ≤ rank other)
    (first : (entries.filter (rank · = level)).head? = some entry) : next? rank entries = some entry := by
  rw [List.head?_filter, List.find?_eq_some_iff_append] at first
  obtain ⟨atLevel, before, after, split, others⟩ := first
  have same : rank entry = level := by simpa using atLevel
  rw [next?_eq_some_iff]
  refine ⟨before, after, split, ?_, ?_⟩
  · intro other member
    have different : rank other ≠ level := by simpa using others other member
    rw [same]
    exact lt_of_le_of_ne (lowest other (by simp [split, member])) different.symm
  · intro other member
    rw [same]
    exact lowest other (by simp [split, member])

theorem IsNext.mem (isNext : IsNext rank entries entry) : entry ∈ entries := by
  obtain ⟨before, after, rfl, -⟩ := isNext
  simp

end PriorityOrder
