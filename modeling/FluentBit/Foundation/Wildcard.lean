import Mathlib.Computability.Language

/-! Patterns in which one letter stands for any text and the others for themselves. -/

set_option autoImplicit false

namespace Wildcard

open List

variable {α : Type} [DecidableEq α]

def symbol (star letter : α) : Language α := if letter = star then ⊤ else {[letter]}

def language (star : α) (pattern : List α) : Language α := (pattern.map (symbol star)).prod

variable {text pattern : List α} {star : α}

theorem mem_language_nil : text ∈ language star [] ↔ text = [] := Language.mem_one text

theorem language_cons (star letter : α) :
    language star (letter :: pattern) = symbol star letter * language star pattern :=
  prod_cons

theorem mem_language_letter {letter : α} (plain : letter ≠ star) :
    text ∈ language star (letter :: pattern) ↔ ∃ rest, text = letter :: rest ∧ rest ∈ language star pattern := by
  rw [language_cons, symbol, if_neg plain, Language.mem_mul]
  constructor
  · intro product
    obtain ⟨first, single, rest, member, rfl⟩ := product
    cases (single : first = [letter])
    exact ⟨rest, rfl, member⟩
  · intro found
    obtain ⟨rest, rfl, member⟩ := found
    exact ⟨[letter], rfl, rest, member, rfl⟩

theorem mem_language_star :
    text ∈ language star (star :: pattern) ↔ ∃ rest, rest <:+ text ∧ rest ∈ language star pattern := by
  rw [language_cons, symbol, if_pos rfl, Language.mem_mul]
  constructor
  · intro product
    obtain ⟨first, -, rest, member, rfl⟩ := product
    exact ⟨rest, suffix_append first rest, member⟩
  · intro found
    obtain ⟨rest, ⟨first, rfl⟩, member⟩ := found
    exact ⟨first, trivial, rest, member, rfl⟩

theorem mem_language_last : text ∈ language star [star] :=
  mem_language_star.mpr ⟨[], nil_suffix, mem_language_nil.mpr rfl⟩

theorem mem_language_run :
    text ∈ language star (star :: pattern) ↔ text ∈ language star (star :: pattern.dropWhile (· = star)) := by
  induction pattern generalizing text with
  | nil => exact Iff.rfl
  | cons letter pattern ih =>
    by_cases again : letter = star
    · subst again
      rw [dropWhile_cons_of_pos (by exact decide_eq_true rfl), ← ih]
      constructor
      · intro member
        obtain ⟨rest, inside, member⟩ := mem_language_star.mp member
        obtain ⟨last, after, member⟩ := mem_language_star.mp member
        exact mem_language_star.mpr ⟨last, after.trans inside, member⟩
      · intro member
        exact mem_language_star.mpr ⟨text, suffix_rfl, member⟩
    · rw [dropWhile_cons_of_neg (by simpa using again)]

end Wildcard
