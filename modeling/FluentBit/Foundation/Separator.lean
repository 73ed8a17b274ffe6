import Mathlib.Data.List.Basic

/-! Segments of a text that a separator ends. -/

set_option autoImplicit false

namespace Separator

open List Nat Option

variable {α : Type} [DecidableEq α]

def find (separator : List α) : List α → Option Nat
  | [] => if separator = [] then some 0 else none
  | symbol :: text =>
    if separator.isPrefixOf (symbol :: text) then some 0 else (find separator text).map (· + 1)

/-- The segments a separator ends and what follows the last one, at most `fuel` of them. -/
def segments (separator : List α) : Nat → List α → List (List α) × List α
  | 0, text => ([], text)
  | fuel + 1, text =>
    match find separator text with
    | none => ([], text)
    | some length =>
      let (later, rest) := segments separator fuel (text.drop (length + separator.length))
      (text.take length :: later, rest)

def split (separator text : List α) : List (List α) × List α := segments separator text.length text

variable {separator text : List α} {length : Nat}

theorem find_le (found : find separator text = some length) : length + separator.length ≤ text.length := by
  induction text generalizing length with
  | nil =>
    simp only [find] at found
    split at found
    next empty =>
      cases found
      simp [empty]
    · cases found
  | cons symbol text ih =>
    simp only [find] at found
    split at found
    next first =>
      cases found
      have bound := ( isPrefixOf_iff_prefix.mp first).length_le
      omega
    · obtain ⟨before, earlier, rfl⟩ := map_eq_some_iff.mp found
      have bound := ih earlier
      simp only [length_cons]
      omega

theorem find_append (more : List α) (found : find separator text = some length) :
    find separator (text ++ more) = some length := by
  induction text generalizing length with
  | nil =>
    simp only [find] at found
    split at found
    next empty =>
      cases found
      subst empty
      cases more with
      | nil => rfl
      | cons symbol more => simp [find]
    · cases found
  | cons symbol text ih =>
    simp only [find, cons_append] at found ⊢
    split at found
    next first =>
      cases found
      rw [if_pos]
      have longer := ( isPrefixOf_iff_prefix.mp first).trans (prefix_append _ more)
      exact isPrefixOf_iff_prefix.mpr (by simpa using longer)
    next later =>
      obtain ⟨before, earlier, rfl⟩ := map_eq_some_iff.mp found
      rw [if_neg, ih earlier]
      · rfl
      · intro first
        -- the separator is shorter than the text, so that it stands in the text alone
        have bound := find_le earlier
        apply later
        apply isPrefixOf_iff_prefix.mpr
        apply prefix_of_prefix_length_le ( isPrefixOf_iff_prefix.mp first)
        · simp
        · simp only [length_cons]
          omega

section

variable (nonempty : separator ≠ [])
include nonempty

theorem segments_fuel {fuel : Nat} (enough : text.length ≤ fuel) :
    segments separator fuel text = split separator text := by
  have short : find separator ([] : List α) = none := by simp [find, nonempty]
  induction fuel using Nat.strongRecOn generalizing text with
  | ind fuel ih =>
    have wide : ∀ width, text.length ≤ width → width ≤ fuel → segments separator width text =
          match find separator text with
          | none => ([], text)
          | some length =>
            (text.take length :: (split separator (text.drop (length + separator.length))).1,
              (split separator (text.drop (length + separator.length))).2) := by
      intro width longer bound
      cases width with
      | zero =>
        obtain rfl : text = [] := length_eq_zero_iff.mp (by omega)
        simp [segments, short]
      | succ width =>
        rw [segments]
        cases found : find separator text with
        | none => rfl
        | some length =>
          have fits := find_le found
          have some := length_pos_iff.mpr nonempty
          simp only
          rw [ih width (by omega) (by simp only [length_drop]; omega)]
    rw [split, wide fuel enough (Nat.le_refl _), wide text.length (Nat.le_refl _) enough]

theorem split_eq (text : List α) : split separator text = match find separator text with
      | none => ([], text)
      | some length => (text.take length :: (split separator (text.drop (length + separator.length))).1,
          (split separator (text.drop (length + separator.length))).2) := by
  rw [← segments_fuel nonempty (le_succ text.length), segments]
  cases found : find separator text with
  | none => rfl
  | some length =>
    simp only
    rw [segments_fuel nonempty (by simp only [length_drop]; omega)]

theorem split_of_find (found : find separator text = some length) : split separator text =
      (text.take length :: (split separator (text.drop (length + separator.length))).1,
        (split separator (text.drop (length + separator.length))).2) := by
  rw [split_eq nonempty, found]

theorem split_of_absent (absent : find separator text = none) : split separator text = ([], text) := by
  rw [split_eq nonempty, absent]

end

theorem split_append (nonempty : separator ≠ []) (first second : List α) : split separator (first ++ second) =
      ((split separator first).1 ++ (split separator ((split separator first).2 ++ second)).1,
        (split separator ((split separator first).2 ++ second)).2) := by
  induction bound : first.length using Nat.strongRecOn generalizing first with
  | ind size ih =>
    cases found : find separator first with
    | none => rw [split_of_absent nonempty found, nil_append]
    | some length =>
      have fits := find_le found
      have positive := length_pos_iff.mpr nonempty
      have smaller : (first.drop (length + separator.length)).length < size := by
        simp only [length_drop]
        omega
      rw [split_of_find nonempty found, split_of_find nonempty (find_append second found),
        drop_append_of_le_length fits, take_append_of_le_length (by omega),
        ih _ smaller _ rfl]
      rfl

theorem mem_of_mem_rest (nonempty : separator ≠ []) {symbol : α} (member : symbol ∈ (split separator text).2) :
    symbol ∈ text := by
  induction bound : text.length using Nat.strongRecOn generalizing text with
  | ind size ih =>
    cases found : find separator text with
    | none => rwa [split_of_absent nonempty found] at member
    | some length =>
      have fits := find_le found
      have positive := length_pos_iff.mpr nonempty
      rw [split_of_find nonempty found] at member
      exact mem_of_mem_drop (ih _ (by simp only [length_drop]; omega) member rfl)

theorem find_occurs (found : find separator text = some length) : separator <+: text.drop length := by
  induction text generalizing length with
  | nil =>
    simp only [find] at found
    split at found
    next empty =>
      subst empty
      exact nil_prefix
    · cases found
  | cons symbol text ih =>
    simp only [find] at found
    split at found
    next first =>
      cases found
      exact isPrefixOf_iff_prefix.mp first
    · obtain ⟨before, earlier, rfl⟩ := map_eq_some_iff.mp found
      exact ih earlier

/-- Where there is a separator, a first one is found. -/
theorem find_exists (here : separator <+: text.drop length) (inside : length ≤ text.length) :
    ∃ first ≤ length, find separator text = some first := by
  induction text generalizing length with
  | nil =>
    obtain rfl : length = 0 := le_zero.mp inside
    obtain rfl : separator = [] := prefix_nil.mp here
    exact ⟨0, Nat.le_refl _, by simp [find]⟩
  | cons symbol text ih =>
    rw [find]
    split
    · exact ⟨0, Nat.zero_le _, rfl⟩
    next later =>
      cases length with
      | zero => exact absurd ( isPrefixOf_iff_prefix.mpr here) later
      | succ length =>
        obtain ⟨first, bound, found⟩ := ih here (le_of_succ_le_succ inside)
        exact ⟨first + 1, succ_le_succ bound, by rw [found]; rfl⟩

variable {part more front : List α} {mark : α}

theorem find_part_none (absent : find separator (part ++ more) = none) : find separator part = none := by
  cases found : find separator part with
  | none => rfl
  | some first =>
    rw [find_append more found] at absent
    cases absent

theorem find_part (found : find separator (part ++ more) = some length)
    (short : part.length < length + separator.length) : find separator part = none := by
  cases early : find separator part with
  | none => rfl
  | some first =>
    have same := find_append more early
    have bound := find_le early
    rw [found] at same
    cases same
    omega

theorem find_line {first : α} {rest line : List α} (absent : first ∉ line) :
    find (first :: rest) (line ++ first :: rest) = some line.length := by
  induction line with
  | nil => simp [find]
  | cons symbol line ih =>
    rw [mem_cons, not_or] at absent
    rw [cons_append, find, if_neg (by simp [absent.1]), ih absent.2]
    rfl

theorem find_behind (foreign : mark ∉ separator) (absent : find separator (front ++ [mark]) = none)
    (found : find separator (front ++ mark :: more) = some length) : front.length < length := by
  apply Nat.lt_of_not_le
  intro inside
  have here := find_occurs found
  have marked : front.drop length ++ [mark] <+: (front ++ mark :: more).drop length := by
    rw [drop_append_of_le_length inside]
    exact ⟨more, by simp⟩
  cases prefix_or_prefix_of_prefix here marked with
  | inl early =>
    rw [← drop_append_of_le_length inside] at early
    obtain ⟨first, _, again⟩ := find_exists early (by simp only [length_append]; omega)
    rw [absent] at again
    cases again
  | inr across => exact foreign (across.subset (by simp))

omit [DecidableEq α] in
theorem prefix_break {mark : α} {front more : List α} (foreign : mark ∉ separator) :
    separator <+: front ++ mark :: more ↔ separator <+: front := by
  constructor
  · intro here
    have marked : front ++ [mark] <+: front ++ mark :: more := ⟨more, by simp⟩
    cases prefix_or_prefix_of_prefix here marked with
    | inl early =>
      cases prefix_concat_iff.mp early with
      | inl whole => exact absurd (whole ▸ mem_concat_self) foreign
      | inr before => exact before
    | inr across => exact absurd (across.subset mem_concat_self) foreign
  · exact fun here => here.trans (prefix_append _ _)

theorem find_break (nonempty : separator ≠ []) (foreign : mark ∉ separator) : find separator (front ++ mark :: more) =
      (find separator front).or ((find separator more).map (· + (front.length + 1))) := by
  induction front with
  | nil =>
    have apart : ¬ separator <+: mark :: more := fun here => nonempty (prefix_nil.mp ((prefix_break foreign).mp here))
    simp [find, nonempty, apart]
  | cons symbol front ih =>
    have same := @prefix_break _ separator mark (symbol :: front) more foreign
    rw [cons_append] at same
    simp only [cons_append, find, isPrefixOf_iff_prefix, ih]
    by_cases here : separator <+: symbol :: front
    · rw [if_pos here, if_pos (same.mpr here), some_or]
    · rw [if_neg here, if_neg (mt same.mp here), map_or, Option.map_map]
      rfl

end Separator
