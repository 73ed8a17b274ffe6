import Mathlib.Data.List.Basic
import Mathlib.Order.MinMax

/-! The least and the greatest of some values, kept while values come. -/

set_option autoImplicit false

structure Hull {α : Type} [LinearOrder α] (values : List α) (least greatest : α) : Prop where
  first : least ∈ values
  last : greatest ∈ values
  between : ∀ value ∈ values, least ≤ value ∧ value ≤ greatest

namespace Hull

open List

variable {α : Type} [LinearOrder α] {values : List α} {least greatest : α}

theorem single (value : α) : Hull [value] value value :=
  ⟨mem_singleton_self _, mem_singleton_self _, fun _ member => by simp [mem_singleton.mp member]⟩

theorem push (hull : Hull values least greatest) (value : α) :
    Hull (values ++ [value]) (if value < least then value else least) (if greatest < value then value else greatest) := by
  obtain ⟨first, last, between⟩ := hull
  have new : value ∈ values ++ [value] := mem_append_right _ (mem_singleton_self _)
  have old {other : α} (member : other ∈ values) : other ∈ values ++ [value] := mem_append_left _ member
  constructor
  · split
    · exact new
    · exact old first
  · split
    · exact new
    · exact old last
  · intro other member
    cases mem_append.mp member with
    | inl inside =>
      obtain ⟨low, high⟩ := between other inside
      constructor
      · split
        next below => exact (le_of_lt below).trans low
        · exact low
      · split
        next above => exact high.trans (le_of_lt above)
        · exact high
    | inr same =>
      obtain rfl := mem_singleton.mp same
      constructor
      · split
        · exact le_refl _
        next notBelow => exact not_lt.mp notBelow
      · split
        · exact le_refl _
        next notAbove => exact not_lt.mp notAbove

end Hull

/-! The extreme of a list of values, kept by comparing each new value with the one that is held.
Values cannot be taken off it: when it is still the extreme of what is left. -/

namespace Extremum

open List

variable {Value : Type} {before : Value → Value → Prop} {values gone kept : List Value} {value new other : Value}

def Of (before : Value → Value → Prop) (values : List Value) (value : Value) : Prop :=
  value ∈ values ∧ ∀ other ∈ values, before value other

theorem of_singleton [Std.Refl before] : Of before [value] value := by
  constructor
  · exact mem_singleton_self value
  · intro other member
    cases mem_singleton.mp member
    exact refl_of before value

theorem Of.unique [Std.Antisymm before] (first : Of before values value) (second : Of before values other) :
    value = other :=
  antisymm_of before (first.2 other second.1) (second.2 value first.1)

theorem Of.held (extreme : Of before values value) (behind : before value new) : Of before (values ++ [new]) value := by
  constructor
  · exact mem_append_left _ extreme.1
  · intro other member
    rcases mem_append.mp member with old | last
    · exact extreme.2 other old
    · cases mem_singleton.mp last
      exact behind

theorem Of.replaced [Std.Refl before] [IsTrans Value before] (extreme : Of before values value)
    (ahead : before new value) : Of before (values ++ [new]) new := by
  constructor
  · exact mem_append_right _ (mem_singleton_self new)
  · intro other member
    rcases mem_append.mp member with old | last
    · exact trans_of before ahead (extreme.2 other old)
    · cases mem_singleton.mp last
      exact refl_of before new

theorem Of.kept_iff [Std.Antisymm before] (extreme : Of before (gone ++ kept) value) :
    Of before kept value ↔ kept ≠ [] ∧ ∀ old ∈ gone, ∃ new ∈ kept, before new old := by
  constructor
  · intro left
    constructor
    · exact ne_nil_of_mem left.1
    · intro old member
      exact ⟨value, left.1, extreme.2 old (mem_append_left _ member)⟩
  · rintro ⟨-, matched⟩
    constructor
    · rcases mem_append.mp extreme.1 with old | inside
      · obtain ⟨new, inside, ahead⟩ := matched value old
        have behind := extreme.2 new (mem_append_right _ inside)
        rw [antisymm_of before behind ahead]
        exact inside
      · exact inside
    · intro other member
      exact extreme.2 other (mem_append_right _ member)

end Extremum
