import Mathlib.Data.List.Nodup
import Mathlib.Data.List.Perm.Basic

/-! Lists of entries with distinct keys, and the finite maps they stand for. -/

set_option autoImplicit false

namespace Keyed

open List Function

variable {Entry Key Value : Type} {key : Entry → Key} {value : Entry → Value}

structure Holds (key : Entry → Key) (value : Entry → Value) (entries : List Entry) (content : Key → Option Value) :
    Prop where
  distinct : (entries.map key).Nodup
  same : ∀ name found, content name = some found ↔ ∃ entry ∈ entries, key entry = name ∧ value entry = found

variable {entries : List Entry} {content : Key → Option Value}

theorem Holds.nil : Holds key value [] fun _ => none := ⟨nodup_nil, by simp⟩

theorem Holds.perm {others : List Entry} (holds : Holds key value entries content) (perm : others.Perm entries) :
    Holds key value others content := by
  constructor
  · exact (perm.map key).nodup_iff.mpr holds.distinct
  · intro name found
    simp only [perm.mem_iff]
    exact holds.same name found

variable {entry : Entry}

section

variable (holds : Holds key value entries content)
include holds

theorem Holds.of_mem (member : entry ∈ entries) : content (key entry) = some (value entry) :=
  (holds.same _ _).mpr ⟨entry, member, rfl, rfl⟩

theorem Holds.eq_none {name : Key} (absent : ∀ entry ∈ entries, key entry ≠ name) : content name = none := by
  cases found : content name with
  | none => rfl
  | some held =>
    obtain ⟨entry, member, named, -⟩ := (holds.same _ _).mp found
    exact absurd named (absent entry member)

/-- A key has one entry. -/
theorem Holds.eq_of_key {other : Entry} (member : entry ∈ entries) (otherMember : other ∈ entries)
    (sameKey : key entry = key other) : entry = other :=
  inj_on_of_nodup_map holds.distinct member otherMember sameKey

end

theorem distinct_map (distinct : (entries.map key).Nodup) (change : Entry → Entry)
    (sameKey : ∀ other ∈ entries, key (change other) = key other) : ((entries.map change).map key).Nodup := by
  have same : (entries.map change).map key = entries.map key := by
    rw [map_map]
    exact map_congr_left sameKey
  rwa [same]

theorem Holds.map (holds : Holds key value entries content) (change : Entry → Entry)
    (sameKey : ∀ other ∈ entries, key (change other) = key other)
    (sameValue : ∀ other ∈ entries, value (change other) = value other) :
    Holds key value (entries.map change) content := by
  constructor
  · exact distinct_map holds.distinct change sameKey
  · intro name found
    rw [holds.same]
    simp only [mem_map, exists_exists_and_eq_and]
    constructor
    · rintro ⟨other, inside, rfl, rfl⟩
      exact ⟨other, inside, sameKey other inside, sameValue other inside⟩
    · rintro ⟨other, inside, rfl, rfl⟩
      exact ⟨other, inside, (sameKey other inside).symm, (sameValue other inside).symm⟩

variable [DecidableEq Key]

theorem Holds.add (holds : Holds key value entries content) (entry : Entry) (absent : ∀ other ∈ entries, key other ≠ key entry) :
    Holds key value (entries ++ [entry]) (Function.update content (key entry) (some (value entry))) := by
  constructor
  · rw [map_append, nodup_append]
    refine ⟨holds.distinct, nodup_singleton _, ?_⟩
    intro name member last lastMember
    obtain ⟨other, otherMember, rfl⟩ := mem_map.mp member
    rw [mem_singleton.mp lastMember]
    exact absent other otherMember
  · intro name found
    by_cases named : name = key entry
    · subst named
      rw [update_self]
      constructor
      · intro held
        exact ⟨entry, by simp, rfl, Option.some.inj held⟩
      · rintro ⟨other, member, sameKey, rfl⟩
        rw [mem_append, mem_singleton] at member
        cases member with
        | inl earlier => exact absurd sameKey (absent other earlier)
        | inr last => rw [last]
    · rw [update_of_ne named, holds.same]
      constructor
      · rintro ⟨other, member, fits⟩
        exact ⟨other, mem_append_left _ member, fits⟩
      · rintro ⟨other, member, sameKey, held⟩
        rw [mem_append, mem_singleton] at member
        cases member with
        | inl earlier => exact ⟨other, earlier, sameKey, held⟩
        | inr last => exact absurd (by rw [← sameKey, last]) named

theorem Holds.set (holds : Holds key value entries content) (member : entry ∈ entries) (change : Entry → Entry)
    (sameKey : ∀ other ∈ entries, key (change other) = key other)
    (elsewhere : ∀ other ∈ entries, key other ≠ key entry → value (change other) = value other) :
    Holds key value (entries.map change) (Function.update content (key entry) (some (value (change entry)))) := by
  constructor
  · exact distinct_map holds.distinct change sameKey
  · intro name found
    have through : (∃ other ∈ entries.map change, key other = name ∧ value other = found) ↔
        ∃ other ∈ entries, key other = name ∧ value (change other) = found := by
      simp only [mem_map, exists_exists_and_eq_and]
      constructor
      · rintro ⟨other, inside, sameName, held⟩
        exact ⟨other, inside, (sameKey other inside) ▸ sameName, held⟩
      · rintro ⟨other, inside, sameName, held⟩
        exact ⟨other, inside, (sameKey other inside).trans sameName, held⟩
    rw [through]
    by_cases named : name = key entry
    · subst named
      rw [update_self]
      constructor
      · intro held
        exact ⟨entry, member, rfl, Option.some.inj held⟩
      · rintro ⟨other, inside, sameName, rfl⟩
        rw [holds.eq_of_key inside member sameName]
    · rw [update_of_ne named, holds.same]
      constructor
      · rintro ⟨other, inside, rfl, rfl⟩
        exact ⟨other, inside, rfl, elsewhere other inside named⟩
      · rintro ⟨other, inside, rfl, rfl⟩
        exact ⟨other, inside, rfl, (elsewhere other inside named).symm⟩

theorem Holds.remove (holds : Holds key value entries content) {entry : Entry} (keep : Entry → Bool)
    (kept : ∀ other ∈ entries, keep other = true ↔ key other ≠ key entry) :
    Holds key value (entries.filter keep) (Function.update content (key entry) none) := by
  constructor
  · exact holds.distinct.sublist (filter_sublist.map key)
  · intro name found
    simp only [mem_filter, and_assoc]
    by_cases named : name = key entry
    · subst named
      rw [update_self]
      constructor
      · intro held
        cases held
      · rintro ⟨other, inside, stays, sameName, -⟩
        exact absurd sameName ((kept other inside).mp stays)
    · rw [update_of_ne named, holds.same]
      constructor
      · rintro ⟨other, inside, rfl, held⟩
        exact ⟨other, inside, (kept other inside).mpr named, rfl, held⟩
      · rintro ⟨other, inside, -, fits⟩
        exact ⟨other, inside, fits⟩

end Keyed
