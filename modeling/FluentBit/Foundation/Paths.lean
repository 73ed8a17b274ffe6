import FluentBit.Foundation.Msgpack

/-! Paths into MessagePack objects: a name leads to the last entry of a map that has it, an
index to an item of an array. -/

set_option autoImplicit false

namespace Msgpack

open List Nat Bool Option

inductive Step where
  | name (text : Bytes)
  | index (position : Nat)
deriving DecidableEq

inductive Position where
  | entry (index : Nat)
  | item (index : Nat)
deriving DecidableEq

def lastBelow {α : Type} (wanted : α → Bool) (items : List α) : Nat → Option Nat
  | 0 => none
  | position + 1 => if items[position]?.any wanted then some position else lastBelow wanted items position

def lastIndex {α : Type} (wanted : α → Bool) (items : List α) : Option Nat := lastBelow wanted items items.length

def Entitled (text : Bytes) (entry : Object × Object) : Bool :=
  match entry.1 with
  | .str key => key == text
  | _ => false

def Step.go : Step → Object → Option (Position × Object)
  | .name text, .map entries =>
    (lastIndex (Entitled text) entries).bind fun position =>
      entries[position]?.map fun entry => (.entry position, entry.2)
  | .index position, .array items => items[position]?.map fun item => (.item position, item)
  | _, _ => none

def locate : List Step → Object → Option (List Position × Object)
  | [], object => some ([], object)
  | step :: path, object =>
    (step.go object).bind fun found =>
      (locate path found.2).map fun (positions, target) => (found.1 :: positions, target)

def follow (path : List Step) (object : Object) : Option Object := (locate path object).map Prod.snd

@[simp] theorem follow_nil (object : Object) : follow [] object = some object := rfl

@[simp] theorem follow_cons (step : Step) (path : List Step) (object : Object) :
    follow (step :: path) object = (step.go object).bind fun found => follow path found.2 := by
  cases found : step.go object with
  | none => simp [follow, locate, found]
  | some target => simp [follow, locate, found, Function.comp_def]

theorem follow_append (path later : List Step) (object : Object) :
    follow (path ++ later) object = (follow path object).bind (follow later) := by
  induction path generalizing object with
  | nil => rfl
  | cons step path ih =>
    rw [cons_append, follow_cons, follow_cons]
    cases step.go object with
    | none => rfl
    | some found => exact ih found.2

variable {object target : Object} {positions : List Position}

/-- The last step of a path is taken from the container that the others lead to. -/
theorem locate_append {init : List Step} {last : Step}
    (located : locate (init ++ [last]) object = some (positions, target)) :
    ∃ front container position, locate init object = some (front, container) ∧
      last.go container = some (position, target) ∧ positions = front ++ [position] := by
  induction init generalizing object positions with
  | nil =>
    simp only [nil_append, locate, bind_eq_some_iff, map_eq_some_iff] at located
    obtain ⟨⟨position, found⟩, goes, rest, done, same⟩ := located
    cases done
    cases same
    exact ⟨[], object, position, rfl, goes, rfl⟩
  | cons step init ih =>
    simp only [cons_append, locate, bind_eq_some_iff, map_eq_some_iff] at located
    obtain ⟨⟨first, member⟩, goes, ⟨later, found⟩, onward, same⟩ := located
    cases same
    obtain ⟨front, container, position, reached, last, split⟩ := ih onward
    exact ⟨first :: front, container, position, by simp [locate, goes, reached], last, by rw [split, cons_append]⟩

variable {path : List Step} {position : Position}

/-- All that a step can go to. -/
inductive Goes : Step → Object → Position → Object → Prop where
  | name {text : Bytes} {entries : List (Object × Object)} {i : Nat} {entry : Object × Object} :
      lastIndex (Entitled text) entries = some i → entries[i]? = some entry →
        Goes (.name text) (.map entries) (.entry i) entry.2
  | index {i : Nat} {items : List Object} {item : Object} :
      items[i]? = some item → Goes (.index i) (.array items) (.item i) item

theorem goes_of_go {step : Step} (goes : step.go object = some (position, target)) : Goes step object position target := by
  cases step with
  | name text =>
    cases object with
    | map entries =>
      simp only [Step.go, bind_eq_some_iff, map_eq_some_iff] at goes
      obtain ⟨i, last, entry, there, same⟩ := goes
      cases same
      exact .name last there
    | _ => cases goes
  | index i =>
    cases object with
    | array items =>
      obtain ⟨item, there, same⟩ := map_eq_some_iff.mp goes
      cases same
      exact .index there
    | _ => cases goes

theorem length_of_locate (located : locate path object = some (positions, target)) :
    positions.length = path.length := by
  induction path generalizing object positions with
  | nil =>
    cases located
    rfl
  | cons step path ih =>
    simp only [locate, bind_eq_some_iff, map_eq_some_iff] at located
    obtain ⟨⟨first, member⟩, _, ⟨later, found⟩, onward, same⟩ := located
    cases same
    rw [length_cons, length_cons, ih onward]

theorem item_mem_of_locate {i : Nat} (located : locate path object = some (positions, target)) :
    .item i ∈ positions ↔ .index i ∈ path := by
  induction path generalizing object positions with
  | nil =>
    cases located
    simp
  | cons step path ih =>
    simp only [locate, bind_eq_some_iff, map_eq_some_iff] at located
    obtain ⟨⟨first, member⟩, goes, ⟨later, found⟩, onward, same⟩ := located
    cases same
    rw [mem_cons, mem_cons, ih onward]
    apply or_congr_left
    cases goes_of_go goes with
    | name | index => simp

theorem go_name_entry {text : Bytes} (goes : (Step.name text).go object = some (position, target)) :
    ∃ i, position = .entry i := by
  cases goes_of_go goes with
  | name => exact ⟨_, rfl⟩

theorem go_index_item {n : Nat} (goes : (Step.index n).go object = some (position, target)) :
    ∃ i, position = .item i := by
  cases goes_of_go goes with
  | index => exact ⟨n, rfl⟩

section

variable {α : Type} {wanted : α → Bool} {items : List α}
variable {bound position : Nat}

theorem lastBelow_eq_some_iff : lastBelow wanted items bound = some position ↔
      position < bound ∧ items[position]?.any wanted = true ∧
        ∀ later, position < later → later < bound → items[later]?.any wanted = false := by
  induction bound with
  | zero => simp [lastBelow]
  | succ bound ih =>
    unfold lastBelow
    split
    next here =>
      constructor
      · intro same
        cases same
        exact ⟨lt_succ_self _, here, fun later after before => absurd after (by omega)⟩
      · rintro ⟨inside, _, behind⟩
        by_cases below : position < bound
        · have absent := behind bound below (lt_succ_self _)
          rw [here] at absent
          cases absent
        · have same : position = bound := by omega
          rw [same]
    next absent =>
      rw [ih]
      constructor
      · rintro ⟨inside, there, behind⟩
        refine ⟨lt_succ_of_lt inside, there, ?_⟩
        intro later after before
        by_cases below : later < bound
        · exact behind later after below
        · have same : later = bound := by omega
          rw [same]
          exact eq_false_iff.mpr absent
      · rintro ⟨inside, there, behind⟩
        have below : position < bound := by
          apply Nat.lt_of_le_of_ne (le_of_lt_succ inside)
          rintro rfl
          exact absent there
        exact ⟨below, there, fun later after before => behind later after (lt_succ_of_lt before)⟩

theorem lastBelow_eq_none (missing : lastBelow wanted items bound = none) (below : position < bound) :
    items[position]?.any wanted = false := by
  induction bound with
  | zero => cases below
  | succ bound ih =>
    unfold lastBelow at missing
    split at missing
    · cases missing
    next absent =>
      by_cases last : position = bound
      · rw [last]
        exact eq_false_iff.mpr absent
      · exact ih missing (by omega)

theorem lastIndex_eq_none (missing : lastIndex wanted items = none) : items[position]?.any wanted = false := by
  by_cases inside : position < items.length
  · exact lastBelow_eq_none missing inside
  · rw [List.getElem?_eq_none (Nat.le_of_not_lt inside)]
    rfl

theorem lastIndex_eq_some_iff : lastIndex wanted items = some position ↔
      items[position]?.any wanted = true ∧ ∀ later, position < later → items[later]?.any wanted = false := by
  unfold lastIndex
  rw [lastBelow_eq_some_iff]
  constructor
  · rintro ⟨_, here, behind⟩
    refine ⟨here, ?_⟩
    intro later after
    by_cases inside : later < items.length
    · exact behind later after inside
    · rw [List.getElem?_eq_none (Nat.le_of_not_lt inside)]
      rfl
  · rintro ⟨here, behind⟩
    refine ⟨?_, here, fun later after _ => behind later after⟩
    by_contra outside
    rw [List.getElem?_eq_none (Nat.le_of_not_lt outside)] at here
    cases here

end

end Msgpack
