import FluentBit.Foundation.Paths
import Mathlib.Data.List.Induction

/-! Changes at the end of a path: what is at another path stays. -/

set_option autoImplicit false

namespace Msgpack

open List Bool Option

def Step.modify (change : Object → Option Object) : Step → Object → Option Object
  | .name text, .map entries =>
    (lastIndex (Entitled text) entries).bind fun position =>
      entries[position]?.bind fun entry =>
        (change entry.2).map fun value => .map (entries.set position (entry.1, value))
  | .index position, .array items =>
    items[position]?.bind fun item => (change item).map fun value => .array (items.set position value)
  | _, _ => none

def atEnd (leaf : Step → Object → Option Object) : List Step → Object → Option Object
  | [], _ => none
  | [last], object => leaf last object
  | step :: next :: path, object => step.modify (atEnd leaf (next :: path)) object

def Step.replace (key value : Option Object) : Step → Object → Option Object
  | .name text, .map entries =>
    (lastIndex (Entitled text) entries).bind fun position =>
      entries[position]?.map fun entry => .map (entries.set position (key.getD entry.1, value.getD entry.2))
  | .index position, .array items =>
    match key with
    | some _ => none
    | none => items[position]?.map fun item => .array (items.set position (value.getD item))
  | _, _ => none

def Step.extend (value : Object) : Step → Object → Option Object
  | .name text, .map entries => some (.map (entries ++ [(.str text, value)]))
  | .index _, .array items => some (.array (items ++ [value]))
  | _, _ => none

def replaceAt (key value : Option Object) : List Step → Object → Option Object := atEnd (Step.replace key value)

def appendAt (value : Object) : List Step → Object → Option Object := atEnd (Step.extend value)

def Apart (left right : List Step) : Prop := ¬ left <+: right ∧ ¬ right <+: left

theorem lastIndex_congr {α : Type} {wanted : α → Bool} {left right : List α}
    (same : ∀ position : Nat, left[position]?.any wanted = right[position]?.any wanted) :
    lastIndex wanted left = lastIndex wanted right := by
  apply Option.ext
  intro position
  rw [lastIndex_eq_some_iff, lastIndex_eq_some_iff, same]
  simp [same]

variable {entry : Object × Object} {position : Nat} {step last : Step}

theorem Entitled_unique {left right : Bytes} (first : Entitled left entry = true)
    (second : Entitled right entry = true) : left = right := by
  obtain ⟨key, value⟩ := entry
  cases key with
  | str text =>
    simp only [Entitled, beq_iff_eq] at first second
    exact first.symm.trans second
  | _ => cases first

variable {entries : List (Object × Object)} {text : Bytes}
variable {new object value : Object} {change : Object → Option Object} {init path : List Step}

theorem go_set_other {old new : Object × Object} (there : entries[position]? = some old)
    (before : Entitled text old = false) (after : Entitled text new = false) :
    (Step.name text).go (.map (entries.set position new)) = (Step.name text).go (.map entries) := by
  have inside : position < entries.length := (List.getElem?_eq_some_iff.mp there).1
  have same : lastIndex (Entitled text) (entries.set position new) = lastIndex (Entitled text) entries := by
    apply lastIndex_congr
    intro other
    by_cases equal : position = other
    · rw [← equal, List.getElem?_set_self inside, there]
      simp [before, after]
    · rw [List.getElem?_set_ne equal]
  simp only [Step.go, same]
  cases last : lastIndex (Entitled text) entries with
  | none => rfl
  | some found =>
    have entitled := (lastIndex_eq_some_iff.mp last).1
    have other : position ≠ found := by
      rintro rfl
      rw [there, any_some, before] at entitled
      cases entitled
    simp [List.getElem?_set_ne other]

theorem go_set_here {new : Object × Object} (inside : position < entries.length) (entitled : Entitled text new = true)
    (behind : ∀ later, position < later → entries[later]?.any (Entitled text) = false) :
    (Step.name text).go (.map (entries.set position new)) = some (.entry position, new.2) := by
  have last : lastIndex (Entitled text) (entries.set position new) = some position := by
    rw [lastIndex_eq_some_iff, List.getElem?_set_self inside]
    refine ⟨entitled, ?_⟩
    intro later after
    rw [List.getElem?_set_ne (Nat.ne_of_lt after)]
    exact behind later after
  simp [Step.go, last, List.getElem?_set_self inside]

theorem not_any_of_go (absent : (Step.name text).go (.map entries) = none) :
    entries[position]?.any (Entitled text) = false := by
  simp only [Step.go, bind_eq_none_iff, map_eq_none_iff] at absent
  apply lastIndex_eq_none
  apply eq_none_iff_forall_ne_some.mpr
  intro last found
  have there := (lastIndex_eq_some_iff.mp found).1
  rw [absent last found] at there
  cases there

theorem any_some {wanted : Object × Object → Bool} (there : entries[position]? = some entry)
    (any : entries[position]?.any wanted = true) : wanted entry = true := by
  rw [there] at any
  exact any

theorem go_replace {key value : Option Object} (replaced : step.replace key value object = some new) :
    ∃ position old, step.go object = some (position, old) ∧
      (key = none → step.go new = some (position, value.getD old)) ∧
      (∀ text, key = some (.str text) → (Step.name text).go object = none →
        (Step.name text).go new = some (position, value.getD old)) ∧
      ∀ other, other ≠ step → (∀ text, key = some (.str text) → other ≠ .name text) → other.go new = other.go object := by
  cases step with
  | name text =>
    cases object with
    | map entries =>
      simp only [Step.replace, bind_eq_some_iff, map_eq_some_iff] at replaced
      obtain ⟨position, last, entry, there, rfl⟩ := replaced
      have inside : position < entries.length := (List.getElem?_eq_some_iff.mp there).1
      obtain ⟨any, behind⟩ := lastIndex_eq_some_iff.mp last
      have entitled := any_some there any
      refine ⟨.entry position, entry.2, by simp [Step.go, last, there], ?_, ?_, ?_⟩
      · rintro rfl
        exact go_set_here inside entitled behind
      · rintro text' rfl absent
        apply go_set_here inside (by simp [Entitled])
        intro later _
        exact not_any_of_go absent
      · intro other different fresh
        cases other with
        | index position => rfl
        | name text' =>
          have apart : Entitled text' entry = false := by
            rw [eq_false_iff]
            intro also
            exact different (congrArg Step.name (Entitled_unique also entitled))
          apply go_set_other there apart
          cases key with
          | none => exact apart
          | some key =>
            cases key with
            | str text =>
              have other : text ≠ text' := fun same => fresh text rfl (congrArg Step.name same.symm)
              simpa [Entitled] using other
            | _ => rfl
    | _ => cases replaced
  | index position =>
    cases object with
    | array items =>
      cases key with
      | some key => cases replaced
      | none =>
        simp only [Step.replace, map_eq_some_iff] at replaced
        obtain ⟨item, there, rfl⟩ := replaced
        have inside : position < items.length := (List.getElem?_eq_some_iff.mp there).1
        refine ⟨.item position, item, by simp [Step.go, there], ?_, ?_, ?_⟩
        · simp [Step.go, List.getElem?_set_self inside]
        · rintro text ⟨⟩
        · intro other different _
          cases other with
          | name text => rfl
          | index other =>
            have apart : position ≠ other := fun same => different (congrArg Step.index same.symm)
            simp [Step.go, List.getElem?_set_ne apart]
    | _ => cases replaced

theorem replace_of_modify (changed : step.modify change object = some new) :
    ∃ position old value, step.go object = some (position, old) ∧ change old = some value ∧
      step.replace none (some value) object = some new := by
  cases step with
  | name text =>
    cases object with
    | map entries =>
      simp only [Step.modify, bind_eq_some_iff, map_eq_some_iff] at changed
      obtain ⟨position, last, entry, there, value, given, rfl⟩ := changed
      exact ⟨.entry position, entry.2, value, by simp [Step.go, last, there], given, by simp [Step.replace, last, there]⟩
    | _ => cases changed
  | index position =>
    cases object with
    | array items =>
      simp only [Step.modify, bind_eq_some_iff, map_eq_some_iff] at changed
      obtain ⟨item, there, value, given, rfl⟩ := changed
      exact ⟨.item position, item, value, by simp [Step.go, there], given, by simp [Step.replace, there]⟩
    | _ => cases changed

theorem go_modify (changed : step.modify change object = some new) :
    ∃ position old value, step.go object = some (position, old) ∧ change old = some value ∧
      step.go new = some (position, value) ∧ ∀ other, other ≠ step → other.go new = other.go object := by
  obtain ⟨position, old, value, goes, given, replaced⟩ := replace_of_modify changed
  obtain ⟨_, _, found, arrives, -, others⟩ := go_replace replaced
  cases goes.symm.trans found
  refine ⟨position, old, value, goes, given, arrives rfl, fun other different => ?_⟩
  exact others other different fun _ never => by cases never

theorem go_extend_name (extended : (Step.name text).extend value object = some new) :
    ∃ position, (Step.name text).go new = some (position, value) := by
  cases object with
  | map entries =>
    cases extended
    have last : lastIndex (Entitled text) (entries ++ [(.str text, value)]) = some entries.length := by
      rw [lastIndex_eq_some_iff]
      refine ⟨by simp [Entitled], ?_⟩
      intro later after
      rw [List.getElem?_eq_none (by simp; omega)]
      rfl
    exact ⟨.entry entries.length, by simp [Step.go, last]⟩
  | _ => cases extended

theorem go_extend_index {items : List Object}
    (extended : (Step.index items.length).extend value (.array items) = some new) :
    (Step.index items.length).go new = some (.item items.length, value) := by
  cases extended
  simp [Step.go]

theorem go_extend_other {other : Step} (extended : step.extend value object = some new) (different : other ≠ step)
    {found : Position × Object} (there : other.go object = some found) : other.go new = some found := by
  cases step with
  | name text =>
    cases object with
    | map entries =>
      cases extended
      cases other with
      | index position => cases there
      | name text' =>
        have same : lastIndex (Entitled text') (entries ++ [(.str text, value)]) =
            lastIndex (Entitled text') entries := by
          apply lastIndex_congr
          intro position
          by_cases inside : position < entries.length
          · rw [List.getElem?_append_left inside]
          · have apart : text ≠ text' := fun equal => different (congrArg Step.name equal.symm)
            rw [List.getElem?_append_right (Nat.le_of_not_lt inside), List.getElem?_eq_none (Nat.le_of_not_lt inside)]
            cases position - entries.length with
            | zero => simpa [Entitled] using apart
            | succ later => rfl
        simp only [Step.go, same, bind_eq_some_iff, map_eq_some_iff] at there ⊢
        obtain ⟨position, last, entry, here, rfl⟩ := there
        refine ⟨position, last, entry, ?_, rfl⟩
        rw [List.getElem?_append_left (List.getElem?_eq_some_iff.mp here).1]
        exact here
    | _ => cases extended
  | index position =>
    cases object with
    | array items =>
      cases extended
      cases other with
      | name text => cases there
      | index other =>
        simp only [Step.go, map_eq_some_iff] at there ⊢
        obtain ⟨item, here, rfl⟩ := there
        refine ⟨item, ?_, rfl⟩
        rw [List.getElem?_append_left (List.getElem?_eq_some_iff.mp here).1]
        exact here
    | _ => cases extended

theorem atEnd_cons (leaf : Step → Object → Option Object) :
    atEnd leaf (step :: init ++ [last]) object = step.modify (atEnd leaf (init ++ [last])) object := by
  cases init <;> rfl

/-- A change at the end of a path leaves the other paths alone. -/
theorem atEnd_spec {leaf : Step → Object → Option Object} (changed : atEnd leaf (init ++ [last]) object = some new) :
    ∃ old container, follow init object = some old ∧ leaf last old = some container ∧ follow init new = some container ∧
      ∀ other, ¬ init <+: other → ¬ other <+: init → follow other new = follow other object := by
  induction init generalizing object new with
  | nil => exact ⟨object, new, rfl, changed, rfl, fun other apart _ => absurd nil_prefix apart⟩
  | cons step init ih =>
    rw [atEnd_cons] at changed
    obtain ⟨position, member, value, goes, given, arrives, others⟩ := go_modify changed
    obtain ⟨old, container, found, done, again, apart⟩ := ih given
    refine ⟨old, container, by simp [goes, found], done, by simp [arrives, again], ?_⟩
    intro other outside inside
    cases other with
    | nil => exact absurd nil_prefix inside
    | cons first other =>
      by_cases same : first = step
      · subst same
        rw [follow_cons, follow_cons, goes, arrives]
        apply apart
        · exact fun within => outside (cons_prefix_cons.mpr ⟨rfl, within⟩)
        · exact fun within => inside (cons_prefix_cons.mpr ⟨rfl, within⟩)
      · rw [follow_cons, follow_cons, others first same]

theorem modify_exists {old : Object} {position : Position} (goes : step.go object = some (position, old))
    (given : change old = some value) : ∃ new, step.modify change object = some new := by
  cases goes_of_go goes with
  | name last there => simp [Step.modify, last, there, given]
  | index there => simp [Step.modify, there, given]

theorem atEnd_exists {leaf : Step → Object → Option Object} {init : List Step} {last : Step}
    {object old container : Object} (found : follow init object = some old) (done : leaf last old = some container) :
    ∃ new, atEnd leaf (init ++ [last]) object = some new := by
  induction init generalizing object with
  | nil =>
    cases found
    exact ⟨container, done⟩
  | cons step init ih =>
    rw [follow_cons] at found
    obtain ⟨member, goes, onward⟩ := bind_eq_some_iff.mp found
    obtain ⟨value, given⟩ := ih onward
    rw [atEnd_cons]
    exact modify_exists goes given

theorem Apart.cases {other : List Step} (apart : Apart (init ++ [last]) other) :
    (¬ init <+: other ∧ ¬ other <+: init) ∨ ∃ step later, step ≠ last ∧ other = init ++ step :: later := by
  by_cases inside : init <+: other
  · obtain ⟨later, rfl⟩ := inside
    cases later with
    | nil => exact absurd (prefix_append_right_inj init |>.mpr nil_prefix) apart.2
    | cons step later =>
      refine .inr ⟨step, later, ?_, rfl⟩
      rintro rfl
      apply apart.1
      rw [prefix_append_right_inj]
      exact cons_prefix_cons.mpr ⟨rfl, nil_prefix⟩
  · exact .inl ⟨inside, fun outside => apart.2 (outside.trans (prefix_append init [last]))⟩

structure Replaced (key value : Option Object) (path : List Step) (object new : Object) : Prop where
  whole : replaceAt key value path object = some new
  found : key = none → ∀ given, value = some given → follow path new = some given
  renamed : ∀ text, key = some (.str text) → follow (path.dropLast ++ [.name text]) object = none →
    follow (path.dropLast ++ [.name text]) new = value.or (follow path object)
  apart : ∀ other, Apart path other → (∀ text, key = some (.str text) → Apart (path.dropLast ++ [.name text]) other) →
    follow other new = follow other object

theorem follow_last {container : Object} (found : follow init object = some container) :
    follow (init ++ [step]) object = (step.go container).map Prod.snd := by
  rw [follow_append, found, bind_some, follow_cons]
  cases step.go container <;> rfl

theorem Replaced.of_replaceAt {key value : Option Object} (whole : replaceAt key value path object = some new) :
    Replaced key value path object new := by
  cases path using List.reverseRecOn with
  | nil => cases whole
  | append_singleton init last =>
    obtain ⟨old, container, before, done, after, outside⟩ := atEnd_spec whole
    obtain ⟨position, member, goes, same, renamed, others⟩ := go_replace done
    refine ⟨whole, ?_, ?_, ?_⟩
    · rintro rfl given rfl
      rw [follow_last after, same rfl]
      rfl
    · intro text named absent
      rw [dropLast_concat] at absent ⊢
      have nowhere : (Step.name text).go old = none := by
        rw [follow_last before] at absent
        exact map_eq_none_iff.mp absent
      rw [follow_last after, follow_last before, renamed text named nowhere, goes]
      cases value <;> rfl
    · intro other apart fresh
      rcases apart.cases with ⟨ahead, behind⟩ | ⟨step, later, different, rfl⟩
      · exact outside other ahead behind
      · rw [follow_append, follow_append, before, after, bind_some, bind_some, follow_cons, follow_cons,
          others step different]
        intro text named
        rintro rfl
        have within := (fresh text named).1
        rw [dropLast_concat, prefix_append_right_inj] at within
        exact within (cons_prefix_cons.mpr ⟨rfl, nil_prefix⟩)

structure Appended (value : Object) (path : List Step) (object new : Object) : Prop where
  whole : appendAt value path object = some new
  fresh : follow path object = none
  found : follow path new = some value
  kept : ∀ other target, follow other object = some target → ¬ other <+: path → follow other new = some target

theorem Appended.of_appendAt (whole : appendAt value path object = some new) (fresh : follow path object = none)
    (room : ∀ init position items, path = init ++ [.index position] → follow init object = some (.array items) →
      position = items.length) : Appended value path object new := by
  cases path using List.reverseRecOn with
  | nil => cases whole
  | append_singleton init last =>
    obtain ⟨old, container, before, done, after, outside⟩ := atEnd_spec whole
    refine ⟨whole, fresh, ?_, ?_⟩
    · rw [follow_last after]
      cases last with
      | name text =>
        obtain ⟨position, goes⟩ := go_extend_name done
        rw [goes]
        rfl
      | index position =>
        cases old with
        | array items =>
          have place := room init position items rfl before
          subst place
          rw [go_extend_index done]
          rfl
        | _ => cases done
    · intro other target there notInside
      have notBeyond : ¬ init ++ [last] <+: other := by
        rintro ⟨later, rfl⟩
        rw [follow_append, fresh] at there
        cases there
      rcases Apart.cases ⟨notBeyond, notInside⟩ with ⟨ahead, behind⟩ | ⟨step, later, different, rfl⟩
      · rw [outside other ahead behind]
        exact there
      · rw [follow_append, before, bind_some, follow_cons] at there
        rw [follow_append, after, bind_some, follow_cons]
        obtain ⟨member, goes, onward⟩ := bind_eq_some_iff.mp there
        rw [go_extend_other done different goes]
        exact onward

end Msgpack
