import FluentBit.RecordAccessor.LookupProperties
import FluentBit.StreamProcessor.Condition

/-! The value of a key `name['k1']…['kn']` in a record, after `src/stream_processor/flb_sp_key.c`:
the loops over the subkeys and the entries as they are. -/

set_option autoImplicit false

namespace FluentBit.StreamProcessor.KeyLookup

open List Nat Option
open Msgpack (Object)
open RecordAccessor (Name sdsEq sdsEq_iff)
open Condition (Val)

structure Value where
  val : Val
  o : Object

def objectToSpValue (o : Object) : Option Value := (Condition.objectToValue o).map fun val => { val, o }

/-- The variables of `subkey_to_value`. -/
structure Walk where
  curMap : Object
  val : Object
  matched : Nat := 0
  keyFound : Bool := false

def Walk.scan (name : Bytes) : List (Object × Object) → Walk → Walk
  | [], walk => walk
  | (.str key, val) :: rest, walk =>
    if sdsEq name key then { curMap := val, val, matched := walk.matched + 1, keyFound := true }
    else scan name rest { walk with val, keyFound := false }
  | (_, val) :: rest, walk => scan name rest { walk with val }

def Walk.follow (levels : Nat) : List Name → Walk → Walk
  | [], walk => walk
  | name :: rest, walk =>
    match walk.curMap with
    | .map entries =>
      let walk := walk.scan name.text entries
      if levels = walk.matched then walk else follow levels rest walk
    | _ => walk

def subkeyToValue (map : Object) (subkeys : List Name) : Option Value :=
  let walk := Walk.follow subkeys.length subkeys { curMap := map, val := .nil }
  if !walk.keyFound || (0 < walk.matched && subkeys.length != walk.matched) then none else objectToSpValue walk.val

def reads (seems : Object → Bytes → Bool) (ckey : Bytes) : Object → Bool
  | .str key => sdsEq ckey key
  | other => seems other ckey

/-- `flb_sp_key_to_value`; without subkeys the pointer to them is null. -/
def keyToValue (seems : Object → Bytes → Bool) (ckey : Bytes) (subkeys : Option (List Name)) :
    List (Object × Object) → Option Value
  | [] => none
  | (key, val) :: rest =>
    if reads seems ckey key then
      match val, subkeys with
      | .map entries, some subkeys => subkeyToValue (.map entries) subkeys
      | val, _ => objectToSpValue val
    else keyToValue seems ckey subkeys rest

/-- A key of a query with its subkeys, as `flb_sp_cmd_condition_key` and `flb_sp_key_create` make it. -/
structure Selector where
  name : Name
  subkeys : List Name

def Selector.path (selector : Selector) : List Bytes := (selector.name :: selector.subkeys).map Name.text

/-- The pointer to the subkeys, where `swap_tmp_subkeys` has set it. -/
def Selector.pointer (selector : Selector) : Option (List Name) :=
  if selector.subkeys.length = 0 then none else some selector.subkeys

/-- `flb_sp_key_to_value` of a selector. -/
def Selector.value (seems : Object → Bytes → Bool) (selector : Selector) (map : List (Object × Object)) : Option Value :=
  keyToValue seems selector.name.text selector.pointer map

inductive Reaches : Object → List Bytes → Object → Prop where
  | here (object : Object) : Reaches object [] object
  | into {entries : List (Object × Object)} {name : Bytes} {names : List Bytes} {val object : Object} :
      (.str name, val) ∈ entries → Reaches val names object → Reaches (.map entries) (name :: names) object

def atPath : List Bytes → Object → Option Object
  | [], object => some object
  | name :: names, .map entries => (Condition.lookup name entries).bind (atPath names)
  | _ :: _, _ => none

variable {entries map : List (Object × Object)} {name : Name} {walk : Walk} {seems : Object → Bytes → Bool}

theorem scan_found {val : Object} (found : Condition.lookup name.text entries = some val) (walk : Walk) :
    walk.scan name.text entries = { curMap := val, val, matched := walk.matched + 1, keyFound := true } := by
  induction entries generalizing walk with
  | nil => cases found
  | cons entry rest ih =>
    obtain ⟨key, held⟩ := entry
    cases key with
    | str text =>
      unfold Condition.lookup at found
      by_cases same : text = name.text
      · rw [if_pos same, Option.some.injEq] at found
        unfold Walk.scan
        rw [if_pos ((sdsEq_iff name.noZero).mpr same.symm), found]
      · rw [if_neg same] at found
        unfold Walk.scan
        rw [if_neg (mt (sdsEq_iff name.noZero).mp (Ne.symm same))]
        exact ih found _
    | _ => exact ih found _

theorem scan_missing (missing : Condition.lookup name.text entries = none) (walk : Walk) :
    (walk.scan name.text entries).matched = walk.matched ∧
      ((walk.scan name.text entries).keyFound = true → walk.keyFound = true) := by
  induction entries generalizing walk with
  | nil => exact ⟨rfl, id⟩
  | cons entry rest ih =>
    obtain ⟨key, held⟩ := entry
    cases key with
    | str text =>
      unfold Condition.lookup at missing
      by_cases same : text = name.text
      · rw [if_pos same] at missing
        cases missing
      · rw [if_neg same] at missing
        unfold Walk.scan
        rw [if_neg (mt (sdsEq_iff name.noZero).mp (Ne.symm same))]
        obtain ⟨counted, found⟩ := ih missing { walk with val := held, keyFound := false }
        exact ⟨counted, fun later => absurd (found later) Bool.false_ne_true⟩
    | _ => exact ih missing _

def Walk.Counted (walk : Walk) : Prop := walk.keyFound = true → 0 < walk.matched

theorem scan_counted (name : Name) (entries : List (Object × Object)) (counted : walk.Counted) :
    (walk.scan name.text entries).Counted ∧ (walk.scan name.text entries).matched ≤ walk.matched + 1 := by
  cases looked : Condition.lookup name.text entries with
  | some val =>
    rw [scan_found looked]
    exact ⟨fun _ => succ_pos _, Nat.le_refl _⟩
  | none =>
    obtain ⟨same, found⟩ := scan_missing looked walk
    refine ⟨?_, by omega⟩
    intro later
    rw [same]
    exact counted (found later)

theorem follow_counted (levels : Nat) (names : List Name) (counted : walk.Counted) :
    (walk.follow levels names).Counted ∧ (walk.follow levels names).matched ≤ walk.matched + names.length := by
  induction names generalizing walk with
  | nil => exact ⟨counted, Nat.le_refl _⟩
  | cons name rest ih =>
    unfold Walk.follow
    split
    next entries _ =>
      obtain ⟨scanned, bound⟩ := scan_counted name entries counted
      simp only [length_cons]
      split
      · exact ⟨scanned, by omega⟩
      · obtain ⟨followed, laterBound⟩ := ih scanned
        exact ⟨followed, by omega⟩
    · exact ⟨counted, Nat.le_add_right _ _⟩

theorem follow_path {levels : Nat} {names : List Name} (counted : walk.Counted) (nonempty : names ≠ [])
    (all : levels = walk.matched + names.length) : (∃ object, atPath (names.map Name.text) walk.curMap = some object ∧
      walk.follow levels names = { curMap := object, val := object, matched := levels, keyFound := true }) ∨
    (atPath (names.map Name.text) walk.curMap = none ∧ (walk.follow levels names).matched < levels) := by
  induction names generalizing walk with
  | nil => exact absurd rfl nonempty
  | cons name rest ih =>
    rw [length_cons] at all
    unfold Walk.follow
    cases map : walk.curMap with
    | map entries =>
      cases looked : Condition.lookup name.text entries with
      | none =>
        right
        simp only [map_cons, atPath, looked, bind_none, true_and]
        obtain ⟨same, -⟩ := scan_missing looked walk
        rw [if_neg (by omega)]
        have bound := (follow_counted levels rest (scan_counted name entries counted).1).2
        omega
      | some val =>
        simp only [map_cons, atPath, looked, bind_some, scan_found looked]
        cases rest with
        | nil =>
          left
          rw [length_nil] at all
          rw [if_pos all]
          exact ⟨val, rfl, by rw [all]⟩
        | cons second rest =>
          rw [length_cons] at all
          rw [if_neg (by omega)]
          have inside : Walk.Counted { curMap := val, val, matched := walk.matched + 1, keyFound := true } :=
            fun _ => succ_pos _
          exact ih inside (cons_ne_nil _ _) (by simp only [length_cons]; omega)
    | _ => exact .inr ⟨rfl, by simp only; omega⟩

theorem subkeyToValue_eq {map : Object} {subkeys : List Name} (nonempty : subkeys ≠ []) :
    subkeyToValue map subkeys = (atPath (subkeys.map Name.text) map).bind objectToSpValue := by
  have counted : Walk.Counted { curMap := map, val := .nil } := fun found => absurd found Bool.false_ne_true
  have levels : subkeys.length = (0 : Nat) + subkeys.length := (Nat.zero_add _).symm
  unfold subkeyToValue
  rcases follow_path counted nonempty levels with ⟨object, ends, followed⟩ | ⟨ends, short⟩
  · simp only at ends
    simp [followed, ends]
  · simp only at ends
    simp only [ends, bind_none]
    apply if_pos
    have walked := (follow_counted subkeys.length subkeys counted).1
    cases found : (Walk.follow subkeys.length subkeys { curMap := map, val := .nil }).keyFound with
    | false => rfl
    | true =>
      have some := walked found
      simp only [Bool.not_true, Bool.false_or, Bool.and_eq_true, decide_eq_true_eq, bne_iff_ne]
      exact ⟨some, by omega⟩

/-! ### Selectors -/

def NoLookalike (seems : Object → Bytes → Bool) (name : Name) (map : List (Object × Object)) : Prop :=
  ∀ entry ∈ map, (∀ text, entry.1 ≠ .str text) → seems entry.1 name.text = false

theorem keyToValue_eq (clear : NoLookalike seems name map) (subkeys : Option (List Name)) :
    keyToValue seems name.text subkeys map = (Condition.lookup name.text map).bind fun val =>
      match val, subkeys with
      | .map entries, some subkeys => subkeyToValue (.map entries) subkeys
      | val, _ => objectToSpValue val := by
  induction map with
  | nil => rfl
  | cons entry rest ih =>
    obtain ⟨key, val⟩ := entry
    have later := ih fun other member => clear other (mem_cons_of_mem _ member)
    unfold keyToValue
    cases key with
    | str text =>
      have named : reads seems name.text (.str text) = true ↔ text = name.text :=
        (sdsEq_iff name.noZero).trans eq_comm
      simp only [Condition.lookup]
      by_cases same : text = name.text
      · rw [if_pos (named.mpr same), if_pos same]
        rfl
      · rw [if_neg (mt named.mp same), if_neg same]
        exact later
    | _ =>
      have unlike := clear _ mem_cons_self (by simp)
      exact (if_neg (by simp [reads, unlike])).trans later

def Scalar (object : Object) : Prop := (objectToSpValue object).isSome = true ∧ ∀ entries, object ≠ .map entries

theorem Selector.value_found {selector : Selector} (clear : NoLookalike seems selector.name map) :
    selector.value seems map = (Condition.lookup selector.name.text map).bind fun val =>
      match val with
      | .map entries => (atPath (selector.subkeys.map Name.text) (.map entries)).bind objectToSpValue
      | val => objectToSpValue val := by
  unfold Selector.value
  rw [keyToValue_eq clear]
  congr
  funext val
  by_cases plain : selector.subkeys = []
  · have null : selector.pointer = none := by simp [Selector.pointer, plain]
    rw [null, plain]
    cases val <;> rfl
  · have pointer : selector.pointer = some selector.subkeys := by simp [Selector.pointer, plain]
    rw [pointer]
    cases val with
    | map entries => exact subkeyToValue_eq plain
    | _ => rfl

theorem subkeyToValue_atPath (names : List Bytes) (object : Object) :
    Condition.subkeyToValue names object = (atPath names object).bind Condition.objectToValue := by
  induction names generalizing object with
  | nil => rfl
  | cons name names ih =>
    cases object with
    | map entries =>
      have later : Condition.subkeyToValue names = fun object => (atPath names object).bind Condition.objectToValue := funext ih
      simp only [Condition.subkeyToValue, atPath, later, bind_assoc]
    | _ => rfl

/-- Conditions read the value that `flb_sp_key_to_value` returns. -/
theorem Selector.value_condition {selector : Selector} (clear : NoLookalike seems selector.name map) :
    (selector.value seems map).map Value.val =
      Condition.keyToValue selector.name.text map (selector.subkeys.map Name.text) := by
  have val_of (object : Object) : (objectToSpValue object).map Value.val = Condition.objectToValue object := by
    cases read : Condition.objectToValue object <;> simp [objectToSpValue, read]
  rw [Selector.value_found clear]
  unfold Condition.keyToValue
  cases Condition.lookup selector.name.text map with
  | none => rfl
  | some val =>
    cases val with
    | map entries =>
      simp only [bind_some, subkeyToValue_atPath, map_bind]
      congr
      exact funext val_of
    | _ => exact val_of _

theorem Selector.value_eq {selector : Selector} (clear : NoLookalike seems selector.name map)
    (nested : selector.subkeys = [] ∨ ∀ val, Condition.lookup selector.name.text map = some val → ¬ Scalar val) :
    selector.value seems map = (atPath selector.path (.map map)).bind objectToSpValue := by
  rw [Selector.value_found clear, Selector.path, map_cons, atPath]
  cases looked : Condition.lookup selector.name.text map with
  | none => rfl
  | some val =>
    cases val with
    | map entries => rfl
    | _ =>
      -- a value of another kind has no subkeys, or is no scalar
      cases subkeys : selector.subkeys with
      | nil => rfl
      | cons first rest =>
        have notScalar := nested.resolve_left (by simp [subkeys]) _ looked
        simpa [Scalar, atPath] using notScalar

/-- A value is returned exactly for a path that ends at a boolean, a number, a string, a map or nil,
and it is the one there. -/
theorem value_iff_path (seems : Object → Bytes → Bool) (selector : Selector) (map : List (Object × Object))
    (clear : NoLookalike seems selector.name map)
    (nested : selector.subkeys = [] ∨ ∀ val, Condition.lookup selector.name.text map = some val → ¬ Scalar val) :
    ((selector.value seems map).isSome = true ↔
      ∃ object, atPath selector.path (.map map) = some object ∧ (Condition.objectToValue object).isSome = true) ∧
    ∀ value, selector.value seems map = some value →
      atPath selector.path (.map map) = some value.o ∧ Condition.objectToValue value.o = some value.val := by
  rw [Selector.value_eq clear nested]
  constructor
  · rw [isSome_bind, any_eq_true_iff_get]
    cases atPath selector.path (.map map) with
    | none => simp
    | some object => simp [objectToSpValue]
  · intro value returned
    obtain ⟨object, ends, shown⟩ := bind_eq_some_iff.mp returned
    obtain ⟨val, readable, rfl⟩ := map_eq_some_iff.mp shown
    exact ⟨ends, readable⟩

def ReturnsPath (seems : Object → Bytes → Bool) (selector : Selector) (map : List (Object × Object)) : Prop :=
  ((selector.value seems map).isSome = true ↔ ∃ object, Reaches (.map map) selector.path object) ∧
    ∀ value, selector.value seems map = some value → Reaches (.map map) selector.path value.o

/-- The key `a`. -/
def keyA : Name := ⟨[97], by decide⟩

/-- A record with `1` under `b` under `a`. -/
def nestedRecord : List (Object × Object) := [(.str [97], .map [(.str [98], .positive 1)])]

theorem value_iff_path_nested :
    (Selector.value (fun _ _ => false) ⟨keyA, [⟨[98], by decide⟩]⟩ nestedRecord).isSome = true ↔
      ∃ object, atPath [[97], [98]] (.map nestedRecord) = some object ∧
        (Condition.objectToValue object).isSome = true :=
  (value_iff_path (fun _ _ => false) ⟨keyA, [⟨[98], by decide⟩]⟩ nestedRecord (fun _ _ _ => rfl) (.inr (by
      intro val found scalar
      cases (show some _ = some val from found)
      exact scalar.2 _ rfl))).1

/-- A key whose value is an array gives no value. -/
theorem array_without_value : ¬ ReturnsPath (fun _ _ => false) ⟨keyA, []⟩ [(.str [97], .array [])] := by
  intro returns
  have reached : Reaches (.map [(.str [97], .array [])]) [[97]] (.array []) := .into mem_cons_self (.here _)
  have given := returns.1.mpr ⟨_, reached⟩
  exact absurd given (by decide)

end FluentBit.StreamProcessor.KeyLookup
