import FluentBit.StreamProcessor.Condition
import Mathlib.Data.List.Nodup

/-! The groups of a query with group keys, after `sp_process_aggregate_data` in
`src/stream_processor/flb_sp.c` and `src/stream_processor/flb_sp_groupby.c`: the values that are
extracted from a record, and their comparison, which writes to what it compares. -/

set_option autoImplicit false

namespace FluentBit.StreamProcessor.GroupOrder

open Binary64
open Condition (objectToValue)
open Msgpack (Object)

abbrev Map : Type := List (Object × Object)

/-- `struct aggregate_num`, as far as a group has it. -/
inductive GroupNum where
  | i64 (value : BitVec 64)
  | f64 (bits : BitVec 64)
  | boolean (value : Bool)
  | string (text : Bytes)
deriving DecidableEq

structure GbKey where
  name : Bytes
  subkeys : List Bytes

def subkeyToObject : List Bytes → Object → Option Object
  | [], object => (objectToValue object).map fun _ => object
  | name :: subkeys, .map entries => (Condition.lookup name entries).bind (subkeyToObject subkeys)
  | _ :: _, _ => none

/-- `flb_sp_key_to_value`, of which the object is used. -/
def keyToObject (key : GbKey) (map : Map) : Option Object :=
  match Condition.lookup key.name map with
  | none => none
  | some (.map entries) => subkeyToObject key.subkeys (.map entries)
  | some val => (objectToValue val).map fun _ => val

theorem subkeyToObject_value (names : List Bytes) (object : Object) :
    Condition.subkeyToValue names object = (subkeyToObject names object).bind objectToValue := by
  induction names generalizing object with
  | nil =>
    cases value : objectToValue object with
    | none | some => simp [Condition.subkeyToValue, subkeyToObject, value]
  | cons name names ih =>
    cases object with
    | map entries => simp only [Condition.subkeyToValue, subkeyToObject, Option.bind_assoc, ih]
    | _ => rfl

/-- The object that is taken has the value that the key has in a condition. -/
theorem keyToObject_value (key : GbKey) (map : Map) :
    Condition.keyToValue key.name map key.subkeys = (keyToObject key map).bind objectToValue := by
  unfold Condition.keyToValue keyToObject
  cases Condition.lookup key.name map with
  | none => rfl
  | some val =>
    cases val with
    | map entries => exact subkeyToObject_value key.subkeys (.map entries)
    | _ => rfl
/-- `object_to_number` and what is done with a value that is no number. `number` is what a
string is converted to, if it is. -/
def groupNum (number : Bytes → Option GroupNum) : Object → GroupNum
  | .positive i64 | .negative i64 => .i64 i64
  | .float32 bits => .f64 (ofSingle bits)
  | .float64 bits => .f64 bits
  | .str text => (number text).getD (.string text)
  | .boolean value => .i64 (if value then 1 else 0)
  | _ => .i64 0

def extractEntry (number : Bytes → Option GroupNum) (map : Map) (entry : Object) :
    List GbKey → List GroupNum → Nat → List GroupNum × Nat
  | key :: keys, num :: nums, found =>
    match entry, keyToObject key map with
    | .str name, some object =>
      if name = key.name then
        let rest := extractEntry number map entry keys nums (found + 1)
        (groupNum number object :: rest.1, rest.2)
      else
        let rest := extractEntry number map entry keys nums found
        (num :: rest.1, rest.2)
    | _, _ =>
      let rest := extractEntry number map entry keys nums found
      (num :: rest.1, rest.2)
  | _, nums, found => (nums, found)

def extractGroup (number : Bytes → Option GroupNum) (keys : List GbKey) (map : Map) : List GroupNum × Nat :=
  map.foldl (fun state entry => extractEntry number map entry.1 keys state.1 state.2) (keys.map fun _ => .i64 0, 0)

def convert : GroupNum → GroupNum → GroupNum
  | .i64 value, .f64 _ => .f64 (ofInt value.toInt)
  | num, _ => num

def compareNum (lval rval : GroupNum) : Int × GroupNum × GroupNum :=
  let left := convert lval rval
  let right := convert rval lval
  let result :=
    match left, right with
    | .boolean left, .boolean right => if left = right then 0 else 1
    | .i64 left, .i64 right => if right.toInt < left.toInt then 1 else if left.toInt < right.toInt then -1 else 0
    | .f64 left, .f64 right => if less right left then 1 else if less left right then -1 else 0
    | .string left, .string right => CString.sign (CString.strcmp left right)
    | _, _ => -1
  (result, left, right)

/-- `flb_sp_groupby_compare`, with the groups as it leaves them. -/
def groupbyCompare : List GroupNum → List GroupNum → Int × List GroupNum × List GroupNum
  | lval :: left, rval :: right =>
    let (result, lval, rval) := compareNum lval rval
    if result ≠ 0 then (result, lval :: left, rval :: right)
    else
      let (result, left, right) := groupbyCompare left right
      (result, lval :: left, rval :: right)
  | left, right => (0, left, right)

/-- `rb_tree_find_or_insert`, as far as it finds: the groups of the nodes and the new one as
the comparisons leave them, and the node that was found. -/
abbrev Search : Type := List (List GroupNum) → List GroupNum → List (List GroupNum) × List GroupNum × Option Nat

def processAggregateData (search : Search) (number : Bytes → Option GroupNum) (keys : List GbKey) (map : Map)
    (groups : List (List GroupNum)) : List (List GroupNum) × Option Nat :=
  let (group, found) := extractGroup number keys map
  if found < keys.length then (groups, none)
  else
    match search groups group with
    | (groups, _, some place) => (groups, some place)
    | (groups, group, none) => (groups ++ [group], some groups.length)

def process (search : Search) (number : Bytes → Option GroupNum) (keys : List GbKey) :
    List Map → List (List GroupNum) → List (Option Nat) × List (List GroupNum)
  | [], groups => ([], groups)
  | map :: rest, groups =>
    let (groups, place) := processAggregateData search number keys map groups
    let (places, groups) := process search number keys rest groups
    (place :: places, groups)

/-! Which records share a node of a query with group keys. -/

open List CString

inductive GroupValue where
  | int (number : Int)
  | float (rank : Int)
  | text (text : Bytes)
  | truth (value : Bool)
deriving DecidableEq

def valueOf : Object → Option GroupValue
  | .positive u64 => some (.int u64.toNat)
  | .negative i64 => some (.int i64.toInt)
  | .float32 bits => some (.float (rank (ofSingle bits)))
  | .float64 bits => some (.float (rank bits))
  | .str text => some (.text text)
  | .boolean value => some (.truth value)
  | _ => none

def groupOf (keys : List GbKey) (map : Map) : List (Option GroupValue) :=
  keys.map fun key => (keyToObject key map).bind valueOf

inductive Kind where
  | int
  | float
  | text
  | truth
deriving DecidableEq

/-- A value that is told apart from the others of its kind: an integer of 64 bits with a
sign, a double that is a number, a string that has no zero byte and is not converted. -/
def Kind.Fits (number : Bytes → Option GroupNum) : Kind → Object → Prop
  | .int, .positive u64 => u64.msb = false
  | .int, .negative i64 => i64.msb = true
  | .float, .float32 bits => isNaN (ofSingle bits) = false
  | .float, .float64 bits => isNaN bits = false
  | .text, .str bytes => 0 ∉ bytes ∧ number bytes = none
  | .truth, .boolean _ => True
  | _, _ => False

def Fits (number : Bytes → Option GroupNum) (keys : List GbKey) (kinds : List Kind) (map : Map) : Prop :=
  List.Forall₂ (fun key kind => ∃ object, keyToObject key map = some object ∧ Kind.Fits number kind object) keys kinds

def named (entry : Object) (key : GbKey) : Bool :=
  match entry with
  | .str name => name = key.name
  | _ => false

variable {object : Object}

section

variable {number : Bytes → Option GroupNum} {map : Map} {value : GbKey → Object}
variable {keys : List GbKey} {nums : List GroupNum}

theorem extractEntry_eq (sameLength : nums.length = keys.length)
    (found : ∀ key ∈ keys, keyToObject key map = some (value key)) (entry : Object) (count : Nat) :
    extractEntry number map entry keys nums count =
      (List.zipWith (fun key num => if named entry key then groupNum number (value key) else num) keys nums,
        count + keys.countP (named entry)) := by
  induction keys generalizing nums count with
  | nil =>
    cases nums with
    | nil => rfl
    | cons num nums => cases sameLength
  | cons key keys ih =>
    cases nums with
    | nil => cases sameLength
    | cons num nums =>
      have restLength : nums.length = keys.length := Nat.succ.inj sameLength
      have later := fun count => ih restLength (fun key member => found key (mem_cons_of_mem _ member)) count
      have here := found key mem_cons_self
      cases entry with
      | str name =>
        simp only [extractEntry, here, later, zipWith_cons_cons, countP_cons]
        by_cases same : name = key.name
        · simp [named, same]
          omega
        · simp [named, same]
      | nil | boolean | positive | negative | float32 | float64 | bin | ext | array | map =>
        simp only [extractEntry, later, zipWith_cons_cons, countP_cons]
        simp [named]

theorem countP_any_le (keys : List GbKey) (entry : Object) (entries : List Object) :
    keys.countP (fun key => (entry :: entries).any (named · key)) ≤
      keys.countP (named entry) + keys.countP fun key => entries.any (named · key) := by
  induction keys with
  | nil => exact Nat.le_refl _
  | cons key keys ih =>
    simp only [countP_cons, any_cons] at ih ⊢
    cases named entry key with
    | true | false =>
      simp only [Bool.true_or, Bool.false_or, if_true, Bool.false_eq_true, if_false]
      split
      all_goals omega

theorem zipWith_twice (first second : GbKey → GroupNum → GroupNum) :
    List.zipWith second keys (List.zipWith first keys nums) =
      List.zipWith (fun key num => second key (first key num)) keys nums := by
  induction keys generalizing nums with
  | nil => rfl
  | cons key keys ih =>
    cases nums with
    | nil => rfl
    | cons num nums => simp [ih]

theorem foldl_extractEntry (number : Bytes → Option GroupNum)
    (found : ∀ key ∈ keys, keyToObject key map = some (value key)) (entries : List (Object × Object))
    (sameLength : nums.length = keys.length) (count : Nat) :
    (entries.foldl (fun state entry => extractEntry number map entry.1 keys state.1 state.2) (nums, count)).1 =
        List.zipWith (fun key num =>
          if (entries.map Prod.fst).any (named · key) then groupNum number (value key) else num) keys nums ∧
      count + keys.countP (fun key => (entries.map Prod.fst).any (named · key)) ≤
        (entries.foldl (fun state entry => extractEntry number map entry.1 keys state.1 state.2) (nums, count)).2 := by
  induction entries generalizing nums count with
  | nil =>
    constructor
    · have kept : List.zipWith (fun (_ : GbKey) num => num) keys nums = nums := by
        apply ext_getElem
        · simp [sameLength]
        · simp
      simpa using kept.symm
    · simp
  | cons entry entries ih =>
    simp only [foldl_cons, extractEntry_eq sameLength found]
    have nextLength : (List.zipWith (fun key num =>
        if named entry.1 key then groupNum number (value key) else num) keys nums).length = keys.length := by
      simp [sameLength]
    obtain ⟨nextNums, nextCount⟩ := ih nextLength (count + keys.countP (named entry.1))
    constructor
    · rw [nextNums, zipWith_twice]
      congr 1
      funext key num
      rw [map_cons, any_cons]
      generalize (List.map Prod.fst entries).any (fun other => named other key) = later
      cases named entry.1 key with
      | true | false => cases later <;> rfl
    · have split := countP_any_le keys entry.1 (entries.map Prod.fst)
      rw [map_cons]
      omega

theorem any_named_of_lookup {key : GbKey} {entries : Map} (found : Condition.lookup key.name entries = some object) :
    (entries.map Prod.fst).any (named · key) = true := by
  induction entries with
  | nil => cases found
  | cons entry entries ih =>
    obtain ⟨name, val⟩ := entry
    rw [map_cons, any_cons, Bool.or_eq_true]
    cases name with
    | str name =>
      simp only [Condition.lookup] at found
      split at found
      next same => exact .inl (by simp [named, same])
      · exact .inr (ih found)
    | nil | boolean | positive | negative | float32 | float64 | bin | ext | array | map => exact .inr (ih found)

theorem extractGroup_eq (found : ∀ key ∈ keys, keyToObject key map = some (value key)) :
    (extractGroup number keys map).1 = keys.map (fun key => groupNum number (value key)) ∧
      keys.length ≤ (extractGroup number keys map).2 := by
  have entered : ∀ key ∈ keys, (map.map Prod.fst).any (named · key) = true := by
    intro key member
    have object := found key member
    cases looked : Condition.lookup key.name map with
    | none => simp [keyToObject, looked] at object
    | some val => exact any_named_of_lookup looked
  have startLength : (keys.map fun _ => GroupNum.i64 0).length = keys.length := length_map ..
  obtain ⟨nums, count⟩ := foldl_extractEntry number found map startLength 0
  constructor
  · rw [extractGroup, nums, zipWith_map_right, zipWith_self]
    apply map_congr_left
    intro key member
    rw [entered key member, if_pos rfl]
  · have all := countP_eq_length.mpr entered
    rw [extractGroup]
    omega

end

def GroupNum.place : GroupNum → List Int
  | .i64 value => [value.toInt]
  | .f64 bits => [rank bits]
  | .boolean value => [if value then 1 else 0]
  | .string text => numbers (CString.text text)

def Kind.Orderly : Kind → GroupNum → Prop
  | .int, .i64 _ | .truth, .i64 _ => True
  | .float, .f64 bits => isNaN bits = false
  | .text, .string bytes => 0 ∉ bytes
  | _, _ => False

theorem compareInt_tells (left right : BitVec 64) :
    Signs.Tells (if right.toInt < left.toInt then 1 else if left.toInt < right.toInt then -1 else 0)
      [left.toInt] [right.toInt] := by
  split
  next above => exact .more (by decide) (by simpa [cons_lt_cons_iff] using above)
  next notAbove =>
    split
    next below => exact .less (by decide) (by simpa [cons_lt_cons_iff] using below)
    next notBelow => exact .same rfl (by rw [show left.toInt = right.toInt by omega])

theorem compareFloat_tells {left right : BitVec 64} (leftNumber : isNaN left = false)
    (rightNumber : isNaN right = false) :
    Signs.Tells (if less right left then 1 else if less left right then -1 else 0) [rank left] [rank right] := by
  split
  next above =>
    simp only [less, Bool.and_eq_true, decide_eq_true_eq] at above
    exact .more (by decide) (by simpa [cons_lt_cons_iff] using above.2)
  next notAbove =>
    split
    next below =>
      simp only [less, Bool.and_eq_true, decide_eq_true_eq] at below
      exact .less (by decide) (by simpa [cons_lt_cons_iff] using below.2)
    next notBelow =>
      rw [Bool.not_eq_true] at notAbove notBelow
      exact .same rfl (by rw [rank_eq_of_not_less leftNumber rightNumber notBelow notAbove])

variable {kind : Kind}

theorem compareNum_tells {left right : GroupNum} (leftOrderly : kind.Orderly left) (rightOrderly : kind.Orderly right) :
    (compareNum left right).2 = (left, right) ∧ Signs.Tells (compareNum left right).1 left.place right.place := by
  cases kind with
  | int | truth =>
    cases left with
    | f64 | boolean | string => cases leftOrderly
    | i64 value =>
      cases right with
      | f64 | boolean | string => cases rightOrderly
      | i64 other => exact ⟨rfl, compareInt_tells value other⟩
  | float =>
    cases left with
    | i64 | boolean | string => cases leftOrderly
    | f64 bits =>
      cases right with
      | i64 | boolean | string => cases rightOrderly
      | f64 other => exact ⟨rfl, compareFloat_tells leftOrderly rightOrderly⟩
  | text =>
    cases left with
    | i64 | f64 | boolean => cases leftOrderly
    | string text =>
      cases right with
      | i64 | f64 | boolean => cases rightOrderly
      | string other => exact ⟨rfl, compareBytes_signs _ _⟩

def Orderly (kinds : List Kind) (group : List GroupNum) : Prop := List.Forall₂ Kind.Orderly kinds group

theorem groupbyCompare_tells {kinds : List Kind} {left right : List GroupNum} (leftOrderly : Orderly kinds left)
    (rightOrderly : Orderly kinds right) : (groupbyCompare left right).2 = (left, right) ∧
      Signs.Tells (groupbyCompare left right).1 (left.map GroupNum.place) (right.map GroupNum.place) := by
  unfold Orderly at leftOrderly rightOrderly
  induction leftOrderly generalizing right with
  | nil =>
    cases rightOrderly with
    | nil => exact ⟨rfl, .same rfl rfl⟩
  | @cons kind lval kinds left first rest ih =>
    cases rightOrderly with
    | @cons _ rval _ right second others =>
      obtain ⟨kept, tells⟩ := compareNum_tells first second
      obtain ⟨restKept, restTells⟩ := ih others
      obtain ⟨result, written⟩ : ∃ result, compareNum lval rval = (result, lval, rval) := ⟨_, Prod.ext rfl kept⟩
      obtain ⟨restResult, restWritten⟩ : ∃ result, groupbyCompare left right = (result, left, right) :=
        ⟨_, Prod.ext rfl restKept⟩
      rw [written] at tells
      rw [restWritten] at restTells
      simp only [groupbyCompare, written, restWritten, map_cons]
      split
      next decided => exact ⟨rfl, tells.head decided _ _⟩
      next undecided =>
        rw [tells.zero.mp (not_not.mp undecided)]
        exact ⟨rfl, restTells.cons _⟩

structure TotalOrderOn (groups : List (List GroupNum)) : Prop where
  pure : ∀ left ∈ groups, ∀ right ∈ groups, (groupbyCompare left right).2 = (left, right)
  antisymm : ∀ left ∈ groups, ∀ right ∈ groups, (groupbyCompare left right).1 < 0 ↔ 0 < (groupbyCompare right left).1
  trans : ∀ left ∈ groups, ∀ middle ∈ groups, ∀ right ∈ groups, (groupbyCompare left middle).1 ≤ 0 →
    (groupbyCompare middle right).1 ≤ 0 → (groupbyCompare left right).1 ≤ 0

/-- A tree that is correct for total orders: it finds the node that compares equal, if there
is one. -/
def TreeCorrect (search : Search) : Prop :=
  ∀ groups group, TotalOrderOn (group :: groups) →
    ∃ place, search groups group = (groups, group, place) ∧
      match place with
      | some place => ∃ found, groups[place]? = some found ∧ (groupbyCompare group found).1 = 0
      | none => ∀ other ∈ groups, (groupbyCompare group other).1 ≠ 0

variable {groups : List (List GroupNum)}

theorem totalOrderOn_of_orderly (kinds : List Kind) (orderly : ∀ group ∈ groups, Orderly kinds group) :
    TotalOrderOn groups := by
  have tells : ∀ left ∈ groups, ∀ right ∈ groups, _ := fun left leftMember right rightMember =>
    groupbyCompare_tells (orderly left leftMember) (orderly right rightMember)
  constructor
  · intro left leftMember right rightMember
    exact (tells left leftMember right rightMember).1
  · intro left leftMember right rightMember
    rw [(tells left leftMember right rightMember).2.negative, (tells right rightMember left leftMember).2.positive]
  · intro left leftMember middle middleMember right rightMember first second
    have firstTells := (tells left leftMember middle middleMember).2
    have secondTells := (tells middle middleMember right rightMember).2
    have notAbove := not_lt.mp (mt firstTells.positive.mpr (Int.not_lt.mpr first))
    have notAboveNext := not_lt.mp (mt secondTells.positive.mpr (Int.not_lt.mpr second))
    have both := (tells left leftMember right rightMember).2
    exact Int.not_lt.mp (mt both.positive.mp (not_lt.mpr (notAbove.trans notAboveNext)))

variable {number : Bytes → Option GroupNum}

theorem Kind.Fits.orderly (fits : kind.Fits number object) : kind.Orderly (groupNum number object) := by
  cases kind with
  | int =>
    cases object with
    | positive | negative => trivial
    | nil | boolean | float32 | float64 | str | bin | ext | array | map => cases fits
  | float =>
    cases object with
    | float32 | float64 => exact fits
    | nil | boolean | positive | negative | str | bin | ext | array | map => cases fits
  | text =>
    cases object with
    | str text =>
      simp only [groupNum, fits.2]
      exact fits.1
    | nil | boolean | positive | negative | float32 | float64 | bin | ext | array | map => cases fits
  | truth =>
    cases object with
    | boolean => trivial
    | nil | positive | negative | float32 | float64 | str | bin | ext | array | map => cases fits

theorem valueOf_int (fits : Kind.Fits number .int object) :
    ∃ i64 : BitVec 64, groupNum number object = .i64 i64 ∧ valueOf object = some (.int i64.toInt) := by
  cases object with
  | positive u64 =>
    refine ⟨u64, rfl, ?_⟩
    have positive : u64.msb = false := fits
    rw [BitVec.msb_eq_decide] at positive
    simp only [decide_eq_false_iff_not] at positive
    rw [valueOf, BitVec.toInt_eq_toNat_cond, if_pos (by omega)]
  | negative i64 => exact ⟨i64, rfl, rfl⟩
  | nil | boolean | float32 | float64 | str | bin | ext | array | map => cases fits

theorem valueOf_float (fits : Kind.Fits number .float object) :
    ∃ bits : BitVec 64, groupNum number object = .f64 bits ∧ valueOf object = some (.float (rank bits)) := by
  cases object with
  | float32 bits => exact ⟨ofSingle bits, rfl, rfl⟩
  | float64 bits => exact ⟨bits, rfl, rfl⟩
  | nil | boolean | positive | negative | str | bin | ext | array | map => cases fits

theorem place_eq_iff {left right : Object} (leftFits : kind.Fits number left) (rightFits : kind.Fits number right) :
    (groupNum number left).place = (groupNum number right).place ↔ valueOf left = valueOf right := by
  cases kind with
  | int =>
    obtain ⟨leftInt, leftNum, leftValue⟩ := valueOf_int leftFits
    obtain ⟨rightInt, rightNum, rightValue⟩ := valueOf_int rightFits
    rw [leftNum, rightNum, leftValue, rightValue]
    simp [GroupNum.place]
  | float =>
    obtain ⟨leftBits, leftNum, leftValue⟩ := valueOf_float leftFits
    obtain ⟨rightBits, rightNum, rightValue⟩ := valueOf_float rightFits
    rw [leftNum, rightNum, leftValue, rightValue]
    simp [GroupNum.place]
  | text =>
    cases left with
    | nil | boolean | positive | negative | float32 | float64 | bin | ext | array | map => cases leftFits
    | str leftText =>
      cases right with
      | nil | boolean | positive | negative | float32 | float64 | bin | ext | array | map => cases rightFits
      | str rightText =>
        simp only [groupNum, leftFits.2, rightFits.2, Option.getD_none, GroupNum.place,
          text_eq_self leftFits.1, text_eq_self rightFits.1, valueOf, Option.some.injEq, GroupValue.text.injEq]
        constructor
        · exact numbers_injective
        · rintro rfl
          rfl
  | truth =>
    cases left with
    | nil | positive | negative | float32 | float64 | str | bin | ext | array | map => cases leftFits
    | boolean leftValue =>
      cases right with
      | nil | positive | negative | float32 | float64 | str | bin | ext | array | map => cases rightFits
      | boolean rightValue =>
        cases leftValue <;> cases rightValue <;> simp [groupNum, GroupNum.place, valueOf]

/-! ### Runs -/

section

variable {number : Bytes → Option GroupNum} {keys : List GbKey} {kinds : List Kind}

theorem Fits.found {map : Map} (fits : Fits number keys kinds map) :
    ∀ key ∈ keys, keyToObject key map = some ((keyToObject key map).getD .nil) := by
  unfold Fits at fits
  induction fits with
  | nil =>
    intro key member
    cases member
  | cons first _ ih =>
    intro key member
    cases member with
    | head =>
      obtain ⟨object, found, -⟩ := first
      rw [found]
      rfl
    | tail _ later => exact ih key later

variable {map : Map} {search : Search}

theorem Fits.orderly (fits : Fits number keys kinds map) : Orderly kinds (extractGroup number keys map).1 := by
  rw [(extractGroup_eq fits.found).1]
  unfold Fits at fits
  induction fits with
  | nil => exact .nil
  | cons first _ ih =>
    obtain ⟨object, found, kindFits⟩ := first
    rw [map_cons]
    refine .cons ?_ ih
    rw [found]
    exact kindFits.orderly

theorem Fits.places_eq_iff {left right : Map} (leftFits : Fits number keys kinds left)
    (rightFits : Fits number keys kinds right) :
    (extractGroup number keys left).1.map GroupNum.place = (extractGroup number keys right).1.map GroupNum.place ↔
      groupOf keys left = groupOf keys right := by
  rw [(extractGroup_eq leftFits.found).1, (extractGroup_eq rightFits.found).1]
  unfold Fits at leftFits rightFits
  unfold groupOf
  induction leftFits with
  | nil => simp
  | cons first _ ih =>
    cases rightFits with
    | cons second others =>
      obtain ⟨leftObject, leftFound, leftKind⟩ := first
      obtain ⟨rightObject, rightFound, rightKind⟩ := second
      have rest := ih others
      simp only [map_map] at rest ⊢
      simp [rest, Function.comp, leftFound, rightFound, place_eq_iff leftKind rightKind]

structure Separated (kinds : List Kind) (groups : List (List GroupNum)) : Prop where
  orderly : ∀ group ∈ groups, Orderly kinds group
  distinct : (groups.map (List.map GroupNum.place)).Nodup

def Placed (number : Bytes → Option GroupNum) (keys : List GbKey) (groups : List (List GroupNum)) (map : Map)
    (place : Option Nat) : Prop :=
  ∃ index group, place = some index ∧ groups[index]? = some group ∧
    group.map GroupNum.place = (extractGroup number keys map).1.map GroupNum.place

theorem Placed.extend {groups later : List (List GroupNum)} {place : Option Nat}
    (placed : Placed number keys groups map place) (grown : groups <+: later) : Placed number keys later map place := by
  obtain ⟨index, group, rfl, found, same⟩ := placed
  obtain ⟨more, rfl⟩ := grown
  refine ⟨index, group, rfl, ?_, same⟩
  rw [List.getElem?_append_left (List.getElem?_eq_some_iff.mp found).1]
  exact found

theorem Separated.processAggregateData (tree : TreeCorrect search) (separated : Separated kinds groups)
    (fits : Fits number keys kinds map) : groups <+: (processAggregateData search number keys map groups).1 ∧
      Separated kinds (processAggregateData search number keys map groups).1 ∧
      Placed number keys (processAggregateData search number keys map groups).1 map
        (processAggregateData search number keys map groups).2 := by
  have orderly := fits.orderly
  have enough : keys.length ≤ (extractGroup number keys map).2 := (extractGroup_eq fits.found).2
  have all : ∀ group ∈ (extractGroup number keys map).1 :: groups, Orderly kinds group := by
    intro group member
    cases member with
    | head => exact orderly
    | tail _ later => exact separated.orderly group later
  obtain ⟨place, searched, told⟩ := tree groups _ (totalOrderOn_of_orderly kinds all)
  simp only [GroupOrder.processAggregateData, Nat.not_lt.mpr enough, if_false, searched]
  cases place with
  | some place =>
    obtain ⟨found, foundAt, equal⟩ := told
    have tells := (groupbyCompare_tells orderly (separated.orderly found (mem_of_getElem? foundAt))).2
    exact ⟨prefix_rfl, separated, place, found, rfl, foundAt, (tells.zero.mp equal).symm⟩
  | none =>
    refine ⟨prefix_append _ _, ⟨?_, ?_⟩, groups.length, _, rfl, by simp, rfl⟩
    · intro group member
      rw [mem_append, mem_singleton] at member
      cases member with
      | inl earlier => exact separated.orderly group earlier
      | inr last => exact last ▸ orderly
    · rw [map_append, nodup_append]
      refine ⟨separated.distinct, nodup_singleton _, ?_⟩
      intro places earlier last lastMember same
      obtain ⟨other, otherMember, rfl⟩ := mem_map.mp earlier
      rw [map_singleton, mem_singleton] at lastMember
      have tells := (groupbyCompare_tells orderly (separated.orderly other otherMember)).2
      exact told other otherMember (tells.zero.mpr (by rw [← lastMember, ← same]))

theorem Separated.process (tree : TreeCorrect search) {records : List Map}
    (fits : ∀ map ∈ records, Fits number keys kinds map) (separated : Separated kinds groups) :
    groups <+: (process search number keys records groups).2 ∧
      Separated kinds (process search number keys records groups).2 ∧
      List.Forall₂ (Placed number keys (process search number keys records groups).2) records
        (process search number keys records groups).1 := by
  induction records generalizing groups with
  | nil => exact ⟨prefix_rfl, separated, .nil⟩
  | cons map rest ih =>
    obtain ⟨grown, next, placed⟩ := separated.processAggregateData tree (fits map mem_cons_self)
    obtain ⟨later, final, others⟩ := ih (fun other member => fits other (mem_cons_of_mem _ member)) next
    exact ⟨grown.trans later, final, .cons (placed.extend later) others⟩

end

/-- Where each key has values of one kind throughout, records share a node just where they
have the same group, in whatever order they come. -/
theorem same_node_iff (search : Search) (tree : TreeCorrect search) (number : Bytes → Option GroupNum)
    (keys : List GbKey) (kinds : List Kind) (records : List Map) (fits : ∀ map ∈ records, Fits number keys kinds map)
    (first second : Nat) (left right : Map) (firstRecord : records[first]? = some left)
    (secondRecord : records[second]? = some right) :
    TotalOrderOn (records.map fun map => (extractGroup number keys map).1) ∧
    ∃ firstPlace secondPlace, (process search number keys records []).1[first]? = some (some firstPlace) ∧
      (process search number keys records []).1[second]? = some (some secondPlace) ∧
      (firstPlace = secondPlace ↔ groupOf keys left = groupOf keys right) := by
  have ordered : TotalOrderOn (records.map fun map => (extractGroup number keys map).1) := by
    apply totalOrderOn_of_orderly kinds
    intro group member
    obtain ⟨map, recordMember, rfl⟩ := mem_map.mp member
    exact (fits map recordMember).orderly
  refine ⟨ordered, ?_⟩
  have none : Separated kinds [] := ⟨by simp, nodup_nil⟩
  obtain ⟨-, separated, placed⟩ := none.process tree fits
  have each : ∀ (index : Nat) (map : Map), records[index]? = some map →
      ∃ place group, (process search number keys records []).1[index]? = some (some place) ∧
        (process search number keys records []).2[place]? = some group ∧
        group.map GroupNum.place = (extractGroup number keys map).1.map GroupNum.place := by
    intro index map found
    obtain ⟨inside, rfl⟩ := List.getElem?_eq_some_iff.mp found
    have sameLength := placed.length_eq
    obtain ⟨place, group, isPlace, groupAt, same⟩ := (forall₂_iff_get.mp placed).2 index inside (by omega)
    refine ⟨place, group, ?_, groupAt, same⟩
    rw [List.getElem?_eq_getElem (by omega), ← isPlace]
    rfl
  obtain ⟨firstPlace, firstGroup, firstAt, firstFound, firstSame⟩ := each first left firstRecord
  obtain ⟨secondPlace, secondGroup, secondAt, secondFound, secondSame⟩ := each second right secondRecord
  refine ⟨firstPlace, secondPlace, firstAt, secondAt, ?_⟩
  rw [← (fits left (mem_of_getElem? firstRecord)).places_eq_iff (fits right (mem_of_getElem? secondRecord)),
    ← firstSame, ← secondSame]
  constructor
  · rintro rfl
    rw [firstFound] at secondFound
    rw [Option.some.inj secondFound]
  · intro same
    have inside := (List.getElem?_eq_some_iff.mp firstFound).1
    apply (List.getElem?_inj (by simpa using inside) separated.distinct).mp
    rw [List.getElem?_map, List.getElem?_map, firstFound, secondFound, Option.map_some, Option.map_some, same]

def firstEqual : Search := fun groups group =>
  (groups, group, groups.findIdx? fun other => (groupbyCompare group other).1 = 0)

theorem treeCorrect_firstEqual : TreeCorrect firstEqual := by
  intro groups group _
  refine ⟨_, rfl, ?_⟩
  cases searched : groups.findIdx? fun other => (groupbyCompare group other).1 = 0 with
  | none =>
    intro other member
    have differs := List.findIdx?_eq_none_iff.mp searched other member
    simpa using differs
  | some place =>
    obtain ⟨inside, equal, -⟩ := List.findIdx?_eq_some_iff_getElem.mp searched
    exact ⟨groups[place], List.getElem?_eq_getElem inside, by simpa using equal⟩

/-- The key `g`, and a record that has a value for it. -/
def sampleKey : GbKey := { name := [103], subkeys := [] }

def sampleMap (object : Object) : Map := [(.str [103], object)]

theorem same_node_iff_sample : TotalOrderOn ([sampleMap (.positive 1), sampleMap (.negative (-1))].map fun map =>
      (extractGroup (fun _ => none) [sampleKey] map).1) ∧ ∃ firstPlace secondPlace,
      (process firstEqual (fun _ => none) [sampleKey] [sampleMap (.positive 1), sampleMap (.negative (-1))] []).1[0]? =
        some (some firstPlace) ∧
      (process firstEqual (fun _ => none) [sampleKey] [sampleMap (.positive 1), sampleMap (.negative (-1))] []).1[1]? =
        some (some secondPlace) ∧ (firstPlace = secondPlace ↔
        groupOf [sampleKey] (sampleMap (.positive 1)) = groupOf [sampleKey] (sampleMap (.negative (-1)))) :=
  same_node_iff firstEqual treeCorrect_firstEqual (fun _ => none) [sampleKey] [.int]
    [sampleMap (.positive 1), sampleMap (.negative (-1))]
    (by
      intro map member
      simp only [mem_cons, not_mem_nil, or_false] at member
      cases member with
      | inl first =>
        subst first
        exact .cons ⟨.positive 1, rfl, by simp only [Kind.Fits]; decide⟩ .nil
      | inr second =>
        subst second
        exact .cons ⟨.negative (-1), rfl, by simp only [Kind.Fits]; decide⟩ .nil)
    0 1 _ _ rfl rfl

/-- `true` and 1 share a node; an integer and a string are each before the other; and an
integer that was compared with a double is not one any more. -/
theorem mixed_groups_break :
    (process firstEqual (fun _ => none) [sampleKey] [sampleMap (.boolean true), sampleMap (.positive 1)] []).1 =
        [some 0, some 0] ∧
      groupOf [sampleKey] (sampleMap (.boolean true)) ≠ groupOf [sampleKey] (sampleMap (.positive 1)) ∧
      (groupbyCompare [.i64 1] [.string [97]]).1 = -1 ∧ (groupbyCompare [.string [97]] [.i64 1]).1 = -1 ∧
      groupbyCompare [.i64 1] [.f64 0x4000000000000000] =
        (-1, [.f64 0x3ff0000000000000], [.f64 0x4000000000000000]) := by
  decide +kernel

end FluentBit.StreamProcessor.GroupOrder
