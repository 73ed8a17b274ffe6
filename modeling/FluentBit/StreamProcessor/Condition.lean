import FluentBit.Foundation.Binary64
import FluentBit.Foundation.CString
import FluentBit.Foundation.Msgpack

/-! The condition of a query: the tree that the grammar of `src/stream_processor/parser/sql.y`
builds for it, and `reduce_expression` of `src/stream_processor/flb_sp.c`. -/

set_option autoImplicit false

namespace FluentBit.StreamProcessor.Condition

open Binary64
open Msgpack (Object)

inductive Val where
  | null
  | boolean (value : Bool)
  | int (i64 : BitVec 64)
  | float (f64 : BitVec 64)
  | string (text : Bytes)
deriving DecidableEq

/-- The operations of `struct flb_exp_op` -/
inductive Operation where
  | par
  | eq
  | lt
  | lte
  | gt
  | gte
  | not
  | and
  | or
deriving DecidableEq

/-- `struct flb_exp`; `absent` is the null pointer. -/
inductive Exp where
  | absent
  | val (value : Val)
  | key (name : Bytes) (subkeys : List Bytes)
  | contains (param : Exp)
  | time
  | op (operation : Operation) (left right : Exp)
deriving DecidableEq

/-- `msgpack_object_to_sp_value` -/
def objectToValue : Object → Option Val
  | .boolean value => some (.boolean value)
  | .positive i64 | .negative i64 => some (.int i64)
  | .float32 bits => some (.float (ofSingle bits))
  | .float64 bits => some (.float bits)
  | .str text => some (.string text)
  | .map _ => some (.boolean true)
  | .nil => some .null
  | _ => none

def lookup (name : Bytes) : List (Object × Object) → Option Object
  | [] => none
  | (.str key, val) :: rest => if key = name then some val else lookup name rest
  | _ :: rest => lookup name rest

def subkeyToValue : List Bytes → Object → Option Val
  | [], object => objectToValue object
  | name :: subkeys, .map entries => (lookup name entries).bind (subkeyToValue subkeys)
  | _ :: _, _ => none

def keyToValue (name : Bytes) (map : List (Object × Object)) (subkeys : List Bytes) : Option Val :=
  match lookup name map with
  | none => none
  | some (.map entries) => subkeyToValue subkeys (.map entries)
  | some val => objectToValue val

/-- What a condition is about: a record, its time as a double, and `string_to_number`. -/
structure Record where
  map : List (Object × Object)
  time : BitVec 64
  number : Bytes → Option Val

/-! ### Reduction -/

/-- `exp_string_to_number`, where the other side is no string. -/
def stringToNumber (record : Record) : Val → Val → Val
  | .string text, .string _ => .string text
  | .string text, _ => (record.number text).getD (.string text)
  | left, _ => left

/-- `itof_convert`, of the side that is an integer where the other one is a double. -/
def convert : Val → Val → Val
  | .int i64, .float _ => .float (ofInt i64.toInt)
  | val, _ => val

def ordered (holds : Ordering → Bool) : Val → Val → Bool
  | .int left, .int right => holds (compare left.toInt right.toInt)
  | .float left, .float right =>
    if isNaN left || isNaN right then false
    else holds (compare (rank left) (rank right))
  | .string left, .string right => holds (CString.strncmp left right left.length)
  | _, _ => false

def equal : Val → Val → Bool
  | .null, .null => true
  | .boolean left, .boolean right => left == right
  | .int left, .int right => left == right
  | .float left, .float right => same left right
  | .string left, .string right => left.length == right.length && CString.strncmp left right left.length == .eq
  | _, _ => false

def numericalComp (record : Record) (left right : Option Val) (op : Operation) : Bool :=
  match left, right with
  | some left, some right =>
    let number := stringToNumber record left right
    let left := convert number right
    let right := convert right number
    match op with
    | .eq => equal left right
    | .lt => ordered (· == .lt) left right
    | .lte => ordered (· != .gt) left right
    | .gt => ordered (· == .gt) left right
    | .gte => ordered (· != .lt) left right
    | _ => false
  | _, _ => false

def valueToBool : Val → Bool
  | .null => false
  | .boolean value => value
  | .int i64 => 0 < i64.toInt
  | .float f64 => less 0 f64
  | .string _ => true

def toBool (val : Option Val) : Bool := val.elim false valueToBool

def logicalOperation (left right : Option Val) : Operation → Bool
  | .not => !toBool left
  | .and => toBool left && toBool right
  | .or => toBool left || toBool right
  | _ => false

/-- `val.boolean`, of a value that is one. -/
def Val.isTrue : Val → Bool
  | .boolean value => value
  | _ => false

def reduceExpression (record : Record) : Exp → Option Val
  | .absent => none
  | .val value => some value
  | .key name subkeys => keyToValue name record.map subkeys
  | .contains param => (reduceExpression record param).map fun _ => .boolean true
  | .time => some (.float record.time)
  | .op operation leftExp rightExp =>
    let left := reduceExpression record leftExp
    let right := reduceExpression record rightExp
    some (.boolean (match operation with
      | .par => left.elim false Val.isTrue
      | .eq | .lt | .lte | .gt | .gte => numericalComp record left right operation
      | .not | .and | .or => logicalOperation left right operation))

/-- The test of a record in `sp_process_data`. -/
def holds (record : Record) (condition : Exp) : Bool := (reduceExpression record condition).elim false Val.isTrue

/-! ### The grammar -/

inductive RecordFunc where
  | key (name : Bytes) (subkeys : List Bytes)
  | contains (name : Bytes) (subkeys : List Bytes)
  | time

def RecordFunc.exp : RecordFunc → Exp
  | .key name subkeys => .key name subkeys
  | .contains name subkeys => .contains (.key name subkeys)
  | .time => .time

inductive Relation where
  | eq
  | neq
  | lt
  | lte
  | gt
  | gte

/-- A condition that has no other one in it. A key alone is read as a condition, by the first
of the two rules that a key could be reduced by. -/
inductive Atom where
  | func (operand : RecordFunc)
  | value (value : Val)
  | isNull (name : Bytes) (subkeys : List Bytes)
  | isNotNull (name : Bytes) (subkeys : List Bytes)
  | compare (operand : RecordFunc) (relation : Relation) (value : Val)

def Atom.exp : Atom → Exp
  | .func (.key name subkeys) => .op .or (.key name subkeys) .absent
  | .func operand => .op .eq operand.exp (.val (.boolean true))
  | .value val => .op .or .absent (.val val)
  | .isNull name subkeys => .op .eq (.key name subkeys) (.val .null)
  | .isNotNull name subkeys => .op .not (.op .eq (.key name subkeys) (.val .null)) .absent
  | .compare operand .eq val => .op .eq operand.exp (.val val)
  | .compare operand .neq val => .op .not (.op .eq operand.exp (.val val)) .absent
  | .compare operand .lt val => .op .lt operand.exp (.val val)
  | .compare operand .lte val => .op .lte operand.exp (.val val)
  | .compare operand .gt val => .op .gt operand.exp (.val val)
  | .compare operand .gte val => .op .gte operand.exp (.val val)

inductive Connective where
  | and
  | or
deriving DecidableEq

def Connective.operation : Connective → Operation
  | .and => .and
  | .or => .or

inductive Token where
  | atom (atom : Atom)
  | not
  | connective (connective : Connective)
  | opening
  | closing

inductive Pending where
  | not
  | left (condition : Exp) (connective : Connective)
  | opening

def reduce : List Pending → Exp → List Pending × Exp
  | .not :: stack, condition => reduce stack (.op .not condition .absent)
  | .left left connective :: stack, condition => reduce stack (.op connective.operation left condition)
  | stack, condition => (stack, condition)

def parse : List Token → List Pending → Option Exp → Option Exp
  | [], stack, some condition =>
    match reduce stack condition with
    | ([], condition) => some condition
    | _ => none
  | .atom atom :: rest, stack, none => parse rest stack (some atom.exp)
  | .not :: rest, stack, none => parse rest (.not :: stack) none
  | .opening :: rest, stack, none => parse rest (.opening :: stack) none
  | .connective connective :: rest, stack, some condition => parse rest (.left condition connective :: stack) none
  | .closing :: rest, stack, some condition =>
    match reduce stack condition with
    | (.opening :: stack, condition) => parse rest stack (some (.op .par condition .absent))
    | _ => none
  | _, _, _ => none

/-! The comparisons of a condition as an order: what holds of every two integers, and of which
strings. -/

open CString

def Operation.mirror : Operation → Operation
  | .lt => .gt
  | .lte => .gte
  | .gt => .lt
  | .gte => .lte
  | operation => operation

structure Consistent (record : Record) (order : Ordering) (left right : Val) : Prop where
  trichotomy : (numericalComp record (some left) (some right) .lt).toNat +
    (numericalComp record (some left) (some right) .eq).toNat +
    (numericalComp record (some left) (some right) .gt).toNat = 1
  lte : numericalComp record (some left) (some right) .lte =
    (numericalComp record (some left) (some right) .lt || numericalComp record (some left) (some right) .eq)
  gte : numericalComp record (some left) (some right) .gte = !numericalComp record (some left) (some right) .lt
  mirrored : ∀ operation : Operation, numericalComp record (some right) (some left) operation.mirror =
    numericalComp record (some left) (some right) operation
  less : numericalComp record (some left) (some right) .lt = (order == .lt)
  same : numericalComp record (some left) (some right) .eq = (order == .eq)
  more : numericalComp record (some left) (some right) .gt = (order == .gt)

theorem Consistent.of_order {record : Record} {order : Ordering} {left right : Val}
    (plain : ∀ operation, numericalComp record (some left) (some right) operation = (match operation with
        | .eq => equal left right
        | .lt => ordered (· == .lt) left right
        | .lte => ordered (· != .gt) left right
        | .gt => ordered (· == .gt) left right
        | .gte => ordered (· != .lt) left right
        | _ => false))
    (mirrored : ∀ operation, numericalComp record (some right) (some left) operation = (match operation with
        | .eq => equal right left
        | .lt => ordered (· == .lt) right left
        | .lte => ordered (· != .gt) right left
        | .gt => ordered (· == .gt) right left
        | .gte => ordered (· != .lt) right left
        | _ => false))
    (orders : ∀ holds, ordered holds left right = holds order) (mirrors : ∀ holds, ordered holds right left = holds order.swap)
    (equals : equal left right = (order == .eq)) (equalMirrored : equal right left = (order == .eq)) :
    Consistent record order left right := by
  constructor
  · simp only [plain, orders, equals]
    cases order <;> rfl
  · simp only [plain, orders, equals]
    cases order <;> rfl
  · simp only [plain, orders]
    cases order <;> rfl
  · intro operation
    simp only [plain, mirrored]
    cases operation with
    | lt | lte | gt | gte =>
      simp only [Operation.mirror, orders, mirrors]
      cases order <;> rfl
    | eq => exact equalMirrored.trans equals.symm
    | par | not | and | or => rfl
  · simp [plain, orders]
  · simp [plain, equals]
  · simp [plain, orders]

theorem consistent_int (record : Record) (left right : BitVec 64) :
    Consistent record (compare left.toInt right.toInt) (.int left) (.int right) := by
  have same : ∀ one other : BitVec 64, (one == other) = (compare one.toInt other.toInt == .eq) := by
    intro one other
    rw [Bool.eq_iff_iff, beq_iff_eq, beq_iff_eq, Int.compare_eq_eq, BitVec.toInt_inj]
  apply Consistent.of_order
  · exact fun _ => rfl
  · exact fun _ => rfl
  · exact fun _ => rfl
  · intro holds
    rw [Int.compare_swap]
    rfl
  · exact same left right
  · rw [← same left right]
    exact Bool.beq_comm

def ToldApart (left right : Bytes) : Prop :=
  left = right ∨ ∃ common first second firsts seconds, left = common ++ first :: firsts ∧
    right = common ++ second :: seconds ∧ first ≠ second ∧ 0 ∉ common

def ComparesWhole (left right : Bytes) : Prop :=
  strncmp left right left.length = compareBytes left right

theorem comparesWhole_iff (left right : Bytes) :
    ComparesWhole left right ∧ ComparesWhole right left ↔ ToldApart left right := by
  constructor
  · intro ⟨forth, back⟩
    obtain ⟨common, firsts, seconds, rfl, rfl, apart⟩ := exists_common left right
    cases firsts with
    | nil =>
      -- the left string begins the right one
      have equal := (strncmp_append_self common seconds).symm
      simp only [ComparesWhole, List.append_nil] at forth
      exact .inl (by simpa using compareBytes_eq_iff.mp (forth.symm.trans equal.symm))
    | cons first firsts =>
      cases seconds with
      | nil =>
        have equal := (strncmp_append_self common (first :: firsts)).symm
        simp only [ComparesWhole, List.append_nil] at back
        exact .inl (by simpa using compareBytes_eq_iff.mp (back.symm.trans equal.symm))
      | cons second seconds =>
        refine .inr ⟨common, first, second, firsts, seconds, rfl, rfl, apart _ _ _ _ rfl rfl, ?_⟩
        intro zero
        have equal : strncmp (common ++ first :: firsts) (common ++ second :: seconds)
            (common ++ first :: firsts).length = .eq := by
          unfold strncmp
          rw [text_append_of_zero zero, text_append_of_zero zero]
          exact compareBytes_eq_iff.mpr rfl
        have same := compareBytes_eq_iff.mp (forth.symm.trans equal)
        exact apart _ _ _ _ rfl rfl (List.cons.inj (List.append_cancel_left same)).1
  · intro told
    rcases told with rfl | ⟨common, first, second, firsts, seconds, rfl, rfl, apart, noZero⟩
    · have whole : ComparesWhole left left := by
        have equal := strncmp_append_self left []
        rw [List.append_nil] at equal
        exact equal.trans (compareBytes_eq_iff.mpr rfl).symm
      exact ⟨whole, whole⟩
    · constructor
      · exact strncmp_of_apart noZero apart firsts seconds (by simp)
      · exact strncmp_of_apart noZero (Ne.symm apart) seconds firsts (by simp)

theorem equal_string {left right : Bytes} (whole : ComparesWhole left right) :
    equal (.string left) (.string right) = (compareBytes left right == .eq) := by
  have compared : strncmp left right left.length = compareBytes left right := whole
  simp only [equal, compared]
  by_cases same : left = right
  · subst same
    simp [compareBytes_eq_iff.mpr rfl]
  · have unequal : compareBytes left right ≠ .eq := mt compareBytes_eq_iff.mp same
    simp [unequal]

theorem consistent_string_iff (record : Record) (left right : Bytes) :
    Consistent record (compareBytes left right) (.string left) (.string right) ↔ ToldApart left right := by
  rw [← comparesWhole_iff]
  constructor
  · intro consistent
    have less : (strncmp left right left.length == .lt) = (compareBytes left right == .lt) := consistent.less
    have more : (strncmp left right left.length == .gt) = (compareBytes left right == .gt) := consistent.more
    have lessMirrored : (strncmp right left right.length == .gt) = (strncmp left right left.length == .lt) :=
      consistent.mirrored .lt
    have moreMirrored : (strncmp right left right.length == .lt) = (strncmp left right left.length == .gt) :=
      consistent.mirrored .gt
    have determined : ∀ one other : Ordering, (one == .lt) = (other == .lt) → (one == .gt) = (other == .gt) → one = other := by
      decide
    have forth : ComparesWhole left right := determined _ _ less more
    refine ⟨forth, ?_⟩
    apply determined
    · rw [moreMirrored, more, ← compareBytes_swap left right]
      cases compareBytes left right <;> rfl
    · rw [lessMirrored, less, ← compareBytes_swap left right]
      cases compareBytes left right <;> rfl
  · intro ⟨forth, back⟩
    have forthCompared : strncmp left right left.length = compareBytes left right := forth
    have backCompared : strncmp right left right.length = compareBytes right left := back
    apply Consistent.of_order
    · exact fun _ => rfl
    · exact fun _ => rfl
    · exact fun holds => congrArg holds forthCompared
    · intro holds
      rw [compareBytes_swap]
      exact congrArg holds backCompared
    · exact equal_string forth
    · rw [equal_string back, ← compareBytes_swap left right]
      cases compareBytes left right <;> rfl

/-- The comparisons are consistent on every two integers, and on two strings exactly when these
are equal or differ at a place that both reach, not behind a zero byte. -/
theorem comparisons_consistent_iff (record : Record) :
    (∀ left right : BitVec 64, Consistent record (compare left.toInt right.toInt) (.int left) (.int right)) ∧
      ∀ left right : Bytes,
        Consistent record (compareBytes left right) (.string left) (.string right) ↔ ToldApart left right :=
  ⟨consistent_int record, consistent_string_iff record⟩

/-- Neither less, nor equal, nor more: a string and one that begins with it. -/
theorem beginning_inconsistent :
    ¬ Consistent { map := [], time := 0, number := fun _ => none } (compareBytes [97] [97, 98])
      (.string [97]) (.string [97, 98]) := by
  intro consistent
  exact absurd consistent.trichotomy (by decide)

end FluentBit.StreamProcessor.Condition
