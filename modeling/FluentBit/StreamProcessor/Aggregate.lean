import FluentBit.Multiline.Group

/-! Aggregation in the stream processor, after `src/stream_processor/flb_sp.c`,
`flb_sp_key.c`, `flb_sp_groupby.c` and `flb_sp_aggregate_func.c`: the values of a record,
the numbers of an aggregation node, and the functions that add to them.

Strings are handles into a memory that keeps their contents and a log of the calls of
`flb_sds_destroy`. -/

set_option autoImplicit false

namespace FluentBit.StreamProcessor

open Multiline (sdsEq)

/-! ### Records -/

/-- A msgpack object. `other` is one that `msgpack_object_to_sp_value` knows nothing of. -/
inductive Value where
  | int (i64 : BitVec 64)
  | float (f64 : Float)
  | str (text : Bytes)
  | bool (boolean : Bool)
  | nil
  | map (entries : List (Bytes × Value))
  | other

abbrev Map : Type := List (Bytes × Value)

structure Record where
  tag : Bytes
  time : Nat
  map : Map

/-- `msgpack_object_to_sp_value` -/
def Value.checked : Value → Option Value
  | .other => none
  | value => some value

def lookup (name : Bytes) (map : Map) : Option Value :=
  (map.find? fun entry => sdsEq name entry.1).map Prod.snd

def subkeyToValue : List Bytes → Map → Option Value
  | [], _ => none
  | [name], map => (lookup name map).bind Value.checked
  | name :: rest, map =>
    match lookup name map with
    | some (.map inner) => subkeyToValue rest inner
    | _ => none

/-- `flb_sp_key_to_value`; no sub-keys are an empty list. -/
def keyToValue (name : Bytes) (subkeys : List Bytes) (map : Map) : Option Value :=
  match lookup name map with
  | none => none
  | some (.map inner) => if subkeys = [] then some (.map inner) else subkeyToValue subkeys inner
  | some value => value.checked

inductive Number where
  | int (i64 : BitVec 64)
  | float (f64 : Float)

inductive AggrFunc where
  | avg
  | sum
  | count
  | min
  | max
deriving DecidableEq

structure GbKey where
  name : Bytes
  subkeys : List Bytes

/-- `struct flb_sp_cmd_key`: `gbKey` is the place of the group key it stands for. -/
structure CmdKey where
  name : Option Bytes
  subkeys : List Bytes
  aggrFunc : Option AggrFunc
  gbKey : Option Nat

inductive WindowType where
  | default
  | tumbling
  | hopping
deriving DecidableEq

/-- `struct flb_sp_cmd`. The condition is `reduce_expression`; `stringToNumber` is what
`object_to_number` makes of a string, nothing when strings are not converted. -/
structure Cmd where
  keys : List CmdKey
  gbKeys : List GbKey
  condition : Option (Record → Bool)
  stringToNumber : Bytes → Option Number
  window : WindowType

def objectToNumber (cmd : Cmd) : Value → Option Number
  | .int i64 => some (.int i64)
  | .float f64 => some (.float f64)
  | .str text => cmd.stringToNumber text
  | _ => none

/-! ### Numbers -/

abbrev Handle : Type := Nat

inductive NumType where
  | i64
  | f64
  | boolean
  | string
deriving DecidableEq

structure AggregateNum where
  type : NumType
  ops : Nat
  i64 : BitVec 64
  f64 : Float
  boolean : Bool
  string : Option Handle

/-- What `flb_calloc` leaves. -/
def AggregateNum.zero : AggregateNum :=
  { type := .i64, ops := 0, i64 := 0, f64 := 0.0, boolean := false, string := none }

def AggregateNum.handle (num : AggregateNum) : Option Handle := if num.type = .string then num.string else none

def toDouble (i64 : BitVec 64) : Float := Float.ofInt i64.toInt

namespace AggregateNum

def promote (num : AggregateNum) : Number → AggregateNum
  | .int _ => num
  | .float dval =>
    if dval != 0.0 ∧ num.type = .i64 then { num with type := .f64, f64 := toDouble num.i64 } else num

def addSum (num : AggregateNum) (number : Number) : AggregateNum :=
  match num.type, number with
  | .i64, .int ival => { num with i64 := num.i64 + ival, ops := num.ops + 1 }
  | .i64, .float _ => { num with ops := num.ops + 1 }
  | .f64, .int ival => { num with f64 := num.f64 + toDouble ival, ops := num.ops + 1 }
  | .f64, .float dval =>
    { num with f64 := num.f64 + (if dval != 0.0 then dval else toDouble 0), ops := num.ops + 1 }
  | _, _ => num

/-- The number that `aggregate_func_add_min` and `aggregate_func_add_max` compare with. -/
def doubleOf : Number → Float
  | .int ival => toDouble ival
  | .float dval => if dval != 0.0 then dval else toDouble 0

def integerOf : Number → BitVec 64
  | .int ival => ival
  | .float _ => 0

def addMin (num : AggregateNum) (number : Number) : AggregateNum :=
  match num.type with
  | .i64 =>
    if num.ops = 0 ∨ (integerOf number).toInt < num.i64.toInt then
      { num with i64 := integerOf number, ops := num.ops + 1 }
    else num
  | .f64 =>
    if num.ops = 0 ∨ doubleOf number < num.f64 then { num with f64 := doubleOf number, ops := num.ops + 1 }
    else num
  | _ => num

def addMax (num : AggregateNum) (number : Number) : AggregateNum :=
  match num.type with
  | .i64 =>
    if num.ops = 0 ∨ num.i64.toInt < (integerOf number).toInt then
      { num with i64 := integerOf number, ops := num.ops + 1 }
    else num
  | .f64 =>
    if num.ops = 0 ∨ num.f64 < doubleOf number then { num with f64 := doubleOf number, ops := num.ops + 1 }
    else num
  | _ => num

def add (func : AggrFunc) (num : AggregateNum) (number : Number) : AggregateNum :=
  match func with
  | .avg | .sum => num.addSum number
  | .count => num
  | .min => num.addMin number
  | .max => num.addMax number

def removeSum (num prev : AggregateNum) : AggregateNum :=
  match num.type with
  | .i64 => { num with i64 := num.i64 - prev.i64 }
  | .f64 => { num with f64 := num.f64 - prev.f64 }
  | _ => num

def remove (func : AggrFunc) (num prev : AggregateNum) : AggregateNum :=
  match func with
  | .avg | .sum => num.removeSum prev
  | .count | .min | .max => num

end AggregateNum

/-- The strings that were created, and the handles given to `flb_sds_destroy`. -/
structure Memory where
  strings : List Bytes
  released : List Handle

namespace Memory

def create (text : Bytes) (memory : Memory) : Handle × Memory :=
  (memory.strings.length, { memory with strings := memory.strings ++ [text] })

/-- `flb_sds_destroy`, for several handles. -/
def destroy (handles : List Handle) (memory : Memory) : Memory :=
  { memory with released := memory.released ++ handles }

def text (memory : Memory) (handle : Handle) : Bytes := memory.strings.getD handle []

def dangling (memory : Memory) (nums : List AggregateNum) : Bool :=
  (nums.filterMap AggregateNum.handle).any fun handle => decide (handle ∈ memory.released)

end Memory

/-! ### Groups -/

def cString (text : Bytes) : Bytes := text.takeWhile (· != 0)

inductive GroupValue where
  | int (i64 : BitVec 64)
  | float (f64 : Float)
  | bool (boolean : Bool)
  | str (text : Bytes)

def AggregateNum.value (memory : Memory) (num : AggregateNum) : GroupValue :=
  match num.type with
  | .i64 => .int num.i64
  | .f64 => .float num.f64
  | .boolean => .bool num.boolean
  | .string => .str (cString ((num.string.map memory.text).getD []))

def strcmp : Bytes → Bytes → Int
  | [], [] => 0
  | [], byte :: _ => if byte = 0 then 0 else -1
  | byte :: _, [] => if byte = 0 then 0 else 1
  | left :: lefts, right :: rights =>
    if left < right then -1 else if right < left then 1 else if left = 0 then 0 else strcmp lefts rights

def compareInt (left right : BitVec 64) : Int :=
  if right.toInt < left.toInt then 1 else if left.toInt < right.toInt then -1 else 0

def compareDouble (left right : Float) : Int :=
  if right < left then 1 else if left < right then -1 else 0

/-- One key of `flb_sp_groupby_compare`. -/
def compareNum (memory : Memory) (left right : AggregateNum) : Int :=
  match left.type, right.type with
  | .boolean, .boolean => if left.boolean = right.boolean then 0 else 1
  | .i64, .i64 => compareInt left.i64 right.i64
  | .f64, .f64 => compareDouble left.f64 right.f64
  | .i64, .f64 => compareDouble (toDouble left.i64) right.f64
  | .f64, .i64 => compareDouble left.f64 (toDouble right.i64)
  | .string, .string => strcmp ((left.string.map memory.text).getD []) ((right.string.map memory.text).getD [])
  | _, _ => -1

/-- `flb_sp_groupby_compare`. That it leaves an integer it compared with a double as a
double is not in the model. -/
def groupbyCompare (memory : Memory) : List AggregateNum → List AggregateNum → Int
  | left :: lefts, right :: rights =>
    if compareNum memory left right = 0 then groupbyCompare memory lefts rights else compareNum memory left right
  | _, _ => 0

end FluentBit.StreamProcessor
