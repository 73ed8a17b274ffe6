import FluentBit.Foundation.CString
import FluentBit.Foundation.Paths

/-! Lookups of a record accessor `$key['name'][index]…` in a record, after `src/flb_ra_key.c` and
`src/flb_record_accessor.c`. An allocation does not fail. -/

set_option autoImplicit false

namespace FluentBit.RecordAccessor

open Msgpack CString

structure Name where
  text : Bytes
  noZero : 0 ∉ text
deriving DecidableEq

/-- `struct flb_ra_subentry`; an index is an `int`. -/
inductive Subentry where
  | str (name : Name)
  | arrayId (id : Fin (2 ^ 31))
deriving DecidableEq

structure Key where
  name : Name
  subkeys : List Subentry
deriving DecidableEq

def intMax : Nat := 2 ^ 31 - 1

/-- `flb_sds_cmp` gives 0. -/
def sdsEq (s str : Bytes) : Bool := s.length == str.length && strncmp s str str.length == .eq

/-- The test of `ra_key_val_id` on an entry. -/
def hasKey (ckey : Bytes) : Object × Object → Bool
  | (.str key, _) => sdsEq ckey key
  | _ => false

def raKeyValId (ckey : Bytes) : Object → Option Nat
  | .map entries => lastBelow (hasKey ckey) entries entries.length
  | _ => none

/-- The entry at the position that `ra_key_val_id` gives. -/
def keyEntry (ckey : Bytes) (map : Object) : Option (Nat × Object × Object) :=
  match map, raKeyValId ckey map with
  | .map entries, some i => entries[i]?.map fun entry => (i, entry)
  | _, _ => none

/-- The variables of `subkey_to_object`. A key is known by the positions that lead to it, and `found`
only as far as it is not `NULL`. -/
structure Walk where
  cur : Object
  place : List Position
  matched : Nat := 0
  found : Bool := false
  key : Option (List Position) := none
  val : Option Object := none

/-- The loop of `subkey_to_object`, which a name that is not in the map does not end. -/
def subkeyLoop (levels : Nat) : List Subentry → Walk → Option Walk
  | [], walk => some walk
  | .arrayId id :: later, walk =>
    match walk.cur with
    | .array items =>
      if id.val = intMax then none
      else
        match items[id.val]? with
        | none => none
        | some item =>
          let walk := { walk with
            cur := item, place := walk.place ++ [.item id.val], key := none, val := some item
            matched := walk.matched + 1 }
          if levels = walk.matched then some walk else subkeyLoop levels later walk
    | _ => none
  | .str name :: later, walk =>
    match walk.cur with
    | .map entries =>
      match keyEntry name.text (.map entries) with
      | none => subkeyLoop levels later { walk with found := false }
      | some (i, _, val) =>
        let place := walk.place ++ [.entry i]
        let walk := { walk with
          cur := val, place, key := some place, val := some val, found := true
          matched := walk.matched + 1 }
        if levels = walk.matched then some walk else subkeyLoop levels later walk
    | _ => some walk

/-- What `subkey_to_object` makes of the loop. -/
def Walk.result (levels : Nat) (walk : Walk) : Option (Option (List Position) × Object) :=
  if !walk.found || (0 < walk.matched && levels != walk.matched) then none
  else walk.val.map fun val => (walk.key, val)

/-- `subkey_to_object`: the key, which is `NULL` for an item of an array, and the value. -/
def subkeyToObject (map : Object) (place : List Position) (subkeys : List Subentry) : Option (Option (List Position) × Object) :=
  (subkeyLoop subkeys.length subkeys { cur := map, place }).bind fun walk => walk.result subkeys.length

def isContainer : Object → Bool
  | .map _ => true
  | .array _ => true
  | _ => false

/-- `ra_val` with its type; a float stands for its double. -/
inductive RaVal where
  | bool (boolean : Bool)
  | int (i64 : BitVec 64)
  | float (f64 : Object)
  | string (string : Bytes)
  | null

structure RaValue where
  o : Object
  val : RaVal

def toRaValue (o : Object) : Option RaValue :=
  match o with
  | .boolean value => some { o, val := .bool value }
  | .positive u64 => some { o, val := .int u64 }
  | .negative i64 => some { o, val := .int i64 }
  | .float32 _ => some { o, val := .float o }
  | .float64 _ => some { o, val := .float o }
  | .str text => some { o, val := .string text }
  | .map _ => some { o, val := .bool true }
  | .nil => some { o, val := .null }
  | _ => none

def flbRaKeyToValue (key : Key) (map : Object) : Option RaValue :=
  match keyEntry key.name.text map with
  | none => none
  | some (i, _, val) =>
    if isContainer val && 0 < key.subkeys.length then
      match subkeyToObject val [.entry i] key.subkeys with
      | some (_, outVal) => toRaValue outVal
      | none => none
    else toRaValue val

/-- What `flb_ra_key_value_get` points to. -/
structure KvPair where
  startKey : List Position
  outKey : Option (List Position)
  outVal : Object

def flbRaKeyValueGet (key : Key) (map : Object) : Option KvPair :=
  match keyEntry key.name.text map with
  | none => none
  | some (i, _, val) =>
    if isContainer val && 0 < key.subkeys.length then
      match subkeyToObject val [.entry i] key.subkeys with
      | some (outKey, outVal) => some { startKey := [.entry i], outKey, outVal }
      | none => none
    else some { startKey := [.entry i], outKey := some [.entry i], outVal := val }

def msgpackObjectStrcmp (o : Object) (str : Bytes) : Int :=
  match o with
  | .str text => if text.length != str.length then -1 else sign (strncmp text str str.length)
  | _ => -1

def flbRaKeyStrcmp (key : Key) (map : Object) (str : Bytes) : Int :=
  match keyEntry key.name.text map with
  | none => -1
  | some (i, _, val) =>
    if isContainer val && 0 < key.subkeys.length then
      match subkeyToObject val [.entry i] key.subkeys with
      | some (_, outVal) => msgpackObjectStrcmp outVal str
      | none => -1
    else msgpackObjectStrcmp val str

def searchObject (regex : Bytes → Int) : Object → Int
  | .str text => regex text
  | _ => -1

def flbRaKeyRegexMatch (key : Key) (map : Object) (regex : Bytes → Int) : Int :=
  match keyEntry key.name.text map with
  | none => -1
  | some (i, _, val) =>
    if isContainer val && 0 < key.subkeys.length then
      match subkeyToObject val [.entry i] key.subkeys with
      | some (_, outVal) => searchObject regex outVal
      | none => -1
    else searchObject regex val

def flbRaGetValueObject (key : Key) (map : Object) : Option RaValue := flbRaKeyToValue key map

def flbRaGetKvPair (key : Key) (map : Object) : Option KvPair := flbRaKeyValueGet key map

/-- `flb_ra_strcmp`, which hands on the name of the key in place of `str`. -/
def flbRaStrcmp (key : Key) (map : Object) (_str : Bytes) : Int := flbRaKeyStrcmp key map key.name.text

def flbRaRegexMatch (key : Key) (map : Object) (regex : Bytes → Int) : Int := flbRaKeyRegexMatch key map regex

end FluentBit.RecordAccessor
