import FluentBit.RecordAccessor.Lookup

/-! `flb_ra_update_kv_pair` and `flb_ra_append_kv_pair`, after `src/flb_ra_key.c` and
`src/flb_record_accessor.c`: the record is packed again member by member. -/

set_option autoImplicit false

namespace FluentBit.RecordAccessor

open Msgpack

/-- Why nothing was packed: the code returned -1, or it read through a pointer that is `NULL` or not
that of an entry. -/
inductive Failure where
  | refused
  | crash
deriving DecidableEq

/-- What was packed, and `*matched`. -/
abbrev Packed : Type := Except Failure (Bytes × Int)

def packLoop {α : Type} (one : Nat → α → Int → Packed) : Nat → List α → Int → Packed
  | _, [], matched => .ok ([], matched)
  | i, member :: members, matched =>
    match one i member matched with
    | .error failure => .error failure
    | .ok (bytes, matched) =>
      match packLoop one (i + 1) members matched with
      | .error failure => .error failure
      | .ok (later, matched) => .ok (bytes ++ later, matched)

def behindHead (head : Bytes) : Packed → Packed
  | .error failure => .error failure
  | .ok (bytes, matched) => .ok (head ++ bytes, matched)

def packEntry (entry : Object × Object) : Bytes := pack entry.1 ++ pack entry.2

/-- `msgpack_pack_object` of a pointer. -/
def packPointer (object : Option Object) (matched : Int) : Packed :=
  match object with
  | none => .error .crash
  | some object => .ok (pack object, matched)

/-- `update_subkey` with `update_subkey_array` and `update_subkey_map` -/
def updateSubkey (levels : Int) (inKey inVal : Option Object) : List Subentry → Object → Int → Packed
  | [], _, _ => .error .crash
  | .arrayId id :: later, obj, matched =>
    match obj with
    | .array items =>
      if id.val = intMax ∨ items.length < id.val + 1 then .error .refused
      else
        behindHead (packArray items.length) <|
          packLoop
            (fun i item matched =>
              if i ≠ id.val then .ok (pack item, matched)
              else if levels = matched + 1 then packPointer inVal (matched + 1)
              else updateSubkey levels inKey inVal later item (matched + 1))
            0 items matched
    | _ => .error .refused
  | .str name :: later, obj, matched =>
    match obj with
    | .map entries =>
      match raKeyValId name.text (.map entries) with
      | none => .error .refused
      | some id =>
        behindHead (packMap entries.length) <|
          packLoop
            (fun i entry matched =>
              if i ≠ id then .ok (packEntry entry, matched)
              else if levels = matched + 1 then
                .ok (packEntry (inKey.getD entry.1, inVal.getD entry.2), matched + 1)
              else behindHead (pack entry.1) (updateSubkey levels inKey inVal later entry.2 (matched + 1)))
            0 entries matched
    | _ => .error .refused

def flbRaKeyValueUpdate (key : Key) (map : Object) (inKey inVal : Option Object) : Packed :=
  match map with
  | .map entries =>
    match raKeyValId key.name.text (.map entries) with
    | none => .error .refused
    | some id =>
      behindHead (packMap entries.length) <|
        packLoop
          (fun i entry matched =>
            if i ≠ id then .ok (packEntry entry, matched)
            else if key.subkeys.length = 0 then .ok (packEntry (inKey.getD entry.1, inVal.getD entry.2), matched)
            else
              behindHead (pack entry.1)
                (updateSubkey key.subkeys.length inKey inVal key.subkeys entry.2 matched))
          0 entries 0
  | _ => .error .refused

/-- `append_subkey` with `append_subkey_array` and `append_subkey_map` -/
def appendSubkey (levels : Int) (inVal : Object) : List Subentry → Object → Int → Packed
  | [], _, _ => .error .crash
  | .arrayId id :: later, obj, matched =>
    match obj with
    | .array items =>
      if levels = matched then .ok (packArray (items.length + 1) ++ packItems items ++ pack inVal, -1)
      else if id.val = intMax ∨ items.length < id.val + 1 then .error .refused
      else
        behindHead (packArray items.length) <|
          packLoop
            (fun i item matched =>
              if i ≠ id.val then .ok (pack item, matched)
              else appendSubkey levels inVal later item (if 0 ≤ matched then matched + 1 else matched))
            0 items matched
    | _ => .error .refused
  | .str name :: later, obj, matched =>
    match obj with
    | .map entries =>
      if levels = matched then
        .ok (packMap (entries.length + 1) ++ packEntries entries ++ packStr name.text ++ pack inVal, -1)
      else
        match raKeyValId name.text (.map entries) with
        | none => .error .refused
        | some id =>
          behindHead (packMap entries.length) <|
            packLoop
              (fun i entry matched =>
                if i ≠ id then .ok (packEntry entry, matched)
                else
                  behindHead (pack entry.1)
                    (appendSubkey levels inVal later entry.2 (if 0 ≤ matched then matched + 1 else matched)))
              0 entries matched
    | _ => .error .refused

/-- `flb_ra_key_value_append`, for a record that is a map -/
def flbRaKeyValueAppend (key : Key) (entries : List (Object × Object)) (inVal : Object) : Packed :=
  if (key.subkeys.length : Int) - 1 < 0 then
    .ok (packMap (entries.length + 1) ++ packEntries entries ++ packStr key.name.text ++ pack inVal, 0)
  else
    match raKeyValId key.name.text (.map entries) with
    | none => .error .refused
    | some id =>
      behindHead (packMap entries.length) <|
        packLoop
          (fun i entry matched =>
            if i ≠ id then .ok (packEntry entry, matched)
            else
              behindHead (pack entry.1)
                (appendSubkey ((key.subkeys.length : Int) - 1) inVal key.subkeys entry.2 matched))
          0 entries 0

/-- A return value with `*out_map`, or nothing when the code crashed. -/
abbrev Returned : Type := Option (Int × Option Bytes)

def handOut (outMap : Option Bytes) : Packed → Returned
  | .ok (bytes, _) => some (0, some bytes)
  | .error .refused => some (-1, outMap)
  | .error .crash => none

def flbRaUpdateKvPair (key : Key) (map : Object) (outMap : Option Bytes) (inKey inVal : Option Object) : Returned :=
  if inKey.isNone && inVal.isNone then some (-1, outMap)
  else
    match flbRaGetKvPair key map with
    | none => some (-1, outMap)
    | some _ => handOut outMap (flbRaKeyValueUpdate key map inKey inVal)

/-- `flb_ra_append_kv_pair`, for a record that is a map. A path that exists is told by its key. -/
def flbRaAppendKvPair (key : Key) (entries : List (Object × Object)) (outMap : Option Bytes)
    (inVal : Option Object) : Returned :=
  match inVal with
  | none => some (-1, outMap)
  | some inVal =>
    match flbRaGetKvPair key (.map entries) with
    | some { outKey := some _, .. } => some (-1, outMap)
    | _ => handOut outMap (flbRaKeyValueAppend key entries inVal)

end FluentBit.RecordAccessor
