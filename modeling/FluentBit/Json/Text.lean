import FluentBit.Json.StringRoundTrip

/-! The JSON text of an object, and that it is written into a buffer with room for it. -/

set_option autoImplicit false

namespace FluentBit.Json

open List Ascii
open Msgpack (Object)

/-- Objects of nothing, booleans, numbers of the signed range, valid strings, arrays and maps with
distinct strings as keys. Lengths are numbers of 32 bits. -/
inductive Textual : Object → Prop where
  | nil : Textual .nil
  | boolean (value : Bool) : Textual (.boolean value)
  | positive {u64 : BitVec 64} (inRange : u64.toNat < 2 ^ 63) : Textual (.positive u64)
  | negative {i64 : BitVec 64} (below : i64.toInt < 0) : Textual (.negative i64)
  | str {text : Bytes} (valid : ValidUtf8 text) (short : text.length < 2 ^ 32) : Textual (.str text)
  | array {items : List Object} (few : items.length < 2 ^ 32) (each : ∀ item ∈ items, Textual item) :
      Textual (.array items)
  | map {entries : List (Object × Object)} (few : entries.length < 2 ^ 32)
      (keys : ∀ entry ∈ entries, ∃ text, ValidUtf8 text ∧ text.length < 2 ^ 32 ∧ entry.1 = .str text)
      (distinct : (entries.map Prod.fst).Nodup) (values : ∀ entry ∈ entries, Textual entry.2) : Textual (.map entries)

def quoted (text : Bytes) : Bytes := quote :: (text.flatMap escapeByte ++ [quote])

def keyText : Object → Bytes
  | .str text => quoted text
  | _ => []

def separator (first : Bool) : Bytes := if first then [] else [comma]

mutual

def jsonText : Object → Bytes
  | .nil => ['n', 'u', 'l', 'l'].map letter
  | .boolean true => ['t', 'r', 'u', 'e'].map letter
  | .boolean false => ['f', 'a', 'l', 's', 'e'].map letter
  | .positive u64 => decimal u64.toNat
  | .negative i64 => signedDecimal i64.toInt
  | .str text => quoted text
  | .array items => openBracket :: (itemsText true items ++ [closeBracket])
  | .map entries => openBrace :: (entriesText true entries ++ [closeBrace])
  | _ => []

def itemsText : Bool → List Object → Bytes
  | _, [] => []
  | first, item :: items => separator first ++ (jsonText item ++ itemsText false items)

def entriesText : Bool → List (Object × Object) → Bytes
  | _, [] => []
  | first, (key, value) :: entries =>
    separator first ++ (keyText key ++ colon :: (jsonText value ++ entriesText false entries))

end

variable {text32 : BitVec 32 → Bytes} {text64 : BitVec 64 → Bytes} {left : Nat} {out str text : Bytes}

theorem tryToWrite_room (room : out.length + str.length < left) : tryToWrite left out str = some (out ++ str) :=
  if_neg (Nat.not_le.mpr room)

section

variable (valid : ValidUtf8 text) (room : out.length + (text.flatMap escapeByte).length ≤ left)
include valid room

theorem tryToWriteStr_room : tryToWriteStr left out text = some (out ++ text.flatMap escapeByte) := by
  have written : (pieces noSimd (text.length % noSimd.width) [] text.length text).flatten = text.flatMap escapeByte := by
    rw [noSimd_text (Nat.le_refl _), valid.escapeText]
  have longer := length_le_escaped text
  have inside : out.length ≤ left := by omega
  rw [tryToWriteStr, writeStr_eq noSimd [] out.length left text written, if_pos inside, if_neg (by omega)]
  rfl

theorem writeBody_room : writeBody left text out = some (out ++ text.flatMap escapeByte) := by
  unfold writeBody
  split
  next empty => simp [empty]
  · exact tryToWriteStr_room valid room

end

theorem writeQuoted_room (valid : ValidUtf8 text) (room : out.length + (quoted text).length < left) :
    writeQuoted left text out = some (out ++ quoted text) := by
  simp only [quoted, length_cons, length_append, length_nil] at room
  have opened : (out ++ [quote]).length = out.length + 1 := by simp
  have body : (out ++ [quote] ++ text.flatMap escapeByte).length =
      out.length + 1 + (text.flatMap escapeByte).length := by rw [length_append, opened]
  have quote : [quote].length = 1 := rfl
  rw [writeQuoted, tryToWrite_room (by omega)]
  simp only [Option.bind_eq_bind, Option.bind_some]
  rw [writeBody_room valid (by omega)]
  simp only [Option.bind_some]
  rw [tryToWrite_room (by omega)]
  simp [quoted]

theorem writeSeparator_room {first : Bool} (room : out.length + (separator first).length < left) :
    writeSeparator left first out = some (out ++ separator first) := by
  cases first with
  | false => exact tryToWrite_room room
  | true => simp [separator, writeSeparator]

def Writes (text32 : BitVec 32 → Bytes) (text64 : BitVec 64 → Bytes) (object : Object) : Prop :=
  ∀ left out, out.length + (jsonText object).length < left →
    msgpack2json text32 text64 left object out = some (out ++ jsonText object)

theorem writes_items {items : List Object} (each : ∀ item ∈ items, Writes text32 text64 item) (first : Bool)
    (out : Bytes) (room : out.length + (itemsText first items).length < left) :
    itemsToJson text32 text64 left first items out = some (out ++ itemsText first items) := by
  induction items generalizing first out with
  | nil => simp [itemsToJson, itemsText]
  | cons item items ih =>
    simp only [itemsText, length_append] at room
    have write := each item (mem_cons_self ..) left (out ++ separator first) (by simp; omega)
    rw [itemsToJson, writeSeparator_room (by omega)]
    simp only [Option.bind_eq_bind, Option.bind_some, write]
    rw [ih (fun other member => each other (mem_cons_of_mem _ member)) _ _ (by simp; omega)]
    simp [itemsText]

variable {entries : List (Object × Object)} {object : Object}

theorem not_keyExists {key value : Object} (distinct : (((key, value) :: entries).map Prod.fst).Nodup) :
    keyExistsInMap key entries = false := by
  have absent := (nodup_cons.mp distinct).1
  cases key with
  | str text =>
    simp only [keyExistsInMap, any_eq_false]
    intro entry member same
    cases shape : entry.1 with
    | str other =>
      simp only [shape, beq_iff_eq] at same
      apply absent
      rw [same, ← shape]
      exact mem_map.mpr ⟨entry, member, rfl⟩
    | _ => simp [shape] at same
  | _ => rfl

theorem writes_entries (keys : ∀ entry ∈ entries, ∃ text, ValidUtf8 text ∧ text.length < 2 ^ 32 ∧ entry.1 = .str text)
    (distinct : (entries.map Prod.fst).Nodup) (values : ∀ entry ∈ entries, Writes text32 text64 entry.2)
    (packed : Nat) (out : Bytes) (room : out.length + (entriesText (packed = 0) entries).length < left) :
    entriesToJson text32 text64 left packed entries out = some (out ++ entriesText (packed = 0) entries) := by
  induction entries generalizing packed out with
  | nil => simp [entriesToJson, entriesText]
  | cons entry entries ih =>
    obtain ⟨key, value⟩ := entry
    obtain ⟨text, valid, _, isText⟩ := keys (key, value) (mem_cons_self ..)
    obtain rfl : key = .str text := isText
    simp only [entriesText, keyText, length_append, length_cons] at room
    have ahead : (out ++ separator (packed = 0)).length = out.length + (separator (packed = 0)).length :=
      length_append
    have named : (out ++ separator (packed = 0) ++ quoted text).length =
        out.length + (separator (packed = 0)).length + (quoted text).length := by rw [length_append, ahead]
    have joined : (out ++ separator (packed = 0) ++ quoted text ++ [colon]).length =
        out.length + (separator (packed = 0)).length + (quoted text).length + 1 := by
      rw [length_append, named, length_singleton]
    have colon : [colon].length = 1 := rfl
    have writes : Writes text32 text64 value := values (.str text, value) (mem_cons_self ..)
    have write := writes left (out ++ separator (packed = 0) ++ quoted text ++ [Ascii.colon]) (by omega)
    have later : (decide (packed + 1 = 0)) = false := by simp
    rw [entriesToJson, not_keyExists distinct, if_neg (by simp), writeSeparator_room (by omega)]
    simp only [Option.bind_eq_bind, Option.bind_some, msgpack2json]
    rw [writeQuoted_room valid (by omega)]
    simp only [Option.bind_some]
    rw [tryToWrite_room (by omega)]
    simp only [Option.bind_some, write]
    rw [ih (fun other member => keys other (mem_cons_of_mem _ member)) (nodup_cons.mp distinct).2
      (fun other member => values other (mem_cons_of_mem _ member)) _ _
      (by rw [later]; simp only [length_append] at joined ⊢; omega), later]
    simp [entriesText, keyText]

theorem writes_container {out body : Bytes} {opening closing : UInt8}
    {write : Bytes → Option Bytes} (room : out.length + (opening :: (body ++ [closing])).length < left)
    (inside : ∀ front : Bytes, front.length + body.length < left → write front = some (front ++ body)) : (do
      let out ← tryToWrite left out [opening]
      let out ← write out
      tryToWrite left out [closing]) = some (out ++ opening :: (body ++ [closing])) := by
  simp only [length_cons, length_append, length_nil] at room
  rw [tryToWrite_room (by simp; omega)]
  simp only [Option.bind_eq_bind, Option.bind_some]
  rw [inside _ (by simp; omega)]
  simp only [Option.bind_some]
  rw [tryToWrite_room (by simp; omega)]
  simp

theorem Textual.writes (textual : Textual object) : Writes text32 text64 object := by
  induction textual with
  | boolean value =>
    intro left out room
    cases value with
    | false | true => exact tryToWrite_room room
  | nil | positive inRange | negative below => exact fun left out room => tryToWrite_room room
  | str valid short => exact fun left out room => writeQuoted_room valid room
  | array few each ih =>
    intro left out room
    rw [jsonText] at room ⊢
    rw [msgpack2json]
    exact writes_container room fun front fits => writes_items ih true front fits
  | map few keys distinct values ih =>
    intro left out room
    rw [jsonText] at room ⊢
    rw [msgpack2json]
    exact writes_container room fun front fits => writes_entries keys distinct ih 0 front fits

theorem Textual.toJson (textual : Textual object) {size : Nat} (room : (jsonText object).length + 2 ≤ size) :
    msgpackToJson text32 text64 size object = some (jsonText object) := by
  rw [msgpackToJson, if_neg (by omega), textual.writes _ _ (by simp; omega)]
  rfl

end FluentBit.Json
